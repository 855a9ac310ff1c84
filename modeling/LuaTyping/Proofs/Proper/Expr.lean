import LuaTyping.Checking.Expr
import LuaTyping.Proofs.Proper.Context
import LuaTyping.Proofs.Typing.Inversion
import Mathlib.Tactic.SplitIfs

/-!
# The types of checked expressions

Where a check of an expression in a proper context finds nothing wrong, the types of its values are
proper.  The one exception is the module variable, alone or in parentheses, whose type is the empty
module type (`check_proper`).  For a list of expressions this makes the number of values certain
(`checkValues_proper`).
-/

namespace LuaTyping

variable {modules : Bool}

/-! ### Resolved annotations -/

namespace TypeExpr

mutual

theorem resolve_proper {scopes : Scopes}
    (hs : ∀ name ty, scopes.lookupType name = some ty → ty.proper modules = true) :
    ∀ {type : TypeExpr} {site : Location} {ty : Ty}, (type.resolve scopes site).Yields ty →
      ty.proper modules = true
  | .nil, _, ty, h | .boolean, _, ty, h | .integer, _, ty, h | .float, _, ty, h
  | .string, _, ty, h | .any, _, ty, h => by
    simp only [resolve, Report.yields_pure] at h
    rw [h]
    rfl
  | .module, _, ty, h => by simp [resolve] at h
  | .name text loc, _, ty, h => by
    simp only [resolve, Report.yields_orUnknown] at h
    exact hs text ty h
  | .array elem loc, _, ty, h => by
    simp only [resolve, Report.yields_bind, Report.yields_pure] at h
    obtain ⟨elem', he, rfl⟩ := h
    rw [Ty.proper]
    exact resolve_proper hs he
  | .table fields loc, _, ty, h => by
    simp only [resolve, Report.yields_bind, Report.yields_pure] at h
    obtain ⟨fields', hf, rfl⟩ := h
    exact Ty.properFields_iff.mpr (resolveFields_proper hs (by simp) hf)
  | .function params returns loc, _, ty, h => by
    simp only [resolve, Report.yields_bind, Report.yields_pure] at h
    obtain ⟨params', hp, returns', hr, rfl⟩ := h
    rw [Ty.proper_function_iff]
    exact ⟨resolveList_proper hs hp, resolveList_proper hs hr⟩

theorem resolveList_proper {scopes : Scopes}
    (hs : ∀ name ty, scopes.lookupType name = some ty → ty.proper modules = true) :
    ∀ {types : List TypeExpr} {site : Location} {tys : List Ty},
      (resolveList scopes types site).Yields tys → ∀ ty ∈ tys, ty.proper modules = true
  | [], _, tys, h => by
    simp only [resolveList, Report.yields_pure] at h
    simp [h]
  | type :: rest, site, tys, h => by
    simp only [resolveList, Report.yields_bind, Report.yields_pure] at h
    obtain ⟨ty, ht, tys, hr, rfl⟩ := h
    rw [List.forall_mem_cons]
    exact ⟨resolve_proper hs ht, resolveList_proper hs hr⟩

theorem resolveFields_proper {scopes : Scopes}
    (hs : ∀ name ty, scopes.lookupType name = some ty → ty.proper modules = true) :
    ∀ {fields : List TypeField} {known map : NameMap Ty},
      (∀ entry ∈ known, entry.2.proper modules = true) →
        (resolveFields scopes fields known).Yields map → ∀ entry ∈ map, entry.2.proper modules = true
  | [], known, map, hk, h => by
    simp only [resolveFields, Report.yields_pure] at h
    rw [h]
    exact hk
  | ⟨key, type, loc⟩ :: rest, known, map, hk, h => by
    simp only [resolveFields, Report.yields_bind] at h
    obtain ⟨ty, ht, h⟩ := h
    split at h
    · simp at h
    · refine resolveFields_proper hs (fun entry he => ?_) h
      rcases NameMap.mem_insert he with he | rfl
      · exact hk entry he
      · exact resolve_proper hs ht

end

end TypeExpr

/-! ### The type of an expression -/

namespace Source.Expr

/-- The name that the expression is, in any number of parentheses. -/
def bareName? : Source.Expr → Option String
  | .name text _ => some text
  | .paren expr _ => bareName? expr
  | _ => none

end Source.Expr

namespace Context

/-- The type is proper, or it is that of the module variable and the expression names it. -/
def ProperAt (modules : Bool) (Γ : Context) (expr : Source.Expr) (ty : Ty) : Prop :=
  ty.proper modules = true ∨
    ty = .module [] ∧ ∃ name, expr.bareName? = some name ∧ Γ.isModuleVar name = true

end Context

/-- A demand for a type asks for a proper one. -/
def Demand.Proper (modules : Bool) : Demand → Prop
  | .ofType want => want.ty.proper modules = true
  | _ => True

theorem Demand.proper_value : Demand.value.Proper modules :=
  trivial

theorem Demand.proper_results : Demand.results.Proper modules :=
  trivial

theorem Demand.proper_ofType {ty : Ty} {site : Site} (h : ty.proper modules = true) :
    (Demand.ofType ⟨ty, site⟩).Proper modules :=
  h

/-- The type of the expression and those of all its values. -/
def Typed.Expr.ownTypes (expr : Typed.Expr) : List Ty :=
  expr.ty :: expr.valueTypes

/-- An expression with one value has one type. -/
theorem Typed.Expr.forall_ownTypes {expr : Typed.Expr} {p : Ty → Prop}
    (h : expr.valueTypes = [expr.ty]) (hp : p expr.ty) : ∀ ty ∈ expr.ownTypes, p ty := by
  simpa [Typed.Expr.ownTypes, h] using hp

/-- A call has the type of its first result, and `nil` if there is none. -/
theorem Typed.Expr.forall_ownTypes_call {callee : Typed.Expr} {args : List Typed.Expr}
    {returns : List Ty} {loc : Location} (h : ∀ ty ∈ returns, ty.proper modules = true) :
    ∀ ty ∈ (Typed.Expr.mk (.call callee args returns) (returns.headD .nil) loc).ownTypes,
      ty.proper modules = true := by
  intro ty hty
  simp only [Typed.Expr.ownTypes, Typed.Expr.valueTypes, List.mem_cons] at hty
  rcases hty with rfl | hty
  · cases returns with
    | nil => rfl
    | cons first rest => exact h first (by simp)
  · exact h ty hty

/-- A settled expression has the types of the expression, or the one that is wanted. -/
theorem Demand.Settles.properAt {Γ : Context} {expr : Source.Expr} {demand : Demand}
    {found t : Typed.Expr} (hd : demand.Proper modules) (h : demand.Settles found t)
    (hf : ∀ ty ∈ found.ownTypes, Γ.ProperAt modules expr ty) :
    ∀ ty ∈ t.ownTypes, Γ.ProperAt modules expr ty := by
  rcases h.eq_or_cast with rfl | ⟨want, rfl, rfl⟩
  · exact hf
  · exact Typed.Expr.forall_ownTypes rfl (Or.inl hd)

theorem UnaryOp.Types.proper {op : UnaryOp} {operand ty : Ty} (h : op.Types operand ty) :
    ty.proper modules = true := by
  cases h <;> rfl

theorem BinaryOp.Types.proper {op : BinaryOp} {left right ty : Ty} (h : op.Types left right ty) :
    ty.proper modules = true := by
  cases h <;> rfl

theorem Ty.proper_of_fields? {ty : Ty} {fields : NameMap Ty} (hp : ty.proper modules = true)
    (h : ty.fields? = some fields) : properFields modules fields = true := by
  cases ty <;> simp only [fields?, reduceCtorEq, Option.some.injEq] at h
  · rwa [← h]
  · rwa [← h]

theorem Context.ProperAt.known {Γ : Context} {expr : Source.Expr} {ty : Ty}
    (h : Γ.ProperAt modules expr ty) : ty.proper true = true := by
  rcases h with h | ⟨rfl, -⟩
  · exact Ty.proper_true h
  · rfl

/-- The module variable is no function. -/
theorem Context.ProperAt.function {Γ : Context} {expr : Source.Expr} {params returns : List Ty}
    (h : Γ.ProperAt modules expr (.function params returns)) :
    (∀ ty ∈ params, ty.proper modules = true) ∧ ∀ ty ∈ returns, ty.proper modules = true := by
  rcases h with h | ⟨hm, -⟩
  · exact Ty.proper_function_iff.mp h
  · cases hm

theorem Ty.not_isUnknown_of_properAt {Γ : Context} {expr : Source.Expr} {ty : Ty}
    (h : Γ.ProperAt modules expr ty) : ty.isUnknown = false := by
  rcases h with h | ⟨rfl, -⟩
  · exact not_isUnknown_of_proper h
  · rfl

namespace Source.Expr

/-- **The types of an expression.**  They are proper unless the expression is the module variable. -/
theorem check_proper {Γ : Context} (hΓ : Γ.Proper modules) : ∀ {expr : Source.Expr}
    {demand : Demand} {t : Typed.Expr}, demand.Proper modules → (check Γ expr demand).Yields t →
      ∀ ty ∈ t.ownTypes, Γ.ProperAt modules expr ty
  | .nil _, demand, t, hd, h | .boolean _ _, demand, t, hd, h | .integer _ _, demand, t, hd, h
  | .float _ _, demand, t, hd, h | .string _ _, demand, t, hd, h => by
    simp only [check, Demand.settle_yields_iff] at h
    exact h.properAt hd (Typed.Expr.forall_ownTypes rfl (Or.inl rfl))
  | .init entries loc, demand, t, hd, h => by
    have hk : ∀ want, demand = .ofType want → want.ty.isUnknown = false := by
      rintro want rfl
      exact Ty.not_isUnknown_of_proper hd
    obtain ⟨want, rfl, hi⟩ := check_init_yields hk h
    rcases hi with ⟨_, _, _, _, rfl⟩ | ⟨_, _, _, _, _, rfl⟩ | ⟨_, _, _, rfl⟩ <;>
      exact Typed.Expr.forall_ownTypes rfl (Or.inl hd)
  | .name text loc, demand, t, hd, h => by
    simp only [check, Report.yields_bind, Demand.settle_yields_iff] at h
    obtain ⟨found, hn, hs⟩ := h
    rcases Context.nameExpr_yields hn with ⟨ty, site, hl, rfl⟩ | ⟨ty, site, kind, -, hl, rfl⟩ |
      ⟨ty, hl, rfl⟩ <;> refine hs.properAt hd (Typed.Expr.forall_ownTypes rfl ?_)
    · rcases hΓ.var hl with ⟨-, hp⟩ | ⟨hk, -⟩
      · exact Or.inl hp
      · cases hk
    · rcases hΓ.var hl with ⟨-, hp⟩ | ⟨hk, hm, -⟩
      · exact Or.inl hp
      · refine Or.inr ⟨hm, text, rfl, ?_⟩
        simp only at hk
        simp [Context.isModuleVar, hl, hk]
    · exact Or.inl (hΓ.builtin hl)
  | .index object key loc, demand, t, hd, h => by
    simp only [check, Report.yields_bind, Demand.settle_yields_iff] at h
    obtain ⟨array, ha, elem, he, key', -, hs⟩ := h
    have hat := check_proper hΓ Demand.proper_value ha _ List.mem_cons_self
    rw [Ty.element_yields (Ty.not_isUnknown_of_properAt hat) he] at hat
    refine hs.properAt hd (Typed.Expr.forall_ownTypes rfl ?_)
    rcases hat with hp | ⟨hm, -⟩
    · exact Or.inl hp
    · cases hm
  | .field object key loc, demand, t, hd, h => by
    simp only [check] at h
    split at h
    · next library members hlib =>
      obtain ⟨-, hl⟩ := Context.library?_eq_some_iff.mp hlib
      simp only [Typed.Expr.ofMember, Report.yields_bind, Report.yields_orUnknown,
        Report.yields_pure, Demand.settle_yields_iff] at h
      obtain ⟨_, ⟨mty, hm, rfl⟩, hs⟩ := h
      exact hs.properAt hd (Typed.Expr.forall_ownTypes rfl (Or.inl (hΓ.member hl hm)))
    · simp only [Report.yields_bind, Demand.settle_yields_iff] at h
      obtain ⟨found, ho, _, hf, hs⟩ := h
      have hat := check_proper hΓ Demand.proper_value ho _ List.mem_cons_self
      rcases Context.fieldExpr_yields (Ty.not_isUnknown_of_properAt hat) hf with
        ⟨fields, ty, hfs, hl, rfl⟩ | ⟨fields, declared, -, hl, rfl⟩ <;>
        refine hs.properAt hd (Typed.Expr.forall_ownTypes rfl (Or.inl ?_))
      · rcases hat with hp | ⟨hm, -⟩
        · exact Ty.proper_of_lookup (Ty.proper_of_fields? hp hfs) hl
        · rw [hm] at hfs
          cases hfs
      · exact hΓ.fields _ (NameMap.mem_of_lookup hl)
  | .call callee args loc, demand, t, hd, h => by
    have hat : ∀ {found}, (check Γ callee .value).Yields found → Γ.ProperAt modules callee found.ty :=
      fun hc => check_proper hΓ Demand.proper_value hc _ List.mem_cons_self
    obtain ⟨found, params, returns, values, hc, hty, -, -, hs⟩ :=
      check_call_yields (fun hc => Ty.not_isUnknown_of_properAt (hat hc)) h
    have hr : ∀ ty ∈ returns, ty.proper modules = true := by
      have hp := hat hc
      rw [hty] at hp
      exact hp.function.2
    exact hs.properAt hd fun ty hty => Or.inl (Typed.Expr.forall_ownTypes_call hr ty hty)
  | .unary op operand loc, demand, t, hd, h => by
    simp only [check, Report.yields_bind, Demand.settle_yields_iff] at h
    obtain ⟨found, ho, _, hu, hs⟩ := h
    have hat := check_proper hΓ Demand.proper_value ho _ List.mem_cons_self
    obtain ⟨ty, rfl, htypes⟩ := Typed.Expr.unary_yields (Ty.not_isUnknown_of_properAt hat) hu
    exact hs.properAt hd (Typed.Expr.forall_ownTypes rfl (Or.inl htypes.proper))
  | .binary left op right loc, demand, t, hd, h => by
    simp only [check, Report.yields_bind, Demand.settle_yields_iff] at h
    obtain ⟨left', hl, right', hr, _, hb, hs⟩ := h
    have hlt := check_proper hΓ Demand.proper_value hl _ List.mem_cons_self
    have hrt := check_proper hΓ Demand.proper_value hr _ List.mem_cons_self
    obtain ⟨_, _, ty, rfl, -, -, htypes⟩ := Typed.Expr.binary_yields
      (Ty.not_isUnknown_of_properAt hlt) (Ty.not_isUnknown_of_properAt hrt) hb
    exact hs.properAt hd (Typed.Expr.forall_ownTypes rfl (Or.inl htypes.proper))
  | .cast expr target loc, demand, t, hd, h => by
    simp only [check, Report.yields_bind, Demand.settle_yields_iff] at h
    obtain ⟨_, -, ty, ht, _, -, hs⟩ := h
    have hp := TypeExpr.resolve_proper (fun _ _ => hΓ.typeName) ht
    exact hs.properAt hd (Typed.Expr.forall_ownTypes rfl (Or.inl hp))
  | .paren expr loc, demand, t, hd, h => by
    simp only [check, Report.yields_bind, Demand.settle_yields_iff] at h
    obtain ⟨found, hf, hs⟩ := h
    refine hs.properAt hd (Typed.Expr.forall_ownTypes rfl ?_)
    exact check_proper hΓ Demand.proper_value hf _ List.mem_cons_self

/-- A call is never the module variable. -/
theorem check_call_proper {Γ : Context} (hΓ : Γ.Proper modules) {expr : Source.Expr}
    (hcall : expr.isCall = true) {t : Typed.Expr} (h : (check Γ expr .results).Yields t) :
    ∀ ty ∈ t.ownTypes, ty.proper modules = true := by
  intro ty hty
  rcases check_proper hΓ Demand.proper_results h ty hty with hp | ⟨-, name, hn, -⟩
  · exact hp
  · cases expr <;> simp [isCall] at hcall
    cases hn

end Source.Expr

/-! ### Lists of expressions -/

theorem Want.mem_of_at? {expected : List (Option Ty)} {site : Nat → Site} {position j : Nat}
    {want : Want} (h : Want.at? expected site position j = some want) : some want.ty ∈ expected := by
  simp only [Want.at?, Option.map_eq_some_iff, Option.join_eq_some_iff] at h
  obtain ⟨ty, hty, rfl⟩ := h
  exact List.mem_of_getElem? hty

theorem Demand.proper_ofWant_at {expected : List (Option Ty)} {site : Nat → Site} {position j : Nat}
    (h : ∀ ty, some ty ∈ expected → ty.proper modules = true) :
    (Demand.ofWant (Want.at? expected site position j)).Proper modules := by
  cases hw : Want.at? expected site position j with
  | none => trivial
  | some want => exact h _ (Want.mem_of_at? hw)

namespace Typed.Expr

theorem coerce?_proper {expr t : Expr} {want : Option Want} (he : expr.ty.proper modules = true)
    (hw : ∀ w, want = some w → w.ty.proper modules = true) (h : (expr.coerce? want).Yields t) :
    t.ty.proper modules = true := by
  cases want with
  | none =>
    rw [coerce?, Report.yields_pure] at h
    rwa [h]
  | some w =>
    rw [coerce?, coerce_yields_iff] at h
    cases h with
    | fits _ => exact he
    | cast _ _ => exact hw w rfl

theorem results_proper {loc : Location} {want : Nat → Option Want}
    (hw : ∀ j w, want j = some w → w.ty.proper modules = true) : ∀ {tys : List Ty} {position : Nat}
      {values : List Expr}, (∀ ty ∈ tys, ty.proper modules = true) →
        (results loc want position tys).Yields values → ∀ value ∈ values, value.ty.proper modules = true
  | [], _, values, _, h => by
    rw [results, Report.yields_pure] at h
    simp [h]
  | ty :: rest, position, values, ht, h => by
    simp only [results, Report.yields_bind, Report.yields_pure] at h
    obtain ⟨value, hv, values, hvs, rfl⟩ := h
    rw [List.forall_mem_cons] at ht ⊢
    exact ⟨coerce?_proper ht.1 (hw position) hv, results_proper hw ht.2 hvs⟩

end Typed.Expr

/-- The values of a call are as many as its results, and have proper types. -/
theorem Values.ofCall_proper {call : Typed.Expr} {expected : List (Option Ty)} {site : Nat → Site}
    {position : Nat} {values : Values} (hc : ∀ ty ∈ call.ownTypes, ty.proper modules = true)
    (he : ∀ ty, some ty ∈ expected → ty.proper modules = true)
    (h : (Values.ofCall call expected site position).Yields values) :
    values.uncertain = false ∧ ∀ ty ∈ values.types, ty.proper modules = true := by
  have hw : ∀ j w, Want.at? expected site position j = some w → w.ty.proper modules = true :=
    fun j w hj => he _ (Want.mem_of_at? hj)
  unfold Values.ofCall at h
  split at h
  · split_ifs at h
    · simp at h
    · rw [Report.yields_pure] at h
      simp [h]
  · simp only [Report.yields_bind, Report.yields_pure] at h
    obtain ⟨value, hv, rfl⟩ := h
    have hp := Typed.Expr.coerce?_proper (hc _ List.mem_cons_self) (hw 0) hv
    exact ⟨Ty.not_isUnknown_of_proper hp, by simpa using hp⟩
  · simp only [Typed.Expr.spread, Report.yields_bind, Report.yields_pure] at h
    obtain ⟨_, ⟨results, hr, rfl⟩, rfl⟩ := h
    have hc' : ∀ ty ∈ call.valueTypes, ty.proper modules = true :=
      fun ty hty => hc ty (List.mem_cons_of_mem _ hty)
    have hp := Typed.Expr.results_proper hw hc' hr
    refine ⟨?_, ?_⟩
    · rw [List.any_eq_false]
      intro ty hty
      simp [Ty.not_isUnknown_of_proper (hc' ty hty)]
    · intro ty hty
      obtain ⟨value, hv, rfl⟩ := List.mem_map.mp hty
      exact hp value hv

namespace Source.Expr

/-- **The types of a list of values.**  Their number is certain, and each is proper or that of the
module variable. -/
theorem checkValues_proper {Γ : Context} (hΓ : Γ.Proper modules) {site : Nat → Site} :
    ∀ {exprs : List Source.Expr} {expected : List (Option Ty)} {position : Nat} {values : Values},
      (∀ ty, some ty ∈ expected → ty.proper modules = true) →
        (checkValues Γ site exprs expected position).Yields values →
          values.uncertain = false ∧ ∀ ty ∈ values.types, ty.proper modules = true ∨ ty = .module []
  | [], _, _, values, _, h => by
    rw [checkValues, Report.yields_pure] at h
    simp [h, Values.empty]
  | expr :: rest, expected, position, values, he, h => by
    rw [checkValues] at h
    split_ifs at h with hlast
    · rw [Bool.and_eq_true] at hlast
      rw [Report.yields_bind] at h
      obtain ⟨call, hc, hv⟩ := h
      obtain ⟨hu, hp⟩ := Values.ofCall_proper (check_call_proper hΓ hlast.2 hc) he hv
      exact ⟨hu, fun ty hty => Or.inl (hp ty hty)⟩
    · simp only [Report.yields_bind, Report.yields_pure] at h
      obtain ⟨value, hv, values, hvs, rfl⟩ := h
      obtain ⟨hu, hp⟩ := checkValues_proper hΓ
        (fun ty hty => he ty (List.mem_of_mem_tail hty)) hvs
      refine ⟨hu, ?_⟩
      rw [Values.cons, List.forall_mem_cons]
      refine ⟨?_, hp⟩
      rcases check_proper hΓ (Demand.proper_ofWant_at he) hv _ List.mem_cons_self with
        hp | ⟨hm, -⟩
      · exact Or.inl hp
      · exact Or.inr hm

end Source.Expr

/-- A certain number of values fits only if it is the right one. -/
theorem Values.length_of_fits {values : Values} {count : Nat} (hu : values.uncertain = false)
    (h : values.fits count = true) : values.types.length = count := by
  simpa [Values.fits, hu] using h

end LuaTyping
