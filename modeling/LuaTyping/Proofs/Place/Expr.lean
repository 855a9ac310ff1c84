import LuaTyping.Proofs.Frame.Stmt
import LuaTyping.Proofs.Place.Tree
import LuaTyping.Proofs.Proper.Expr

/-!
# The places of checked expressions

A rule about places that holds wherever the type is proper, that parentheses keep, and that holds of
the variables at the toplevel, holds at every place of an expression about which nothing wrong is
found (`check_places`).  `Context.Admits` names these conditions.  The types at the node itself are
those of `check_proper`; what is left are the places below it.
-/

namespace LuaTyping

open Typed (Place)

variable {modules : Bool} {P : Place → Prop} {Γ Δ : Context}

/-! ### Rules -/

namespace Context

/-- The context is proper, and the rule `P` holds of what can be written in it: of all places with
proper types, of the module variable as an expression, and of toplevel variables as targets. -/
structure Admits (modules : Bool) (P : Place → Prop) (Γ : Context) : Prop where
  proper : Γ.Proper modules
  ofProper : ∀ place : Place, place.ty.proper modules = true →
    place.isToplevelTarget = false → P place
  paren : ∀ (expr : Typed.Expr) (loc : Location), P (.node expr) →
    P (.node ⟨.paren expr, expr.ty, loc⟩)
  moduleVar : ∀ name binding (loc : Location), Γ.scopes.toplevel.lookup name = some binding →
    binding.kind = .module → P (.node ⟨.toplevel name, .module [], loc⟩)
  target : ∀ name binding, Γ.scopes.toplevel.lookup name = some binding →
    binding.kind = .toplevel → P (.target (.toplevel name binding.ty))

namespace Admits

variable (hΓ : Γ.Admits modules P)
include hΓ

/-- A rule that is admitted with some toplevel variables is admitted with fewer. -/
theorem of_toplevel (hΔ : Δ.Proper modules) (h : ∀ name binding,
    Δ.scopes.toplevel.lookup name = some binding →
      Γ.scopes.toplevel.lookup name = some binding) : Δ.Admits modules P where
  proper := hΔ
  ofProper := hΓ.ofProper
  paren := hΓ.paren
  moduleVar := fun name binding loc hl => hΓ.moduleVar name binding loc (h name binding hl)
  target := fun name binding hl => hΓ.target name binding (h name binding hl)

theorem frames (hΔ : Δ.Proper modules) (h : Γ.Frames Δ) : Δ.Admits modules P := by
  obtain ⟨layer, rfl⟩ := h
  exact hΓ.of_toplevel hΔ fun _ _ hl => hl

theorem enter : Γ.enter.Admits modules P :=
  hΓ.of_toplevel hΓ.proper.enter fun _ _ hl => hl

theorem enterLoop : Γ.enterLoop.Admits modules P :=
  hΓ.of_toplevel hΓ.proper.enterLoop fun _ _ hl => hl

theorem node {expr : Typed.Expr} (h : expr.ty.proper modules = true) : P (.node expr) :=
  hΓ.ofProper _ h rfl

end Admits

/-- A variable that is not an inner one is found at the toplevel. -/
theorem Proper.toplevel_lookup (hΓ : Γ.Proper modules) {name : String} {binding : Binding}
    (hkind : binding.kind ≠ .inner) (h : Γ.scopes.lookup name = some (.var binding)) :
    Γ.scopes.toplevel.lookup name = some binding := by
  rw [Scopes.lookup_eq_var_iff, Scopes.var?_eq_some_iff] at h
  rcases h with h | ⟨-, h⟩
  · obtain ⟨layer, hlayer, hb⟩ := List.exists_of_findSome?_eq_some h
    have hinner := (hΓ.inner layer hlayer _ (NameMap.mem_of_lookup hb)).1
    exact absurd hinner hkind
  · exact h

/-- The module variable at the toplevel. -/
theorem Proper.moduleVar_of_toplevel (hΓ : Γ.Proper modules) {name : String} {binding : Binding}
    (h : Γ.scopes.toplevel.lookup name = some binding) (hk : binding.kind = .module) :
    binding.ty = .module [] ∧ Γ.module.name? = some name := by
  rcases hΓ.toplevel _ (NameMap.mem_of_lookup h) with ⟨htop, -⟩ | ⟨-, hm⟩
  · simp only at htop
    rw [hk] at htop
    cases htop
  · exact hm

/-- The other variables at the toplevel. -/
theorem Proper.ty_of_toplevel (hΓ : Γ.Proper modules) {name : String} {binding : Binding}
    (h : Γ.scopes.toplevel.lookup name = some binding) (hk : binding.kind = .toplevel) :
    binding.ty.proper modules = true := by
  rcases hΓ.toplevel _ (NameMap.mem_of_lookup h) with ⟨-, hp⟩ | ⟨hm, -⟩
  · exact hp
  · simp only at hm
    rw [hk] at hm
    cases hm

end Context

namespace Typed.Expr

theorem forall_places_iff {expr : Expr} :
    (∀ place ∈ expr.places, P place) ↔ P (.node expr) ∧ ∀ place ∈ expr.kind.places, P place := by
  obtain ⟨kind, ty, loc⟩ := expr
  rw [Expr.places, List.forall_mem_cons]

/-! ### Coercion and calls -/

theorem Floated.places (hΓ : Γ.Admits modules P) {expr t : Expr} (h : Floated expr t)
    (he : ∀ place ∈ expr.places, P place) : ∀ place ∈ t.places, P place := by
  rcases h with rfl | ⟨-, rfl⟩
  · exact he
  · exact forall_places_iff.mpr ⟨hΓ.node rfl, he⟩

theorem coerce?_places (hΓ : Γ.Admits modules P) {expr t : Expr} {want : Option Want}
    (hw : ∀ w, want = some w → w.ty.proper modules = true) (h : (expr.coerce? want).Yields t)
    (he : ∀ place ∈ expr.places, P place) : ∀ place ∈ t.places, P place := by
  cases want with
  | none =>
    rw [coerce?, Report.yields_pure] at h
    rwa [h]
  | some w =>
    rw [coerce?, coerce_yields_iff] at h
    cases h with
    | fits _ => exact he
    | cast _ _ => exact forall_places_iff.mpr ⟨hΓ.node (hw w rfl), he⟩

theorem results_places (hΓ : Γ.Admits modules P) {loc : Location} {want : Nat → Option Want}
    (hw : ∀ j w, want j = some w → w.ty.proper modules = true) {tys : List Ty} {position : Nat}
    {values : List Expr} (ht : ∀ ty ∈ tys, ty.proper modules = true)
    (h : (results loc want position tys).Yields values) :
    ∀ place ∈ listPlaces values, P place := by
  induction tys generalizing position values with
  | nil =>
    rw [results, Report.yields_pure] at h
    simp [h, listPlaces]
  | cons ty rest ih =>
    simp only [results, Report.yields_bind, Report.yields_pure] at h
    obtain ⟨value, hv, values, hvs, rfl⟩ := h
    rw [List.forall_mem_cons] at ht
    rw [listPlaces, List.forall_mem_append]
    refine ⟨coerce?_places hΓ (hw position) hv ?_, ih ht.2 hvs⟩
    exact forall_places_iff.mpr ⟨hΓ.node ht.1, by simp [ExprKind.places]⟩

/-- A call that is spread over its places brings no new types but those that are wanted. -/
theorem spread_places (hΓ : Γ.Admits modules P) {call t : Expr} {want : Nat → Option Want}
    (hw : ∀ j w, want j = some w → w.ty.proper modules = true)
    (hc : ∀ ty ∈ call.ownTypes, ty.proper modules = true) (h : (call.spread want).Yields t)
    (hk : ∀ place ∈ call.places, P place) : ∀ place ∈ t.places, P place := by
  simp only [spread, Report.yields_bind, Report.yields_pure] at h
  obtain ⟨values, hr, rfl⟩ := h
  have hown : ∀ ty ∈ call.valueTypes, ty.proper modules = true :=
    fun ty hty => hc ty (List.mem_cons_of_mem _ hty)
  have hp := results_proper hw hown hr
  rw [forall_places_iff]
  constructor
  · refine hΓ.node ?_
    cases values with
    | nil => rfl
    | cons first rest => exact hp first List.mem_cons_self
  · rw [ExprKind.places, List.forall_mem_append]
    exact ⟨hk, results_places hΓ hw hown hr⟩

end Typed.Expr

theorem Demand.Settles.places (hΓ : Γ.Admits modules P) {demand : Demand} {found t : Typed.Expr}
    (hd : demand.Proper modules) (h : demand.Settles found t)
    (hf : ∀ place ∈ found.places, P place) : ∀ place ∈ t.places, P place := by
  rcases h.eq_or_cast with rfl | ⟨want, rfl, rfl⟩
  · exact hf
  · exact Typed.Expr.forall_places_iff.mpr ⟨hΓ.node hd, hf⟩

theorem Values.ofCall_places (hΓ : Γ.Admits modules P) {call : Typed.Expr}
    {expected : List (Option Ty)} {site : Nat → Site} {position : Nat} {values : Values}
    (hc : ∀ ty ∈ call.ownTypes, ty.proper modules = true)
    (he : ∀ ty, some ty ∈ expected → ty.proper modules = true)
    (h : (Values.ofCall call expected site position).Yields values)
    (hk : ∀ place ∈ call.places, P place) :
    ∀ place ∈ Typed.Expr.listPlaces values.exprs, P place := by
  have hw : ∀ j w, Want.at? expected site position j = some w → w.ty.proper modules = true :=
    fun j w hj => he _ (Want.mem_of_at? hj)
  -- in every case one expression stands for all values of the call
  have hone : ∀ {value : Typed.Expr}, (∀ place ∈ value.places, P place) →
      ∀ place ∈ Typed.Expr.listPlaces [value], P place := by
    intro value hvalue
    simpa only [Typed.Expr.listPlaces, List.append_nil] using hvalue
  unfold Values.ofCall at h
  split at h
  · split_ifs at h
    · simp at h
    · rw [Report.yields_pure] at h
      rw [h]
      exact hone hk
  · simp only [Report.yields_bind, Report.yields_pure] at h
    obtain ⟨value, hv, rfl⟩ := h
    exact hone (Typed.Expr.coerce?_places hΓ (hw 0) hv hk)
  · simp only [Report.yields_bind, Report.yields_pure] at h
    obtain ⟨value, hv, rfl⟩ := h
    exact hone (Typed.Expr.spread_places hΓ hw hc hv hk)

/-! ### Expressions -/

theorem Context.nameExpr_places (hΓ : Γ.Admits modules P) {name : String} {loc : Location}
    {t : Typed.Expr} (h : (Γ.nameExpr name loc).Yields t) : ∀ place ∈ t.places, P place := by
  rcases nameExpr_yields h with ⟨ty, site, hl, rfl⟩ | ⟨ty, site, kind, hkind, hl, rfl⟩ |
    ⟨ty, hl, rfl⟩ <;>
    refine Typed.Expr.forall_places_iff.mpr ⟨?_, by simp [Typed.ExprKind.places]⟩
  · rcases hΓ.proper.var hl with ⟨-, hp⟩ | ⟨hk, -⟩
    · exact hΓ.node hp
    · cases hk
  · rcases hΓ.proper.var hl with ⟨-, hp⟩ | ⟨hk, hm, -⟩
    · exact hΓ.node hp
    · simp only at hm
      rw [hm] at hl ⊢
      exact hΓ.moduleVar name _ loc (hΓ.proper.toplevel_lookup hkind hl) hk
  · exact hΓ.node (hΓ.proper.builtin hl)

namespace Source.Expr

/-- The places below the node decide: an expression that is not a name has a proper type. -/
theorem places_of_kind (hΓ : Γ.Admits modules P) {expr : Source.Expr} {demand : Demand}
    {t : Typed.Expr} (hi : expr.isInit = false) (hn : expr.bareName? = none)
    (hd : demand.Proper modules) (h : (check Γ expr demand).Yields t)
    (hk : ∀ found, (check Γ expr .results).Yields found →
      ∀ place ∈ found.kind.places, P place) : ∀ place ∈ t.places, P place := by
  obtain ⟨found, hf, hs⟩ := (check_yields_iff hi).mp h
  have hty : found.ty.proper modules = true := by
    rcases check_proper hΓ.proper Demand.proper_results hf _ List.mem_cons_self with
      hp | ⟨-, name, hname, -⟩
    · exact hp
    · rw [hn] at hname
      cases hname
  exact hs.places hΓ hd (Typed.Expr.forall_places_iff.mpr ⟨hΓ.node hty, hk found hf⟩)

mutual

/-- **The rule holds at all places of an expression.** -/
theorem check_places (hΓ : Γ.Admits modules P) : ∀ {expr : Source.Expr} {demand : Demand}
    {t : Typed.Expr}, demand.Proper modules → (check Γ expr demand).Yields t →
      ∀ place ∈ t.places, P place
  | .nil _, demand, t, hd, h | .boolean _ _, demand, t, hd, h | .integer _ _, demand, t, hd, h
  | .float _ _, demand, t, hd, h | .string _ _, demand, t, hd, h => by
    refine places_of_kind hΓ rfl rfl hd h fun found hf => ?_
    simp only [check, Demand.settle, Report.yields_pure] at hf
    simp [hf, Typed.ExprKind.places]
  | .init entries loc, demand, t, hd, h => by
    have hk : ∀ want, demand = .ofType want → want.ty.isUnknown = false := by
      rintro want rfl
      exact Ty.not_isUnknown_of_proper hd
    obtain ⟨want, rfl, ⟨elem, items, hw, hi, rfl⟩ | ⟨fields, items, hw, hi, -, rfl⟩ |
      ⟨_, _, _, rfl⟩⟩ := check_init_yields hk h <;>
      refine Typed.Expr.forall_places_iff.mpr ⟨hΓ.node hd, ?_⟩
    · refine checkItems_places hΓ ?_ hi
      simpa [Demand.Proper, hw, Ty.proper] using hd
    · exact checkFields_places hΓ (Ty.proper_of_fields? hd hw) hi
    · simp [Typed.ExprKind.places]
  | .name text loc, demand, t, hd, h => by
    simp only [check, Report.yields_bind, Demand.settle_yields_iff] at h
    obtain ⟨found, hf, hs⟩ := h
    exact hs.places hΓ hd (Context.nameExpr_places hΓ hf)
  | .index object key loc, demand, t, hd, h => by
    refine places_of_kind hΓ rfl rfl hd h fun found hf => ?_
    simp only [check, Demand.settle, Report.yields_bind, Report.yields_pure] at hf
    obtain ⟨array, ha, elem, -, key', hk, rfl⟩ := hf
    rw [Typed.ExprKind.places, List.forall_mem_append]
    exact ⟨check_places hΓ Demand.proper_value ha, check_places hΓ (Demand.proper_ofType rfl) hk⟩
  | .field object key loc, demand, t, hd, h => by
    refine places_of_kind hΓ rfl rfl hd h fun found hf => ?_
    simp only [check, Demand.settle] at hf
    split at hf
    · simp only [Typed.Expr.ofMember, Report.yields_bind, Report.yields_pure] at hf
      obtain ⟨_, ⟨_, _, rfl⟩, rfl⟩ := hf
      simp [Typed.ExprKind.places]
    · simp only [Report.yields_bind, Report.yields_pure] at hf
      obtain ⟨object', ho, _, hf, rfl⟩ := hf
      have hat := check_proper hΓ.proper Demand.proper_value ho _ List.mem_cons_self
      rcases Context.fieldExpr_yields (Ty.not_isUnknown_of_properAt hat) hf with
        ⟨_, _, _, _, rfl⟩ | ⟨_, _, _, _, rfl⟩
      · exact check_places hΓ Demand.proper_value ho
      · simp [Typed.ExprKind.places]
  | .call callee args loc, demand, t, hd, h => by
    refine places_of_kind hΓ rfl rfl hd h fun found hf => ?_
    have hat : ∀ {found}, (check Γ callee .value).Yields found →
        Γ.ProperAt modules callee found.ty :=
      fun hc => check_proper hΓ.proper Demand.proper_value hc _ List.mem_cons_self
    obtain ⟨callee', params, returns, values, hc, hty, hv, -, hs⟩ :=
      check_call_yields (fun hc => Ty.not_isUnknown_of_properAt (hat hc)) hf
    have hp : (Ty.function params returns).proper modules = true := by
      rcases hty ▸ hat hc with hp | ⟨hm, -⟩
      · exact hp
      · cases hm
    rw [Ty.proper_function_iff] at hp
    rw [hs]
    simp only [Typed.ExprKind.places, List.forall_mem_append, List.forall_mem_map]
    refine ⟨⟨check_places hΓ Demand.proper_value hc, checkValues_places hΓ ?_ hv⟩, ?_⟩
    · simpa using hp.1
    · exact fun ty hty => hΓ.ofProper (.result ty) (hp.2 ty hty) rfl
  | .unary op operand loc, demand, t, hd, h => by
    refine places_of_kind hΓ rfl rfl hd h fun found hf => ?_
    simp only [check, Demand.settle, Report.yields_bind, Report.yields_pure] at hf
    obtain ⟨operand', ho, _, hu, rfl⟩ := hf
    have hat := check_proper hΓ.proper Demand.proper_value ho _ List.mem_cons_self
    obtain ⟨_, rfl, -⟩ := Typed.Expr.unary_yields (Ty.not_isUnknown_of_properAt hat) hu
    exact check_places hΓ Demand.proper_value ho
  | .binary left op right loc, demand, t, hd, h => by
    refine places_of_kind hΓ rfl rfl hd h fun found hf => ?_
    simp only [check, Demand.settle, Report.yields_bind, Report.yields_pure] at hf
    obtain ⟨left', hl, right', hr, _, hb, rfl⟩ := hf
    have hlt := check_proper hΓ.proper Demand.proper_value hl _ List.mem_cons_self
    have hrt := check_proper hΓ.proper Demand.proper_value hr _ List.mem_cons_self
    obtain ⟨_, _, _, rfl, hfl, hfr, -⟩ := Typed.Expr.binary_yields
      (Ty.not_isUnknown_of_properAt hlt) (Ty.not_isUnknown_of_properAt hrt) hb
    rw [Typed.ExprKind.places, List.forall_mem_append]
    exact ⟨hfl.places hΓ (check_places hΓ Demand.proper_value hl),
      hfr.places hΓ (check_places hΓ Demand.proper_value hr)⟩
  | .cast expr target loc, demand, t, hd, h => by
    refine places_of_kind hΓ rfl rfl hd h fun found hf => ?_
    simp only [check, Demand.settle, Report.yields_bind, Report.yields_pure] at hf
    obtain ⟨expr', he, _, _, _, _, rfl⟩ := hf
    exact check_places hΓ Demand.proper_value he
  | .paren expr loc, demand, t, hd, h => by
    simp only [check, Report.yields_bind, Demand.settle_yields_iff] at h
    obtain ⟨expr', he, hs⟩ := h
    have hexpr : ∀ place ∈ expr'.places, P place := check_places hΓ Demand.proper_value he
    refine hs.places hΓ hd (Typed.Expr.forall_places_iff.mpr ⟨?_, hexpr⟩)
    exact hΓ.paren expr' loc (Typed.Expr.forall_places_iff.mp hexpr).1

/-- **The rule holds at all places of a list of values.** -/
theorem checkValues_places (hΓ : Γ.Admits modules P) {site : Nat → Site} :
    ∀ {exprs : List Source.Expr} {expected : List (Option Ty)} {position : Nat} {values : Values},
      (∀ ty, some ty ∈ expected → ty.proper modules = true) →
        (checkValues Γ site exprs expected position).Yields values →
          ∀ place ∈ Typed.Expr.listPlaces values.exprs, P place
  | [], _, _, values, _, h => by
    rw [checkValues, Report.yields_pure] at h
    simp [h, Values.empty, Typed.Expr.listPlaces]
  | expr :: rest, expected, position, values, he, h => by
    rw [checkValues] at h
    split_ifs at h with hlast
    · rw [Bool.and_eq_true] at hlast
      rw [Report.yields_bind] at h
      obtain ⟨call, hc, hv⟩ := h
      exact Values.ofCall_places hΓ (check_call_proper hΓ.proper hlast.2 hc) he hv
        (check_places hΓ Demand.proper_results hc)
    · simp only [Report.yields_bind, Report.yields_pure] at h
      obtain ⟨value, hv, values, hvs, rfl⟩ := h
      simp only [Values.cons, Typed.Expr.listPlaces, List.forall_mem_append]
      exact ⟨check_places hΓ (Demand.proper_ofWant_at he) hv,
        checkValues_places hΓ (fun ty hty => he ty (List.mem_of_mem_tail hty)) hvs⟩

theorem checkItems_places (hΓ : Γ.Admits modules P) {elem : Ty}
    (he : elem.proper modules = true) : ∀ {entries : List Entry} {items : List Typed.Expr},
      (checkItems Γ elem entries).Yields items → ∀ place ∈ Typed.Expr.listPlaces items, P place
  | [], items, h => by
    rw [checkItems, Report.yields_pure] at h
    simp [h, Typed.Expr.listPlaces]
  | .positional value :: rest, items, h => by
    simp only [checkItems, Report.yields_bind, Report.yields_pure] at h
    obtain ⟨value', hv, values, hvs, rfl⟩ := h
    rw [Typed.Expr.listPlaces, List.forall_mem_append]
    exact ⟨check_places hΓ (Demand.proper_ofType he) hv, checkItems_places hΓ he hvs⟩
  | .named _ _ _ :: rest, items, h => by simp [checkItems] at h

theorem checkFields_places (hΓ : Γ.Admits modules P) {target : Ty} {fields : NameMap Ty}
    (hp : Ty.properFields modules fields = true) : ∀ {entries : List Entry} {seen : List String}
      {items : List (String × Typed.Expr)},
        (checkFields Γ target fields entries seen).Yields items →
          ∀ place ∈ Typed.Expr.entryPlaces items, P place
  | [], _, items, h => by
    rw [checkFields, Report.yields_pure] at h
    simp [h, Typed.Expr.entryPlaces]
  | .positional _ :: rest, seen, items, h => by simp [checkFields] at h
  | .named key value loc :: rest, seen, items, h => by
    rw [checkFields] at h
    split_ifs at h
    · simp at h
    · split at h
      · next ty hl =>
        simp only [Report.yields_bind, Report.yields_pure] at h
        obtain ⟨value', hv, values, hvs, rfl⟩ := h
        rw [Typed.Expr.entryPlaces, List.forall_mem_append]
        exact ⟨check_places hΓ (Demand.proper_ofType (Ty.proper_of_lookup hp hl)) hv,
          checkFields_places hΓ hp hvs⟩
      · simp at h

end

end Source.Expr

end LuaTyping
