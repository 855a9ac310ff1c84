import LuaTyping.Proofs.Place.Stmt
import LuaTyping.Proofs.Shape.Module

/-!
# The places of checked items

A rule that is admitted in front of an item and behind it holds at all places of the item
(`Item.check_places`), apart from the declaration of the module variable, of which the typed form is
known (`Item.check_moduleDecl`).

Items add toplevel variables and change none (`Item.check_keepsToplevel`).  So a rule that is
admitted at the end of a run is admitted all along it.
-/

namespace LuaTyping

open Typed (Place)

variable {modules : Bool} {P : Place → Prop} {Γ Δ Θ : Context} {options : Options}
  {loc : Location}

/-! ### Toplevel variables stay what they are -/

namespace Context

/-- Every toplevel variable of the first context is one of the second. -/
def KeepsToplevel (Γ Δ : Context) : Prop :=
  ∀ name binding, Γ.scopes.toplevel.lookup name = some binding →
    Δ.scopes.toplevel.lookup name = some binding

theorem KeepsToplevel.trans (h : Γ.KeepsToplevel Δ) (h' : Δ.KeepsToplevel Θ) :
    Γ.KeepsToplevel Θ :=
  fun name binding hl => h' name binding (h name binding hl)

theorem KeepsToplevel.of_eq (h : Δ.scopes.toplevel = Γ.scopes.toplevel) : Γ.KeepsToplevel Δ :=
  fun _ _ hl => h ▸ hl

theorem declare_keepsToplevel {name : String} {binding : Binding}
    (h : (Γ.declare name binding).Yields Δ) : Γ.KeepsToplevel Δ := by
  rcases declare_yields h with ⟨layer, outer, -, rfl⟩ | ⟨-, hnew, rfl⟩
  · exact .of_eq rfl
  · intro other found hl
    -- the name is new, so it is another one
    have hne : other ≠ name := by
      rintro rfl
      rw [hnew] at hl
      cases hl
    rw [NameMap.lookup_insert]
    simpa [hne] using hl

theorem declareAll_keepsToplevel {kind : VarKind} {decls : List Typed.Decl}
    (h : (declareAll kind decls Γ).Yields Δ) : Γ.KeepsToplevel Δ := by
  induction decls generalizing Γ with
  | nil =>
    rw [declareAll, Report.yields_pure] at h
    exact .of_eq (by rw [h])
  | cons decl rest ih =>
    simp only [declareAll, Report.yields_bind] at h
    obtain ⟨Γ', hd, hr⟩ := h
    exact (declare_keepsToplevel hd).trans (ih hr)

theorem declareFunction_keepsToplevel {name : Source.FunctionName} {ty : Ty}
    (h : (declareFunction options Γ name ty loc).Yields Δ) : Γ.KeepsToplevel Δ := by
  obtain ⟨plain, -, hd⟩ | ⟨module, field, -, -, hd⟩ := declareFunction_yields h
  · exact declare_keepsToplevel hd
  · obtain ⟨-, -, rfl⟩ := declareField_yields hd
    exact .of_eq rfl

end Context

/-- **Items keep the toplevel variables.** -/
theorem Source.Item.check_keepsToplevel {item : Source.Item} {t : Option Typed.Item}
    (h : (item.check options Γ).Yields (t, Δ)) : Γ.KeepsToplevel Δ := by
  unfold Item.check at h
  split at h <;> simp only [Report.yields_bind, Report.yields_pure, Prod.mk.injEq] at h
  · obtain ⟨⟨_, Δ'⟩, hm, -, rfl⟩ := h
    simp only [Context.moduleVar, Report.yields_bind, Report.yields_pure, Prod.mk.injEq] at hm
    obtain ⟨_, -, Δ', hd, -, rfl⟩ := hm
    have hkeep := Context.declare_keepsToplevel (Context.declareModule_yields hd).2
    exact hkeep
  · obtain ⟨⟨_, Δ'⟩, hd, -, rfl⟩ := h
    simp only [Context.declareVars, Report.yields_bind, Report.yields_pure, Prod.mk.injEq] at hd
    obtain ⟨_, -, _, -, _, -, Δ', hd, -, rfl⟩ := hd
    exact Context.declareAll_keepsToplevel hd
  · obtain ⟨⟨_, Δ'⟩, hf, -, rfl⟩ := h
    simp only [Context.function, Report.yields_bind, Report.yields_pure, Prod.mk.injEq] at hf
    obtain ⟨_, -, _, -, Δ', hd, _, -, -, rfl⟩ := hf
    exact Context.declareFunction_keepsToplevel hd
  · next targets values loc =>
    obtain ⟨⟨_, Δ'⟩, ha, -, rfl⟩ := h
    have hscopes : (Context.itemAssign options Γ targets values loc).value.2.scopes = Γ.scopes :=
      Context.scopes_declareFields
    rw [ha.value_eq] at hscopes
    exact .of_eq (by rw [hscopes])
  · obtain ⟨_, -, Δ', hd, -, rfl⟩ := h
    obtain ⟨-, rfl⟩ := Context.declareType_yields hd
    exact .of_eq rfl
  · obtain ⟨_, -, Δ', hd, -, rfl⟩ := h
    obtain ⟨-, rfl⟩ := Context.declareType_yields hd
    exact .of_eq rfl
  · obtain ⟨_, -, -, rfl⟩ := h
    exact .of_eq rfl

/-! ### The module variable -/

/-- The typed declaration of a module variable. -/
def Typed.Item.moduleDecl (name : String) (nameLoc initLoc loc : Location) : Typed.Item :=
  .var [.plain name (.module []) nameLoc] [⟨.moduleInit, .module [], initLoc⟩] loc

theorem Typed.Item.places_moduleDecl {name : String} {nameLoc initLoc : Location} :
    (moduleDecl name nameLoc initLoc loc).places =
      [.decl (.plain name (.module []) nameLoc), .node ⟨.moduleInit, .module [], initLoc⟩] :=
  rfl

/-- A declaration of the module variable about which nothing is wrong has an empty constructor. -/
theorem Source.Item.eq_of_moduleDecl {item : Source.Item} {decl : String × Location}
    {t : Option Typed.Item} (hm : item.moduleDecl? = some decl)
    (h : (item.check options Γ).Yields (t, Δ)) :
    ∃ name nameLoc initLoc loc,
      item = .var [⟨name, some .module, nameLoc⟩] [.init [] initLoc] loc := by
  unfold Item.moduleDecl? at hm
  split at hm
  · next name nameLoc values loc =>
    simp only [Item.check, Context.moduleVar, Report.yields_bind] at h
    obtain ⟨_, ⟨_, hi, -⟩, -⟩ := h
    obtain ⟨initLoc, rfl⟩ := Context.moduleInit_yields hi
    exact ⟨name, nameLoc, initLoc, loc, rfl⟩
  · cases hm

/-- The declaration of the module variable is typed as one. -/
theorem Source.Item.check_moduleDecl {name : String} {nameLoc initLoc : Location}
    {t : Option Typed.Item}
    (h : (Source.Item.check options Γ
      (.var [⟨name, some .module, nameLoc⟩] [.init [] initLoc] loc)).Yields (t, Δ)) :
    t = some (.moduleDecl name nameLoc initLoc loc) := by
  simp only [Item.check, Context.moduleVar, Context.moduleInit, Source.Expr.check,
    Report.yields_bind, Report.yields_require, Report.yields_pure, Prod.mk.injEq] at h
  obtain ⟨⟨_, _⟩, ⟨_, ⟨_, -, rfl⟩, _, -, rfl, rfl⟩, rfl, rfl⟩ := h
  rfl

/-! ### Functions and assignments -/

namespace Context

theorem functionBody_places (hΓ : Γ.Admits modules P) {params : List Typed.Decl}
    {returns : List Ty} {body : Source.Block} {typed : Typed.Block}
    (hp : ∀ decl ∈ params, decl.ty.proper modules = true)
    (hr : ∀ ty ∈ returns, ty.proper modules = true)
    (h : (Γ.functionBody params returns body loc).Yields typed) :
    ∀ place ∈ Typed.Stmt.listPlaces typed, P place := by
  simp only [functionBody, Report.yields_bind, Report.yields_pure] at h
  obtain ⟨Γ', hd, ⟨typed', _⟩, hb, _, -, rfl⟩ := h
  obtain ⟨hΓ', hin⟩ := hΓ.functionBody hp hr hd
  exact Source.Stmt.checkBlock_places hΓ' hin hb

theorem function_places (hΓ : Γ.Admits modules P) (hΔ : Δ.Admits modules P)
    {decl : Source.Function} {item : Typed.Item}
    (h : (Context.function options Γ decl).Yields (item, Δ)) :
    ∀ place ∈ item.places, P place := by
  obtain ⟨params, returns, body, hparams, -, hp, -, hb, rfl⟩ := function_yields hΓ.proper h
  have hparams' := params_proper hΓ.proper hparams
  have hreturns := (Ty.proper_function_iff.mp hp).2
  simp only [Typed.Item.places, List.forall_mem_append, List.forall_mem_cons]
  -- the body sees the function itself, so it is checked behind the declaration
  exact ⟨⟨hΓ.ofProper _ hp rfl, hΓ.decls hparams'⟩, functionBody_places hΔ hparams' hreturns hb⟩

/-- New fields have types that are not module types, so the rule holds of them as targets. -/
theorem declareFields_places (hΘ : Θ.Admits modules P) : ∀ {targets : List ItemTarget}
    {types : List Ty} {Γ Δ : Context} {typed : List Typed.Target},
      targets.length = types.length →
        (∀ ty ∈ types, ty.proper modules = true ∨ ty = .module []) →
          (∀ target, .existing (some target) ∈ targets → ∀ place ∈ target.places, P place) →
            (declareFields options loc targets types Γ).Yields (typed, Δ) →
              ∀ target ∈ typed, ∀ place ∈ target.places, P place
  | [], _, Γ, Δ, typed, _, _, _, h => by
    simp only [declareFields, Report.yields_pure, Prod.mk.injEq] at h
    simp [h.1]
  | _ :: _, [], Γ, Δ, typed, hlen, _, _, _ => by simp at hlen
  | .existing target :: rest, ty :: types, Γ, Δ, typed, hlen, hty, ht, h => by
    simp only [declareFields, Report.yields_bind, Report.yields_pure, Prod.mk.injEq,
      List.tail_cons] at h
    obtain ⟨⟨typed', Δ'⟩, hr, rfl, rfl⟩ := h
    have hrest := declareFields_places hΘ (by simpa using hlen) (List.forall_mem_cons.mp hty).2
      (fun target hmem => ht target (List.mem_cons_of_mem _ hmem)) hr
    rw [List.forall_mem_append]
    refine ⟨fun found hfound => ?_, hrest⟩
    rw [Option.mem_toList] at hfound
    cases hfound
    exact ht found List.mem_cons_self
  | .newField module field :: rest, ty :: types, Γ, Δ, typed, hlen, hty, ht, h => by
    simp only [declareFields, Report.yields_bind, Report.yields_pure, Prod.mk.injEq,
      List.tail_cons, List.headD_cons] at h
    obtain ⟨Γ', hd, ⟨typed', Δ'⟩, hr, rfl, rfl⟩ := h
    rw [List.forall_mem_cons] at hty ⊢
    constructor
    · have hp : ty.proper modules = true := by
        rcases hty.1 with hp | rfl
        · exact hp
        · cases (declareField_yields hd).1
      have hplace := hΘ.ofProper (.target (.moduleField module field ty)) hp rfl
      exact List.forall_mem_singleton.mpr hplace
    · exact declareFields_places hΘ (by simpa using hlen) hty.2
        (fun target hmem => ht target (List.mem_cons_of_mem _ hmem)) hr

theorem itemTargets_places (hΓ : Γ.Admits modules P) {exprs : List Source.Expr}
    {targets : List ItemTarget} (h : (exprs.mapM Γ.itemTarget).Yields targets) :
    ∀ target, .existing (some target) ∈ targets → ∀ place ∈ target.places, P place := by
  intro target hmem
  obtain ⟨expr, ht⟩ := Report.exists_yields_of_mem_mapM h _ hmem
  rcases itemTarget_yields ht with ⟨_, _, _, _, hnew⟩ | ⟨found, hf, hfound⟩
  · cases hnew
  · cases hfound
    exact target_places hΓ hf

theorem itemAssign_places (hΓ : Γ.Admits modules P) {targets values : List Source.Expr}
    {item : Typed.Item} (h : (itemAssign options Γ targets values loc).Yields (item, Δ)) :
    ∀ place ∈ item.places, P place := by
  obtain ⟨found, list, typed, hf, hv, hlen, hp, hd, rfl⟩ := itemAssign_yields hΓ.proper h
  rw [Typed.Item.places, List.forall_mem_append, List.forall_mem_flatMap]
  exact ⟨declareFields_places hΓ hlen hp (itemTargets_places hΓ hf) hd,
    Source.Expr.checkValues_places hΓ (itemTargets_expected_proper hΓ.proper hf) hv⟩

end Context

/-- **The rule holds at all places of an item** that does not declare the module variable. -/
theorem Source.Item.check_places (hΓ : Γ.Admits modules P) (hΔ : Δ.Admits modules P)
    {item : Source.Item} {t : Option Typed.Item} (hm : item.moduleDecl? = none)
    (h : (item.check options Γ).Yields (t, Δ)) :
    ∀ typed ∈ t, ∀ place ∈ typed.places, P place := by
  unfold Item.check at h
  split at h <;> simp only [Report.yields_bind, Report.yields_pure, Prod.mk.injEq] at h
  · cases hm
  · obtain ⟨⟨⟨typed, values⟩, Δ'⟩, hd, rfl, rfl⟩ := h
    rintro _ ⟨⟩
    exact Context.declareVars_places hΓ hd
  · obtain ⟨⟨typed, Δ'⟩, hf, rfl, rfl⟩ := h
    rintro _ ⟨⟩
    exact Context.function_places hΓ hΔ hf
  · obtain ⟨⟨typed, Δ'⟩, ha, rfl, rfl⟩ := h
    rintro _ ⟨⟩
    exact Context.itemAssign_places hΓ ha
  · obtain ⟨fields, hf, Δ', -, rfl, rfl⟩ := h
    rintro _ ⟨⟩
    refine List.forall_mem_singleton.mpr (hΓ.ofProper _ ?_ rfl)
    exact Ty.properFields_iff.mpr (Context.recordFields_proper hΓ.proper (by simp) hf)
  · obtain ⟨ty, -, Δ', -, rfl, rfl⟩ := h
    rintro _ ⟨⟩
  · obtain ⟨typed, hr, rfl, rfl⟩ := h
    obtain ⟨expr, value, _, -, hc, -, -, rfl⟩ := Context.moduleReturn_yields hΓ.proper hr
    rintro _ ⟨⟩
    exact Expr.check_places hΓ Demand.proper_value hc

end LuaTyping
