import LuaTyping.Proofs.Proper.Item

/-!
# The module variable of a program

At the toplevel one variable can be the module variable, and only it has fields declared.  This is
an invariant of the contexts between items, whatever the types of the builtins (`Context.Owned`).
Items keep it, and only the declaration of the module variable changes which variable it is
(`Item.check_owned`).
-/

namespace LuaTyping

variable {Γ Δ : Context} {options : Options} {loc : Location}

/-- There are fields only where there is a module variable. -/
def ModuleDraft.Named (draft : ModuleDraft) : Prop :=
  ∀ field declared, draft.fields.lookup field = some declared →
    ∃ module, draft.name? = some module

namespace Context

/-- No layer is open, a variable of the module kind is the module variable, and there are fields
only where there is a module variable. -/
structure Owned (Γ : Context) : Prop where
  toplevel : Γ.scopes.inner = []
  owner : ∀ name binding, Γ.scopes.toplevel.lookup name = some binding →
    binding.kind = .module → Γ.module.name? = some name
  fields : Γ.module.Named

theorem start_owned (builtins : Builtins) : (start builtins).Owned where
  toplevel := rfl
  owner := by simp [start, Scopes.start]
  fields := by simp [start, ModuleDraft.Named]

namespace Owned

variable (hΓ : Γ.Owned)
include hΓ

theorem name_of_isModuleVar {name : String} (h : Γ.isModuleVar name = true) :
    Γ.module.name? = some name := by
  obtain ⟨binding, hv, hk⟩ := isModuleVar_iff_var.mp h
  rw [Scopes.var?, hΓ.toplevel] at hv
  exact hΓ.owner name binding hv hk

theorem varKind_eq : Γ.varKind = .toplevel := by
  simp [varKind, Scopes.isToplevel, hΓ.toplevel]

/-! ### Declarations -/

theorem declare {name : String} {binding : Binding} (hk : binding.kind ≠ .module)
    (h : (Γ.declare name binding).Yields Δ) : Δ.Owned ∧ Δ.module = Γ.module := by
  obtain ⟨_, _, hin, -⟩ | ⟨-, -, rfl⟩ := declare_yields h
  · rw [hΓ.toplevel] at hin
    cases hin
  · refine ⟨⟨hΓ.toplevel, fun other found hl hfound => ?_, hΓ.fields⟩, rfl⟩
    rw [NameMap.lookup_insert] at hl
    split at hl
    · cases hl
      exact absurd hfound hk
    · exact hΓ.owner other found hl hfound

theorem declareField {module field : String} {ty : Ty} (hname : Γ.module.name? = some module)
    (h : (Γ.declareField options field ty loc).Yields Δ) :
    Δ.Owned ∧ Δ.module.var = Γ.module.var := by
  obtain ⟨-, -, rfl⟩ := declareField_yields h
  exact ⟨⟨hΓ.toplevel, hΓ.owner, fun _ _ _ => ⟨module, hname⟩⟩, rfl⟩

/-- The module variable is declared where there is none yet. -/
theorem declareModule {name : String} {nameLoc : Location}
    (h : (Γ.declareModule name nameLoc loc).Yields Δ) :
    Δ.Owned ∧ Γ.module.var = none ∧ Δ.module.var = some (name, nameLoc) := by
  obtain ⟨hvar, h⟩ := declareModule_yields h
  obtain ⟨_, _, hin, -⟩ | ⟨-, -, rfl⟩ := declare_yields h
  · replace hin : Γ.scopes.inner = _ := hin
    rw [hΓ.toplevel] at hin
    cases hin
  · refine ⟨⟨hΓ.toplevel, fun other found hl hfound => ?_, fun _ _ _ => ⟨name, rfl⟩⟩, hvar, rfl⟩
    rw [NameMap.lookup_insert] at hl
    split at hl
    · next heq => rw [heq]; rfl
    · -- an older variable of the module kind would have been the module variable
      have hname := hΓ.owner other found hl hfound
      simp [ModuleDraft.name?, hvar] at hname

theorem declareType {name : String} {ty : Ty} (h : (Γ.declareType name ty loc).Yields Δ) :
    Δ.Owned ∧ Δ.module = Γ.module := by
  obtain ⟨-, rfl⟩ := declareType_yields h
  exact ⟨⟨hΓ.toplevel, hΓ.owner, hΓ.fields⟩, rfl⟩

/-- A function that is a member is a member of the module variable. -/
theorem declareFunction {name : Source.FunctionName} {ty : Ty}
    (h : (declareFunction options Γ name ty loc).Yields Δ) :
    Δ.Owned ∧ Δ.module.var = Γ.module.var ∧
      ∀ module field, name = .member module field → Γ.module.name? = some module := by
  obtain ⟨plain, rfl, h⟩ | ⟨module, field, rfl, hm, h⟩ := declareFunction_yields h
  · obtain ⟨hΔ, hmod⟩ := hΓ.declare (by simp) h
    exact ⟨hΔ, by rw [hmod], fun _ _ hname => by cases hname⟩
  · have hname := hΓ.name_of_isModuleVar hm
    obtain ⟨hΔ, hvar⟩ := hΓ.declareField hname h
    refine ⟨hΔ, hvar, fun module' field' heq => ?_⟩
    cases heq
    exact hname

end Owned

theorem Owned.declareAll {kind : VarKind} (hk : kind ≠ .module) : ∀ {decls : List Typed.Decl}
    {Γ Δ : Context}, Γ.Owned → (declareAll kind decls Γ).Yields Δ →
      Δ.Owned ∧ Δ.module = Γ.module
  | [], Γ, Δ, hΓ, h => by
    rw [Context.declareAll, Report.yields_pure] at h
    rw [h]
    exact ⟨hΓ, rfl⟩
  | decl :: rest, Γ, Δ, hΓ, h => by
    simp only [Context.declareAll, Report.yields_bind] at h
    obtain ⟨Γ', hd, hr⟩ := h
    obtain ⟨hΓ', hmod⟩ := hΓ.declare hk hd
    obtain ⟨hΔ, hmod'⟩ := declareAll hk hΓ' hr
    exact ⟨hΔ, hmod'.trans hmod⟩

theorem Owned.declareVars (hΓ : Γ.Owned) {decls : List Source.Decl} {exprs : List Source.Expr}
    {typed : List Typed.Decl × List Typed.Expr}
    (h : (Γ.declareVars decls exprs loc).Yields (typed, Δ)) : Δ.Owned ∧ Δ.module = Γ.module := by
  simp only [Context.declareVars, Report.yields_bind, Report.yields_pure, Prod.mk.injEq] at h
  obtain ⟨_, -, _, -, _, -, Δ', hd, -, rfl⟩ := h
  exact hΓ.declareAll (by simp [hΓ.varKind_eq]) hd

/-- The initial value of the module variable is an empty constructor. -/
theorem moduleInit_yields {name : String} {values : List Source.Expr} {value : Typed.Expr}
    (h : (Γ.moduleInit name values loc).Yields value) : ∃ initLoc, values = [.init [] initLoc] := by
  unfold moduleInit at h
  split at h
  · next entries initLoc =>
    have hk : ∀ want : Want, Demand.ofType ⟨.module [], .declaration name⟩ = .ofType want →
        want.ty.isUnknown = false := by
      rintro want ⟨⟩
      rfl
    obtain ⟨_, ⟨⟩, ⟨_, _, hw, -⟩ | ⟨_, _, hw, -⟩ | ⟨_, -, rfl, -⟩⟩ :=
      Source.Expr.check_init_yields hk h
    · cases hw
    · cases hw
    · exact ⟨initLoc, rfl⟩
  · simp at h

/-- The targets of an assignment that make new fields are fields of the module variable. -/
theorem Owned.newFields (hΓ : Γ.Owned) {exprs : List Source.Expr} {targets : List ItemTarget}
    (h : (exprs.mapM Γ.itemTarget).Yields targets) :
    ∀ module field, .newField module field ∈ targets → Γ.module.name? = some module := by
  intro module field hmem
  obtain ⟨expr, ht⟩ := Report.exists_yields_of_mem_mapM h _ hmem
  obtain ⟨module', field', hm, -, heq⟩ | ⟨_, -, heq⟩ := itemTarget_yields ht
  · cases heq
    unfold moduleField? at hm
    split at hm
    · split at hm
      · next hvar =>
        cases hm
        exact hΓ.name_of_isModuleVar hvar
      · cases hm
    · cases hm
  · cases heq

theorem Owned.declareFields : ∀ {targets : List ItemTarget} {types : List Ty} {Γ Δ : Context}
    {typed : List Typed.Target}, Γ.Owned →
      (∀ module field, .newField module field ∈ targets → Γ.module.name? = some module) →
        (declareFields options loc targets types Γ).Yields (typed, Δ) →
          Δ.Owned ∧ Δ.module.var = Γ.module.var
  | [], types, Γ, Δ, typed, hΓ, _, h => by
    simp only [Context.declareFields, Report.yields_pure, Prod.mk.injEq] at h
    rw [h.2]
    exact ⟨hΓ, rfl⟩
  | .existing target :: rest, types, Γ, Δ, typed, hΓ, ht, h => by
    simp only [Context.declareFields, Report.yields_bind, Report.yields_pure, Prod.mk.injEq] at h
    obtain ⟨⟨_, Δ'⟩, hr, -, rfl⟩ := h
    exact declareFields hΓ (fun module field hm => ht module field (List.mem_cons_of_mem _ hm)) hr
  | .newField module field :: rest, types, Γ, Δ, typed, hΓ, ht, h => by
    simp only [Context.declareFields, Report.yields_bind, Report.yields_pure, Prod.mk.injEq] at h
    obtain ⟨Γ', hd, ⟨_, Δ'⟩, hr, -, rfl⟩ := h
    obtain ⟨hΓ', hvar⟩ := hΓ.declareField (ht module field List.mem_cons_self) hd
    obtain ⟨hΔ, hvar'⟩ := declareFields hΓ' (fun module' field' hm => by
      rw [ModuleDraft.name?, hvar]
      exact ht module' field' (List.mem_cons_of_mem _ hm)) hr
    exact ⟨hΔ, hvar'.trans hvar⟩

end Context

/-! ### Items -/

namespace Source

/-- The module variable that an item declares, with its place, if it declares it. -/
def Item.moduleDecl? : Item → Option (String × Location)
  | .var [⟨name, some .module, loc⟩] _ _ => some (name, loc)
  | _ => none

/-- **The module variable.**  An item keeps it, or declares it where there is none, with an empty
constructor as its value. -/
theorem Item.check_owned (hΓ : Γ.Owned) {item : Item} {t : Option Typed.Item}
    (h : (item.check options Γ).Yields (t, Δ)) :
    Δ.Owned ∧ ((item.moduleDecl? = none ∧ Δ.module.var = Γ.module.var) ∨
      Γ.module.var = none ∧ ∃ name nameLoc initLoc loc,
        item = .var [⟨name, some .module, nameLoc⟩] [.init [] initLoc] loc ∧
          Δ.module.var = some (name, nameLoc)) := by
  unfold Item.check at h
  split at h <;> simp only [Report.yields_bind, Report.yields_pure, Prod.mk.injEq] at h
  · next name nameLoc values loc =>
    obtain ⟨⟨_, Δ'⟩, hm, -, rfl⟩ := h
    simp only [Context.moduleVar, Report.yields_bind, Report.yields_pure, Prod.mk.injEq] at hm
    obtain ⟨_, hi, Δ', hd, -, rfl⟩ := hm
    obtain ⟨initLoc, rfl⟩ := Context.moduleInit_yields hi
    obtain ⟨hΔ, hnone, hvar⟩ := hΓ.declareModule hd
    exact ⟨hΔ, Or.inr ⟨hnone, name, nameLoc, initLoc, loc, rfl, hvar⟩⟩
  · next decls values loc hdecl =>
    obtain ⟨⟨⟨_, _⟩, Δ'⟩, hd, -, rfl⟩ := h
    obtain ⟨hΔ, hmod⟩ := hΓ.declareVars hd
    refine ⟨hΔ, Or.inl ⟨?_, by rw [hmod]⟩⟩
    unfold Item.moduleDecl?
    split
    · next name nameLoc _ _ heq =>
      cases heq
      exact (hdecl name nameLoc rfl).elim
    · rfl
  · obtain ⟨⟨_, Δ'⟩, hf, -, rfl⟩ := h
    simp only [Context.function, Report.yields_bind, Report.yields_pure, Prod.mk.injEq] at hf
    obtain ⟨_, -, _, -, Δ', hd, _, -, -, rfl⟩ := hf
    obtain ⟨hΔ, hvar, -⟩ := hΓ.declareFunction hd
    exact ⟨hΔ, Or.inl ⟨rfl, hvar⟩⟩
  · obtain ⟨⟨_, Δ'⟩, ha, -, rfl⟩ := h
    simp only [Context.itemAssign, Report.yields_bind, Report.yields_pure, Prod.mk.injEq] at ha
    obtain ⟨found, hf, _, -, _, -, ⟨_, Δ'⟩, hd, -, rfl⟩ := ha
    obtain ⟨hΔ, hvar⟩ := Context.Owned.declareFields hΓ (hΓ.newFields hf) hd
    exact ⟨hΔ, Or.inl ⟨rfl, hvar⟩⟩
  · obtain ⟨_, -, Δ', hd, -, rfl⟩ := h
    obtain ⟨hΔ, hmod⟩ := hΓ.declareType hd
    exact ⟨hΔ, Or.inl ⟨rfl, by rw [hmod]⟩⟩
  · obtain ⟨_, -, Δ', hd, -, rfl⟩ := h
    obtain ⟨hΔ, hmod⟩ := hΓ.declareType hd
    exact ⟨hΔ, Or.inl ⟨rfl, by rw [hmod]⟩⟩
  · obtain ⟨_, -, -, rfl⟩ := h
    exact ⟨hΓ, Or.inl ⟨rfl, rfl⟩⟩

end Source

end LuaTyping
