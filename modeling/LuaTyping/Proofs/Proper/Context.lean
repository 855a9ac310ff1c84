import LuaTyping.Checking.Context
import LuaTyping.Proofs.Proper.Ty
import LuaTyping.Proofs.Yields

/-!
# Proper contexts

In a proper context all types are proper, variables in the open layers are inner ones, and those of
the toplevel are toplevel ones apart from the module variable, whose type is the empty module type
and whose name the module draft knows.  Declarations of proper types keep a context proper.
-/

namespace LuaTyping

namespace Scopes

variable {scopes : Scopes} {name : String}

/-! ### What a name stands for -/

theorem lookup_eq_var_iff {binding : Binding} :
    scopes.lookup name = some (.var binding) ↔ scopes.var? name = some binding := by
  unfold lookup
  cases scopes.var? name with
  | some found => simp
  | none =>
    cases scopes.builtins.get? name with
    | none => simp
    | some builtin => cases builtin <;> simp

theorem lookup_eq_builtin_iff {ty : Ty} :
    scopes.lookup name = some (.builtin ty) ↔
      scopes.var? name = none ∧ scopes.builtins.get? name = some (.function ty) := by
  unfold lookup
  cases scopes.var? name with
  | some found => simp
  | none =>
    cases scopes.builtins.get? name with
    | none => simp
    | some builtin => cases builtin <;> simp

theorem lookup_eq_library_iff {members : NameMap Ty} :
    scopes.lookup name = some (.library members) ↔
      scopes.var? name = none ∧ scopes.builtins.get? name = some (.library members) := by
  unfold lookup
  cases scopes.var? name with
  | some found => simp
  | none =>
    cases scopes.builtins.get? name with
    | none => simp
    | some builtin => cases builtin <;> simp

/-- A variable is found in an open layer, or at the toplevel if no open layer has its name. -/
theorem var?_eq_some_iff {binding : Binding} :
    scopes.var? name = some binding ↔
      scopes.inner.findSome? (·.lookup name) = some binding ∨
        scopes.inner.findSome? (·.lookup name) = none ∧
          scopes.toplevel.lookup name = some binding := by
  unfold var?
  cases scopes.inner.findSome? (·.lookup name) <;> simp

end Scopes

namespace Context

/-- What a declaration changes: the innermost open layer, or the toplevel if the name is new there. -/
theorem declare_yields {Γ Δ : Context} {name : String} {binding : Binding}
    (h : (Γ.declare name binding).Yields Δ) :
    (∃ layer outer, Γ.scopes.inner = layer :: outer ∧
        Δ = { Γ with scopes := { Γ.scopes with inner := layer.insert name binding :: outer } }) ∨
      (Γ.scopes.inner = [] ∧ Γ.scopes.toplevel.lookup name = none ∧
        Δ = { Γ with scopes :=
          { Γ.scopes with toplevel := Γ.scopes.toplevel.insert name binding } }) := by
  unfold Context.declare Scopes.declare at h
  cases hin : Γ.scopes.inner with
  | cons layer outer =>
    simp only [hin, Report.yields_pure] at h
    exact Or.inl ⟨layer, outer, rfl, h⟩
  | nil =>
    cases hlook : Γ.scopes.toplevel.lookup name with
    | some previous => simp [hin, hlook] at h
    | none =>
      simp only [hin, hlook, Report.yields_pure] at h
      exact Or.inr ⟨rfl, rfl, by simp [h, hin]⟩

/-- All types of the context are proper, and each variable has the kind of its layer. -/
structure Proper (modules : Bool) (Γ : Context) : Prop where
  builtins : ∀ ty ∈ Γ.scopes.builtins.types, ty.proper modules = true
  inner : ∀ layer ∈ Γ.scopes.inner, ∀ entry ∈ layer,
    entry.2.kind = .inner ∧ entry.2.ty.proper modules = true
  toplevel : ∀ entry ∈ Γ.scopes.toplevel,
    (entry.2.kind = .toplevel ∧ entry.2.ty.proper modules = true) ∨
      (entry.2.kind = .module ∧ entry.2.ty = .module [] ∧ Γ.module.name? = some entry.1)
  types : ∀ entry ∈ Γ.scopes.types, entry.2.ty.proper modules = true
  fields : ∀ entry ∈ Γ.module.fields, entry.2.ty.proper modules = true
  returns : ∀ ty ∈ Γ.returns, ty.proper modules = true

theorem start_proper {modules : Bool} {builtins : Builtins}
    (h : ∀ ty ∈ builtins.types, ty.proper modules = true) : (start builtins).Proper modules where
  builtins := h
  inner := by simp [start, Scopes.start]
  toplevel := by simp [start, Scopes.start]
  types := by simp [start, Scopes.start]
  fields := by simp [start]
  returns := by simp [start]

theorem isModuleVar_iff_var {Γ : Context} {name : String} :
    Γ.isModuleVar name = true ↔ ∃ binding, Γ.scopes.var? name = some binding ∧
      binding.kind = .module := by
  unfold isModuleVar
  constructor
  · intro h
    split at h
    · next binding hl => exact ⟨binding, Scopes.lookup_eq_var_iff.mp hl, of_decide_eq_true h⟩
    · cases h
  · rintro ⟨binding, hv, hk⟩
    rw [Scopes.lookup_eq_var_iff.mpr hv]
    exact decide_eq_true hk

section Proper
variable {modules : Bool} {Γ : Context} (hΓ : Γ.Proper modules)
include hΓ

/-! ### Names in a proper context -/

/-- A variable has a proper type of its own or is the module variable. -/
theorem Proper.var {name : String} {binding : Binding}
    (h : Γ.scopes.lookup name = some (.var binding)) :
    (binding.kind ≠ .module ∧ binding.ty.proper modules = true) ∨
      (binding.kind = .module ∧ binding.ty = .module [] ∧ Γ.module.name? = some name) := by
  rw [Scopes.lookup_eq_var_iff, Scopes.var?_eq_some_iff] at h
  rcases h with h | ⟨-, h⟩
  · obtain ⟨layer, hl, hb⟩ := List.exists_of_findSome?_eq_some h
    obtain ⟨hk, hp⟩ := hΓ.inner layer hl _ (NameMap.mem_of_lookup hb)
    exact Or.inl ⟨by simp only at hk; rw [hk]; decide, hp⟩
  · rcases hΓ.toplevel _ (NameMap.mem_of_lookup h) with ⟨hk, hp⟩ | h
    · exact Or.inl ⟨by simp only at hk; rw [hk]; decide, hp⟩
    · exact Or.inr h

theorem Proper.builtin {name : String} {ty : Ty}
    (h : Γ.scopes.lookup name = some (.builtin ty)) : ty.proper modules = true := by
  obtain ⟨-, h⟩ := Scopes.lookup_eq_builtin_iff.mp h
  exact hΓ.builtins ty (Builtins.mem_types_of_get? h (by simp [Builtins.typesOf]))

theorem Proper.member {name field : String} {members : NameMap Ty} {ty : Ty}
    (h : Γ.scopes.lookup name = some (.library members)) (hf : members.lookup field = some ty) :
    ty.proper modules = true := by
  obtain ⟨-, h⟩ := Scopes.lookup_eq_library_iff.mp h
  refine hΓ.builtins ty (Builtins.mem_types_of_get? h ?_)
  exact List.mem_map.mpr ⟨_, NameMap.mem_of_lookup hf, rfl⟩

theorem Proper.typeName {name : String} {ty : Ty} (h : Γ.scopes.lookupType name = some ty) :
    ty.proper modules = true := by
  obtain ⟨declared, hd, rfl⟩ := Option.map_eq_some_iff.mp h
  exact hΓ.types _ (NameMap.mem_of_lookup hd)

theorem Proper.moduleVar {name : String} (h : Γ.isModuleVar name = true) :
    ∃ loc, Γ.scopes.lookup name = some (.var ⟨.module [], loc, .module⟩) ∧
      Γ.module.name? = some name := by
  obtain ⟨binding, hv, hk⟩ := isModuleVar_iff_var.mp h
  have hb := Scopes.lookup_eq_var_iff.mpr hv
  rcases hΓ.var hb with ⟨hne, -⟩ | ⟨-, hty, hname⟩
  · exact absurd hk hne
  · obtain ⟨ty, loc, kind⟩ := binding
    simp only at hk hty
    subst hk hty
    exact ⟨loc, hb, hname⟩

/-! ### Layers and declarations -/

theorem Proper.enter : Γ.enter.Proper modules where
  builtins := hΓ.builtins
  inner := by
    intro layer hl
    rcases List.mem_cons.mp hl with rfl | hl
    · simp
    · exact hΓ.inner layer hl
  toplevel := hΓ.toplevel
  types := hΓ.types
  fields := hΓ.fields
  returns := hΓ.returns

theorem Proper.enterLoop : Γ.enterLoop.Proper modules :=
  { hΓ.enter with }

theorem Proper.enterFunction {returns : List Ty} (h : ∀ ty ∈ returns, ty.proper modules = true) :
    (Γ.enterFunction returns).Proper modules :=
  { hΓ.enter with returns := h }

/-- A variable that is declared with a proper type and the kind of its layer. -/
theorem Proper.declare {name : String} {binding : Binding} {Δ : Context}
    (hk : binding.kind = Γ.varKind) (hp : binding.ty.proper modules = true)
    (h : (Γ.declare name binding).Yields Δ) : Δ.Proper modules ∧ Δ.varKind = Γ.varKind := by
  rcases declare_yields h with ⟨layer, outer, hin, rfl⟩ | ⟨hin, -, rfl⟩
  · refine ⟨{ hΓ with inner := ?_ }, by simp [varKind, Scopes.isToplevel, hin]⟩
    intro layer' hl entry he
    rcases List.mem_cons.mp hl with rfl | hl
    · rcases NameMap.mem_insert he with he | rfl
      · exact hΓ.inner layer (by simp [hin]) entry he
      · exact ⟨by simpa [varKind, Scopes.isToplevel, hin] using hk, hp⟩
    · exact hΓ.inner layer' (by simp [hin, hl]) entry he
  · refine ⟨{ hΓ with toplevel := ?_ }, by simp [varKind, Scopes.isToplevel]⟩
    intro entry he
    rcases NameMap.mem_insert he with he | rfl
    · exact hΓ.toplevel entry he
    · exact Or.inl ⟨by simpa [varKind, Scopes.isToplevel, hin] using hk, hp⟩

end Proper

/-- Declarations of proper types with the kind of their layer keep a context proper. -/
theorem Proper.declareAll {modules : Bool} {kind : VarKind} : ∀ {decls : List Typed.Decl}
    {Γ Δ : Context}, Γ.Proper modules → kind = Γ.varKind →
      (∀ decl ∈ decls, decl.ty.proper modules = true) →
        (declareAll kind decls Γ).Yields Δ → Δ.Proper modules ∧ Δ.varKind = Γ.varKind
  | [], Γ, Δ, hΓ, _, _, h => by
    simp only [Context.declareAll, Report.yields_pure] at h
    subst h
    exact ⟨hΓ, rfl⟩
  | decl :: rest, Γ, Δ, hΓ, hk, hp, h => by
    simp only [Context.declareAll, Report.yields_bind] at h
    obtain ⟨Γ', hd, h⟩ := h
    obtain ⟨hΓ', hk'⟩ := hΓ.declare hk (hp decl (by simp)) hd
    obtain ⟨hΔ, hk''⟩ := Proper.declareAll hΓ' (hk.trans hk'.symm)
      (fun decl hd => hp decl (List.mem_cons_of_mem _ hd)) h
    exact ⟨hΔ, hk''.trans hk'⟩

/-- The body of a loop sees the variables of the loop. -/
theorem Proper.loopBody {modules : Bool} {Γ Δ : Context} {decls : List Typed.Decl}
    (hΓ : Γ.Proper modules) (hp : ∀ decl ∈ decls, decl.ty.proper modules = true)
    (h : (Context.declareAll .inner decls Γ.enterLoop).Yields Δ) :
    Δ.Proper modules ∧ Δ.varKind = .inner :=
  hΓ.enterLoop.declareAll rfl hp h

/-- The body of a function sees its parameters and returns what the function states. -/
theorem Proper.functionBody {modules : Bool} {Γ Δ : Context} {params : List Typed.Decl}
    {returns : List Ty} (hΓ : Γ.Proper modules)
    (hp : ∀ decl ∈ params, decl.ty.proper modules = true)
    (hr : ∀ ty ∈ returns, ty.proper modules = true)
    (h : (Context.declareAll .inner params (Γ.enterFunction returns)).Yields Δ) :
    Δ.Proper modules ∧ Δ.varKind = .inner :=
  (hΓ.enterFunction hr).declareAll rfl hp h

end Context

end LuaTyping
