import LuaTyping.Proofs.Proper.Item
import LuaTyping.Proofs.Soundness.Judgement

/-!
# The environment of a context

What a typed tree can refer to in a context of the checker.  The layers of the context disappear:
only the innermost declaration of a name can be seen.  Declarations of the checker are declarations
in the environment.
-/

namespace LuaTyping

namespace Context

open Typed (Env)

/-- What is in sight in a context. -/
def env (Γ : Context) : Env where
  builtins := Γ.scopes.builtins
  vars name := (Γ.scopes.var? name).map fun binding => (binding.kind, binding.ty)
  module := Γ.module.name?
  fields field := (Γ.module.fields.lookup field).map (·.ty)
  returns := Γ.returns
  inLoop := Γ.inLoop

variable {Γ Δ : Context} {name : String}

/-! ### Names -/

theorem env_vars_of_var {binding : Binding} (h : Γ.scopes.lookup name = some (.var binding)) :
    Γ.env.vars name = some (binding.kind, binding.ty) := by
  simp [env, Scopes.lookup_eq_var_iff.mp h]

theorem env_vars_of_builtin {ty : Ty} (h : Γ.scopes.lookup name = some (.builtin ty)) :
    Γ.env.vars name = none ∧ Γ.env.builtins.get? name = some (.function ty) := by
  obtain ⟨hv, hb⟩ := Scopes.lookup_eq_builtin_iff.mp h
  exact ⟨by simp [env, hv], hb⟩

theorem env_vars_of_library {members : NameMap Ty}
    (h : Γ.scopes.lookup name = some (.library members)) (field : String) :
    Γ.env.vars name = none ∧ Γ.env.builtins.member? name field = members.lookup field := by
  obtain ⟨hv, hb⟩ := Scopes.lookup_eq_library_iff.mp h
  refine ⟨by simp [env, hv], ?_⟩
  simp [env, Builtins.member?, hb]

theorem Proper.hasModule {modules : Bool} (hΓ : Γ.Proper modules)
    (h : Γ.isModuleVar name = true) : Γ.env.HasModule name := by
  obtain ⟨loc, hl, hname⟩ := hΓ.moduleVar h
  exact ⟨hname, env_vars_of_var hl⟩

/-! ### Layers -/

theorem env_start (builtins : Builtins) : (start builtins).env = .start builtins :=
  rfl

/-! ### Declarations -/

theorem env_declare {binding : Binding} (h : (Γ.declare name binding).Yields Δ) :
    Δ.env = Γ.env.declare binding.kind name binding.ty := by
  rcases declare_yields h with ⟨layer, outer, hin, rfl⟩ | ⟨hin, -, rfl⟩ <;>
    refine Env.ext rfl (funext fun other => ?_) rfl rfl rfl rfl
  · simp only [env, Env.declare, Scopes.var?, hin, List.findSome?_cons, NameMap.lookup_insert]
    split_ifs <;> rfl
  · simp only [env, Env.declare, Scopes.var?, hin, List.findSome?_nil, NameMap.lookup_insert]
    split_ifs <;> rfl

theorem env_declareAll {kind : VarKind} : ∀ {decls : List Typed.Decl} {Γ Δ : Context},
    (Context.declareAll kind decls Γ).Yields Δ → Δ.env = Env.declareAll kind decls Γ.env
  | [], Γ, Δ, h => by
    simp only [Context.declareAll, Report.yields_pure] at h
    rw [h, Env.declareAll]
  | decl :: rest, Γ, Δ, h => by
    simp only [Context.declareAll, Report.yields_bind] at h
    obtain ⟨Γ', hd, h⟩ := h
    rw [Env.declareAll, env_declareAll h, env_declare hd]

/-- At the toplevel a name is declared once. -/
theorem env_vars_eq_none {binding : Binding} (h : (Γ.declare name binding).Yields Δ)
    (hk : Γ.varKind = .toplevel) : Γ.env.vars name = none := by
  rcases declare_yields h with ⟨layer, outer, hin, -⟩ | ⟨hin, hl, -⟩
  · simp [varKind, Scopes.isToplevel, hin] at hk
  · simp [env, Scopes.var?, hin, hl]

theorem fresh_of_declareAll : ∀ {decls : List Typed.Decl} {Γ Δ : Context},
    Γ.varKind = .toplevel → (Context.declareAll .toplevel decls Γ).Yields Δ →
      Env.Fresh decls Γ.env
  | [], _, _, _, _ => trivial
  | decl :: rest, Γ, Δ, hk, h => by
    simp only [Context.declareAll, Report.yields_bind] at h
    obtain ⟨Γ', hd, h⟩ := h
    have hk' : Γ'.varKind = .toplevel := by
      rcases declare_yields hd with ⟨layer, outer, hin, -⟩ | ⟨hin, -, rfl⟩
      · simp [varKind, Scopes.isToplevel, hin] at hk
      · exact hk
    refine ⟨env_vars_eq_none hd hk, ?_⟩
    have hrest := fresh_of_declareAll hk' h
    rwa [env_declare hd] at hrest

theorem env_declareField {options : Options} {field : String} {ty : Ty} {loc : Location}
    (h : (Γ.declareField options field ty loc).Yields Δ) :
    Γ.env.fields field = none ∧ Δ.env = Γ.env.declareField field ty := by
  obtain ⟨-, hl, rfl⟩ := declareField_yields h
  refine ⟨by simp [env, hl], Env.ext rfl rfl rfl (funext fun other => ?_) rfl rfl⟩
  simp only [env, Env.declareField, NameMap.lookup_insert]
  split_ifs <;> rfl

theorem env_declareType {ty : Ty} {loc : Location} (h : (Γ.declareType name ty loc).Yields Δ) :
    Δ.env = Γ.env := by
  obtain ⟨-, rfl⟩ := declareType_yields h
  rfl

theorem env_declareModule (hk : Γ.varKind = .toplevel) {nameLoc loc : Location}
    (h : (Γ.declareModule name nameLoc loc).Yields Δ) :
    Γ.env.module = none ∧ Γ.env.vars name = none ∧
      Δ.env = { Γ.env.declare .module name (.module []) with module := some name } := by
  obtain ⟨hv, hd⟩ := declareModule_yields h
  have hfresh := env_vars_eq_none hd hk
  refine ⟨by simp [env, ModuleDraft.name?, hv], hfresh, ?_⟩
  rw [env_declare hd]
  rfl

end Context

end LuaTyping
