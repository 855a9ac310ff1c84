import LuaTyping.Checking.Item

/-!
# What declarations leave as it was

A declaration of variables changes nothing but variables (`SameButVars`), whatever is wrong with it.
At the toplevel the declarations of functions and of the module variable also change the module, and
only the declaration of a type name changes the type names.  None of them changes the builtins.
-/

namespace LuaTyping

variable {options : Options} {loc : Location}

/-- The scopes differ at most by their variables. -/
structure Scopes.SameButVars (scopes scopes' : Scopes) : Prop where
  builtins : scopes'.builtins = scopes.builtins
  types : scopes'.types = scopes.types

namespace Context

variable {Γ Δ Θ : Context}

/-- The contexts differ at most by their variables. -/
structure SameButVars (Γ Δ : Context) : Prop where
  scopes : Γ.scopes.SameButVars Δ.scopes
  module : Δ.module = Γ.module

theorem SameButVars.refl : Γ.SameButVars Γ :=
  ⟨⟨rfl, rfl⟩, rfl⟩

theorem SameButVars.trans (h : Γ.SameButVars Δ) (h' : Δ.SameButVars Θ) : Γ.SameButVars Θ where
  scopes := ⟨h'.scopes.builtins.trans h.scopes.builtins, h'.scopes.types.trans h.scopes.types⟩
  module := h'.module.trans h.module

/-! ### Variables -/

theorem declare_sameButVars {name : String} {binding : Binding} :
    Γ.SameButVars (Γ.declare name binding).value := by
  unfold Context.declare Scopes.declare
  cases Γ.scopes.inner with
  | cons layer outer => exact ⟨⟨rfl, rfl⟩, rfl⟩
  | nil => cases Γ.scopes.toplevel.lookup name <;> exact ⟨⟨rfl, rfl⟩, rfl⟩

theorem declareAll_sameButVars {kind : VarKind} : ∀ {decls : List Typed.Decl} {Γ : Context},
    Γ.SameButVars (declareAll kind decls Γ).value
  | [], _ => .refl
  | _ :: _, _ => declare_sameButVars.trans declareAll_sameButVars

/-! ### The module -/

theorem scopes_declareField {field : String} {ty : Ty} :
    (Γ.declareField options field ty loc).value.scopes = Γ.scopes := by
  unfold Context.declareField ModuleDraft.declareField
  cases Γ.module.fields.lookup field <;> rfl

theorem scopes_declareFields : ∀ {targets : List ItemTarget} {types : List Ty} {Γ : Context},
    (declareFields options loc targets types Γ).value.2.scopes = Γ.scopes
  | [], _, _ => rfl
  | .existing _ :: rest, types, Γ => by
    simp only [declareFields, Report.value_bind, Report.value_pure]
    exact scopes_declareFields
  | .newField module field :: rest, types, Γ => by
    simp only [declareFields, Report.value_bind, Report.value_pure]
    rw [scopes_declareFields, scopes_declareField]

theorem scopes_declareModule {name : String} {nameLoc : Location} :
    Γ.scopes.SameButVars (Γ.declareModule name nameLoc loc).value.scopes := by
  unfold declareModule
  cases Γ.module.var with
  | some first => exact ⟨rfl, rfl⟩
  | none => exact ⟨declare_sameButVars.scopes.builtins, declare_sameButVars.scopes.types⟩

theorem scopes_declareFunction {name : Source.FunctionName} {ty : Ty} :
    Γ.scopes.SameButVars (declareFunction options Γ name ty loc).value.scopes := by
  cases name with
  | plain name => exact declare_sameButVars.scopes
  | member module field =>
    simp only [declareFunction]
    split
    · rw [scopes_declareField]
      exact ⟨rfl, rfl⟩
    · cases Γ.scopes.lookup module <;> exact ⟨rfl, rfl⟩

/-! ### Builtins -/

theorem builtins_declareType {name : String} {ty : Ty} :
    (Γ.declareType name ty loc).value.scopes.builtins = Γ.scopes.builtins := by
  unfold declareType Scopes.declareType
  cases Γ.scopes.types.lookup name <;> rfl

end Context

/-! ### Items -/

/-- Variables that are not the module variable. -/
theorem Source.Item.check_var {Γ : Context} {decls : List Source.Decl} {values : List Source.Expr}
    (hd : ∀ name nameLoc, decls ≠ [⟨name, some .module, nameLoc⟩]) :
    check options Γ (.var decls values loc) = (do
      let ((decls, values), Δ) ← Γ.declareVars decls values loc
      pure (some (.var decls values loc), Δ)) := by
  unfold check
  split
  · next heq =>
    cases heq
    exact absurd rfl (hd _ _)
  · next heq =>
    cases heq
    rfl
  all_goals next heq => cases heq

/-- Items keep the builtins. -/
theorem Source.Item.check_builtins {Γ : Context} {item : Source.Item} :
    (item.check options Γ).value.2.scopes.builtins = Γ.scopes.builtins := by
  unfold Item.check
  split <;> simp only [Report.value_bind, Report.value_pure]
  · exact Context.scopes_declareModule.builtins
  · exact Context.declareAll_sameButVars.scopes.builtins
  · exact Context.scopes_declareFunction.builtins
  · exact congrArg Scopes.builtins Context.scopes_declareFields
  · exact Context.builtins_declareType
  · exact Context.builtins_declareType

end LuaTyping
