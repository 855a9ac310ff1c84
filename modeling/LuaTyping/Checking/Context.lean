import LuaTyping.Report
import LuaTyping.Scopes
import LuaTyping.Typed.Program

/-!
# The context of a check

What a check can look at: the names in sight, the module as far as it has been declared, and inside
a function the types that it returns and whether a loop is open.  Only declarations change it.
-/

namespace LuaTyping

/-- The module as far as it has been declared: its variable and its fields. -/
structure ModuleDraft where
  var : Option (String × Location)
  fields : NameMap Declared

namespace ModuleDraft

/-- The name of the module variable, once there is one. -/
def name? (draft : ModuleDraft) : Option String :=
  draft.var.map Prod.fst

/-- The declared fields with their types. -/
def exports (draft : ModuleDraft) : NameMap Ty :=
  draft.fields.mapValues (·.ty)

/-- Declares a field; one that is taken is refused with the place of its declaration. -/
def declareField (draft : ModuleDraft) (field : String) (ty : Ty) (loc : Location) :
    Except Location ModuleDraft :=
  match draft.fields.lookup field with
  | some previous => .error previous.loc
  | none => .ok { draft with fields := draft.fields.insert field ⟨ty, loc⟩ }

end ModuleDraft

/-- What a check can look at. -/
structure Context where
  scopes : Scopes
  module : ModuleDraft
  returns : List Ty
  inLoop : Bool

namespace Context

/-- The context in front of the first item of a program. -/
def start (builtins : Builtins) : Context where
  scopes := .start builtins
  module := ⟨none, []⟩
  returns := []
  inLoop := false

/-- The context inside a block. -/
def enter (Γ : Context) : Context :=
  { Γ with scopes := Γ.scopes.enter }

/-- The context inside the body of a loop. -/
def enterLoop (Γ : Context) : Context :=
  { Γ.enter with inLoop := true }

/-- The context inside a function, before its parameters are declared. -/
def enterFunction (Γ : Context) (returns : List Ty) : Context :=
  { Γ.enter with returns := returns, inLoop := false }

/-- Declares a variable.  At the toplevel a name can be declared once. -/
def declare (Γ : Context) (name : String) (binding : Binding) : Report Context :=
  match Γ.scopes.declare name binding with
  | .ok scopes => pure { Γ with scopes := scopes }
  | .error previous => do
    Report.fault (.duplicateToplevel name previous.loc) binding.loc
    pure Γ

/-- Declares variables of one kind, from left to right. -/
def declareAll (kind : VarKind) : List Typed.Decl → Context → Report Context
  | [], Γ => pure Γ
  | decl :: rest, Γ => do
    let Γ ← Γ.declare decl.name ⟨decl.ty, decl.loc, kind⟩
    declareAll kind rest Γ

/-- The kind of a variable that is declared here without more. -/
def varKind (Γ : Context) : VarKind :=
  if Γ.scopes.isToplevel then .toplevel else .inner

/-- The library that an expression names, if it names one, with its members. -/
def library? (Γ : Context) (expr : Source.Expr) : Option (String × NameMap Ty) :=
  match expr.name? with
  | none => none
  | some name =>
    match Γ.scopes.lookup name with
    | some (.library members) => some (name, members)
    | _ => none

/-- Whether a name stands for the module variable. -/
def isModuleVar (Γ : Context) (name : String) : Bool :=
  match Γ.scopes.lookup name with
  | some (.var binding) => binding.kind = .module
  | _ => false

end Context

end LuaTyping
