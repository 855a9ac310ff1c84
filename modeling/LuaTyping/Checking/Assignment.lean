import LuaTyping.Checking.Expr

/-!
# Assignments and declarations

An assignment resolves its targets first and then types its values against them.  A declaration of
variables resolves its types, types its values against them, and gives a variable without a type
that of its value.  Both compare the number of values with the number of names.
-/

namespace LuaTyping

/-- The target that a typed member or element makes. -/
def Typed.Expr.target? (expr : Typed.Expr) : Option Typed.Target :=
  match expr.kind with
  | .moduleField module field => some (.moduleField module field expr.ty)
  | .field object field => some (.field object field expr.ty)
  | .index array index => some (.index array index expr.ty)
  | _ => none

/-- The type that is expected of a value for a target; nothing is expected for a broken one. -/
def Typed.Target.wanted (target : Option Typed.Target) : Ty :=
  (target.map (·.ty)).getD .unknown

namespace Context

/-- The target that a name makes; neither the module variable nor a builtin can be assigned to. -/
def nameTarget (Γ : Context) (name : String) (loc : Location) : Report (Option Typed.Target) :=
  match Γ.scopes.lookup name with
  | some (.var ⟨ty, _, .inner⟩) => pure (some (.innerVar name ty))
  | some (.var ⟨ty, _, .toplevel⟩) => pure (some (.toplevel name ty))
  | some (.var ⟨_, _, .module⟩) => do
    Report.fault (.assignToModule name) loc
    pure none
  | some (.builtin _) | some (.library _) => do
    Report.fault (.assignToBuiltin name) loc
    pure none
  | none => do
    Report.fault (.undeclaredName name) loc
    pure none

/-- The target that an expression makes, if it can be assigned to. -/
def target (Γ : Context) (expr : Source.Expr) : Report (Option Typed.Target) :=
  match expr with
  | .name name loc => Γ.nameTarget name loc
  | .field object field loc =>
    match Γ.library? object with
    | some (library, _) => do
      Report.fault (.assignToLibraryField library field) loc
      pure none
    | none => do
      let typed ← expr.check Γ .results
      pure typed.target?
  | .index .. => do
    let typed ← expr.check Γ .results
    pure typed.target?
  | _ => do
    Report.fault .invalidAssignTarget expr.loc
    pure none

/-- Types an assignment. -/
def assign (Γ : Context) (targets values : List Source.Expr) (loc : Location) :
    Report (List Typed.Target × List Typed.Expr) := do
  let found ← targets.mapM Γ.target
  let expected := found.map fun target => some (Typed.Target.wanted target)
  let list ← Source.Expr.checkValues Γ (fun _ => .assignment) values expected 0
  Report.require (list.fits targets.length) (.assignArity targets.length list.types.length) loc
  pure (found.filterMap id, list.exprs)

end Context

/-! ### Declarations -/

namespace Source.Decl

/-- The type that a declaration states, if it states one. -/
def stated (Γ : Context) (decl : Decl) : Report (Option Ty) :=
  match decl.type with
  | some type => do
    let ty ← type.resolve Γ.scopes decl.loc
    pure (some ty)
  | none => pure none

/-- A declared variable with the type that it states, or else that of its value.  Only the module
variable may hold the module. -/
def typed (decl : Decl) (stated value : Option Ty) : Report Typed.Decl :=
  match stated, value with
  | some ty, _ => pure (.plain decl.name ty decl.loc)
  | none, some (.module _) => do
    Report.fault .misplacedModuleType decl.loc
    pure (.plain decl.name .unknown decl.loc)
  | none, some ty => pure (.plain decl.name ty decl.loc)
  | none, none => pure (.plain decl.name .unknown decl.loc)

/-- Declared variables with the types that they state, or else those of their values. -/
def typedAll : List (Decl × Option Ty) → List Ty → Report (List Typed.Decl)
  | [], _ => pure []
  | (decl, stated) :: rest, types => do
    let first ← decl.typed stated types.head?
    let decls ← typedAll rest types.tail
    pure (first :: decls)

/-- Reports each declaration that states no type. -/
def requireStated : List (Decl × Option Ty) → Report Unit
  | [] => pure ()
  | (decl, stated) :: rest => do
    Report.require stated.isSome (.missingVarType decl.name) decl.loc
    requireStated rest

/-- The place of a value in a declaration. -/
def site (decls : List Decl) (position : Nat) : Site :=
  .declaration ((decls[position]?.map (·.name)).getD "")

end Source.Decl

namespace Context

/-- Types the values of a declaration.  A declaration without values has to state its types. -/
def declaredValues (Γ : Context) (decls : List (Source.Decl × Option Ty))
    (values : List Source.Expr) (loc : Location) : Report Values :=
  if values.isEmpty then do
    Source.Decl.requireStated decls
    pure .empty
  else do
    let site := Source.Decl.site (decls.map Prod.fst)
    let list ← Source.Expr.checkValues Γ site values (decls.map Prod.snd) 0
    Report.require (list.fits decls.length) (.assignArity decls.length list.types.length) loc
    pure list

/-- Types a declaration of variables and declares them.  The values do not see the new names. -/
def declareVars (Γ : Context) (decls : List Source.Decl) (values : List Source.Expr)
    (loc : Location) : Report ((List Typed.Decl × List Typed.Expr) × Context) := do
  let stated ← decls.mapM (Source.Decl.stated Γ)
  let list ← Γ.declaredValues (decls.zip stated) values loc
  let typed ← Source.Decl.typedAll (decls.zip stated) list.types
  let Δ ← declareAll Γ.varKind typed Γ
  pure ((typed, list.exprs), Δ)

end Context

end LuaTyping
