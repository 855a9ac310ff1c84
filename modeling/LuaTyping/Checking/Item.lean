import LuaTyping.Checking.Stmt
import LuaTyping.Options.Basic

/-!
# Checking toplevel items

An item is typed in the context that the items before it leave, and leaves one for the items after
it: variables and functions declare toplevel names, records and aliases declare type names, and
functions and assignments on the module variable declare the fields that the module exports.
-/

namespace LuaTyping

/-- The target of a toplevel assignment: a new field of the module, or something that exists, if it
can be assigned to. -/
inductive ItemTarget where
  | existing (target : Option Typed.Target)
  | newField (module field : String)

/-- The type that is expected of a value for a target; a new field takes any. -/
def ItemTarget.expected : ItemTarget → Option Ty
  | .existing target => some (Typed.Target.wanted target)
  | .newField .. => none

namespace Context

/-! ### The module -/

/-- Declares a module field.  A field can be declared once, and its type has to be one that fields
may have; a type that fields may not have is reported and declared all the same. -/
def declareField (options : Options) (Γ : Context) (field : String) (ty : Ty) (loc : Location) :
    Report Context := do
  Report.require (ty.isModuleField options.scalarFields) (.moduleFieldType field ty) loc
  match Γ.module.declareField field ty loc with
  | .ok module => pure { Γ with module := module }
  | .error previous =>
    Report.fault (.duplicateModuleField field previous) loc
    pure Γ

/-- The initial value of the module variable, which has to be an empty constructor. -/
def moduleInit (Γ : Context) (name : String) (values : List Source.Expr) (loc : Location) :
    Report Typed.Expr :=
  match values with
  | [.init entries initLoc] =>
    Source.Expr.check Γ (.init entries initLoc) (.ofType ⟨.module [], .declaration name⟩)
  | _ => do
    Report.fault .nonEmptyModuleInit loc
    pure ⟨.moduleInit, .module [], loc⟩

/-- Makes a name the module variable.  A program has one. -/
def declareModule (Γ : Context) (name : String) (nameLoc loc : Location) : Report Context :=
  match Γ.module.var with
  | some (_, first) => do
    Report.fault (.multipleModuleVariables first) loc
    pure Γ
  | none =>
    Context.declare { Γ with module := { Γ.module with var := some (name, nameLoc) } } name
      ⟨.module [], nameLoc, .module⟩

/-- Types the declaration of the module variable. -/
def moduleVar (Γ : Context) (decl : Source.Decl) (values : List Source.Expr) (loc : Location) :
    Report (Typed.Item × Context) := do
  let value ← Γ.moduleInit decl.name values loc
  let Δ ← Γ.declareModule decl.name decl.loc loc
  pure (.var [.plain decl.name (.module []) decl.loc] [value] loc, Δ)

/-- The returned value of a program, which has to be the module variable alone. -/
def moduleReturn (Γ : Context) (values : List Source.Expr) (loc : Location) :
    Report (Option Typed.Item) := do
  let values ← values.mapM fun value => value.check Γ .value
  match values with
  | [value] =>
    let isModule := match value.kind with
      | .toplevel name => Γ.module.name? == some name
      | _ => false
    Report.require (isModule || value.ty.isUnknown) (.moduleReturnType value.ty) value.loc
    pure (some (.ret value loc))
  | _ =>
    Report.fault (.moduleReturnArity values.length) loc
    pure none

/-! ### Functions -/

/-- A parameter, which has to state its type. -/
def param (Γ : Context) (decl : Source.Decl) : Report Typed.Decl := do
  let stated ← decl.stated Γ
  Report.require stated.isSome (.missingParamType decl.name) decl.loc
  pure (.plain decl.name (stated.getD .unknown) decl.loc)

/-- Declares a function under its name, as a toplevel variable or as a field of the module. -/
def declareFunction (options : Options) (Γ : Context) (name : Source.FunctionName) (ty : Ty)
    (loc : Location) : Report Context :=
  match name with
  | .plain name => Γ.declare name ⟨ty, loc, .toplevel⟩
  | .member module field =>
    if Γ.isModuleVar module then
      Γ.declareField options field ty loc
    else do
      match Γ.scopes.lookup module with
      | some _ => Report.fault (.notModuleVariable module) loc
      | none => Report.fault (.undeclaredName module) loc
      pure Γ

/-- Types the body of a function, which sees the parameters and the function itself. -/
def functionBody (Γ : Context) (params : List Typed.Decl) (returns : List Ty)
    (body : Source.Block) (loc : Location) : Report Typed.Block := do
  let Δ ← declareAll .inner params (Γ.enterFunction returns)
  let (typed, _) ← Source.Stmt.checkBlock Δ body
  Report.require (returns.isEmpty || Source.Block.returns body) .missingReturn loc
  pure typed

/-- Types a function. -/
def function (options : Options) (Γ : Context) (decl : Source.Function) :
    Report (Typed.Item × Context) := do
  let params ← decl.params.mapM Γ.param
  let returns ← TypeExpr.resolveList Γ.scopes decl.returns decl.loc
  let ty := Ty.function (params.map (·.ty)) returns
  let Δ ← declareFunction options Γ decl.name ty decl.loc
  let body ← Δ.functionBody params returns decl.body decl.loc
  pure (.function ⟨decl.name, params, ty, body, decl.loc⟩, Δ)

/-! ### Assignments -/

/-- The field of the module variable that an expression names. -/
def moduleField? (Γ : Context) : Source.Expr → Option (String × String)
  | .field (.name name _) field _ => if Γ.isModuleVar name then some (name, field) else none
  | _ => none

/-- The target that an expression makes at the toplevel.  A module field can be assigned to once,
which declares it. -/
def itemTarget (Γ : Context) (expr : Source.Expr) : Report ItemTarget :=
  match Γ.moduleField? expr with
  | some (module, field) =>
    match Γ.module.fields.lookup field with
    | some previous => do
      Report.fault (.duplicateModuleField field previous.loc) expr.loc
      pure (.existing none)
    | none => pure (.newField module field)
  | none => do
    let target ← Γ.target expr
    pure (.existing target)

/-- Declares the new fields among the targets with the types of their values. -/
def declareFields (options : Options) (loc : Location) :
    List ItemTarget → List Ty → Context → Report (List Typed.Target × Context)
  | [], _, Γ => pure ([], Γ)
  | .existing target :: rest, types, Γ => do
    let (targets, Δ) ← declareFields options loc rest types.tail Γ
    pure (target.toList ++ targets, Δ)
  | .newField module field :: rest, types, Γ => do
    let ty := types.headD .unknown
    let Δ ← Γ.declareField options field ty loc
    let (targets, Δ) ← declareFields options loc rest types.tail Δ
    pure (.moduleField module field ty :: targets, Δ)

/-- Types a toplevel assignment. -/
def itemAssign (options : Options) (Γ : Context) (targets values : List Source.Expr)
    (loc : Location) : Report (Typed.Item × Context) := do
  let found ← targets.mapM Γ.itemTarget
  let expected := found.map ItemTarget.expected
  let list ← Source.Expr.checkValues Γ (fun _ => .assignment) values expected 0
  Report.require (list.fits targets.length) (.assignArity targets.length list.types.length) loc
  let (typed, Δ) ← declareFields options loc found list.types Γ
  pure (.assign typed list.exprs loc, Δ)

/-! ### Type names -/

/-- Declares a type name.  A name can be declared once. -/
def declareType (Γ : Context) (name : String) (ty : Ty) (loc : Location) : Report Context :=
  match Γ.scopes.declareType name ty loc with
  | .ok scopes => pure { Γ with scopes := scopes }
  | .error previous => do
    Report.fault (.duplicateType name previous) loc
    pure Γ

/-- The fields of a record behind those that are known already.  Of several fields with one name the
first counts. -/
def recordFields (Γ : Context) (record : String) :
    List Source.Decl → NameMap Ty → Report (NameMap Ty)
  | [], known => pure known
  | decl :: rest, known => do
    let stated ← decl.stated Γ
    Report.require stated.isSome (.missingVarType decl.name) decl.loc
    if known.contains decl.name then
      Report.fault (.duplicateRecordField record decl.name) decl.loc
      recordFields Γ record rest known
    else
      recordFields Γ record rest (known.insert decl.name (stated.getD .unknown))

end Context

/-- Types an item and gives the context for the items after it. -/
def Source.Item.check (options : Options) (Γ : Context) :
    Source.Item → Report (Option Typed.Item × Context)
  | .var [⟨name, some .module, nameLoc⟩] values loc => do
    let (item, Δ) ← Γ.moduleVar ⟨name, some .module, nameLoc⟩ values loc
    pure (some item, Δ)
  | .var decls values loc => do
    let ((decls, values), Δ) ← Γ.declareVars decls values loc
    pure (some (.var decls values loc), Δ)
  | .function decl => do
    let (item, Δ) ← Context.function options Γ decl
    pure (some item, Δ)
  | .assign targets values loc => do
    let (item, Δ) ← Context.itemAssign options Γ targets values loc
    pure (some item, Δ)
  | .record name fields loc => do
    let fields ← Γ.recordFields name fields []
    let ty := Ty.record name fields
    let Δ ← Γ.declareType name ty loc
    pure (some (.record name ty loc), Δ)
  | .alias name type loc => do
    let ty ← type.resolve Γ.scopes loc
    let Δ ← Γ.declareType name ty loc
    pure (none, Δ)
  | .ret values loc => do
    let item ← Γ.moduleReturn values loc
    pure (item, Γ)

end LuaTyping
