import LuaTyping.Checking.Coercion
import LuaTyping.Checking.Context
import LuaTyping.Checking.Operator
import LuaTyping.Checking.TypeExpr

/-!
# Checking expressions

`Expr.check` types an expression in a context, under a demand of its surroundings.  A table
constructor takes its type from a demand for a type; every other expression is typed on its own and
then held against the demand.  Names, members, calls and the entries of constructors each have their
rule below.

`Expr.checkValues` types a list of expressions, of which the last may be a call that stands for all
of its results.
-/

namespace LuaTyping

/-! ### Names and members -/

/-- A member of a library as an expression. -/
def Typed.Expr.ofMember (library : String) (members : NameMap Ty) (field : String)
    (loc : Location) : Report Typed.Expr := do
  let ty ← Report.orUnknown (members.lookup field) (.unknownLibraryMember library field) loc
  pure ⟨.libraryField library field, ty, loc⟩

namespace Context

/-- A name as an expression. -/
def nameExpr (Γ : Context) (name : String) (loc : Location) : Report Typed.Expr :=
  match Γ.scopes.lookup name with
  | some (.var ⟨ty, _, .inner⟩) => pure ⟨.innerVar name, ty, loc⟩
  | some (.var ⟨ty, _, _⟩) => pure ⟨.toplevel name, ty, loc⟩
  | some (.builtin ty) => pure ⟨.builtin name, ty, loc⟩
  | some (.library _) => do
    Report.fault (.bareLibrary name) loc
    pure ⟨.builtin name, .unknown, loc⟩
  | none => do
    Report.fault (.undeclaredName name) loc
    pure ⟨.innerVar name, .unknown, loc⟩

/-- A field of a value: of a table or record by its type, of the module by what has been
declared. -/
def fieldExpr (Γ : Context) (object : Typed.Expr) (field : String) (loc : Location) :
    Report Typed.Expr :=
  match object.ty with
  | .table fields | .record _ fields => do
    let ty ← Report.orUnknown (fields.lookup field) (.unknownField field object.ty) loc
    pure ⟨.field object field, ty, loc⟩
  | .module _ => do
    let declared := (Γ.module.fields.lookup field).map (·.ty)
    let ty ← Report.orUnknown declared (.unknownModuleField field) loc
    pure ⟨.moduleField (Γ.module.name?.getD "") field, ty, loc⟩
  | .unknown => pure ⟨.field object field, .unknown, loc⟩
  | ty => do
    Report.fault (.noMembers ty) loc
    pure ⟨.field object field, .unknown, loc⟩

end Context

/-- The type of the elements of an indexed value. -/
def Ty.element (ty : Ty) (loc : Location) : Report Ty :=
  match ty with
  | .array elem => pure elem
  | .unknown => pure .unknown
  | _ => do
    Report.fault (.notAnArray ty .arrayIndexing) loc
    pure .unknown

/-- Whether an explicit cast from one type to the other is allowed. -/
def Ty.castable (source target : Ty) : Bool :=
  source.compatible target || source.isAny || target.isAny

/-! ### Table constructors -/

/-- The names that the entries of a constructor give a value to. -/
def Source.Entry.names : List Source.Entry → List String
  | [] => []
  | .positional _ :: rest => names rest
  | .named key _ _ :: rest => key :: names rest

/-- Reports each field of the type that no entry gives a value to. -/
def requireFields (target : Ty) (loc : Location) (given : List String) :
    List (String × Ty) → Report Unit
  | [] => pure ()
  | (field, _) :: rest => do
    Report.require (given.contains field) (.missingInitField field target) loc
    requireFields target loc given rest

namespace Source.Expr

mutual

/-- Types an expression and settles the demand. -/
def check (Γ : Context) : Source.Expr → Demand → Report Typed.Expr
  | .nil loc, demand => demand.settle ⟨.nil, .nil, loc⟩
  | .boolean value loc, demand => demand.settle ⟨.boolean value, .boolean, loc⟩
  | .integer value loc, demand => demand.settle ⟨.integer value, .integer, loc⟩
  | .float value loc, demand => demand.settle ⟨.float value, .float, loc⟩
  | .string value loc, demand => demand.settle ⟨.string value, .string, loc⟩
  | .init entries loc, .ofType ⟨target, _⟩ =>
    match target with
    | .array elem => do
      let items ← checkItems Γ elem entries
      pure ⟨.arrayInit items, target, loc⟩
    | .table fields | .record _ fields => do
      let items ← checkFields Γ target fields entries []
      requireFields target loc (Entry.names entries) fields
      pure ⟨.tableInit items, target, loc⟩
    | .module _ => do
      Report.require entries.isEmpty .nonEmptyModuleInit loc
      pure ⟨.moduleInit, target, loc⟩
    | .unknown => pure ⟨.arrayInit [], .unknown, loc⟩
    | _ => do
      Report.fault (.notAnInitializerType target) loc
      pure ⟨.arrayInit [], .unknown, loc⟩
  | .init entries loc, _ => do
    Report.fault .missingTypeHint loc
    checkUntyped Γ entries
    pure ⟨.arrayInit [], .unknown, loc⟩
  | .name text loc, demand => do
    let expr ← Γ.nameExpr text loc
    demand.settle expr
  | .index object key loc, demand => do
    let array ← check Γ object .value
    let elem ← array.ty.element loc
    let key ← check Γ key (.ofType ⟨.integer, .arrayIndex⟩)
    demand.settle ⟨.index array key, elem, loc⟩
  | .field object key loc, demand =>
    match Γ.library? object with
    | some (library, members) => do
      let expr ← Typed.Expr.ofMember library members key loc
      demand.settle expr
    | none => do
      let object ← check Γ object .value
      let expr ← Γ.fieldExpr object key loc
      demand.settle expr
  | .call callee args loc, demand => do
    let callee ← check Γ callee .value
    match callee.ty with
    | .function params returns => do
      let values ← checkValues Γ (fun i => .argument (i + 1)) args (params.map some) 0
      Report.require (values.fits params.length) (.callArity params.length values.types.length) loc
      demand.settle ⟨.call callee values.exprs returns, returns.headD .nil, loc⟩
    | ty => do
      Report.require ty.isUnknown (.notCallable ty) loc
      let values ← checkValues Γ (fun i => .argument (i + 1)) args [] 0
      demand.settle ⟨.call callee values.exprs [.unknown], .unknown, loc⟩
  | .unary op operand loc, demand => do
    let operand ← check Γ operand .value
    let expr ← Typed.Expr.unary op operand loc
    demand.settle expr
  | .binary left op right loc, demand => do
    let left ← check Γ left .value
    let right ← check Γ right .value
    let expr ← Typed.Expr.binary op left right loc
    demand.settle expr
  | .cast expr target loc, demand => do
    let expr ← check Γ expr .value
    let target ← target.resolve Γ.scopes loc
    Report.require (expr.ty.castable target) (.invalidCast expr.ty target) loc
    demand.settle ⟨.cast expr false, target, loc⟩
  | .paren expr loc, demand => do
    let expr ← check Γ expr .value
    demand.settle ⟨.paren expr, expr.ty, loc⟩

/-- Types the expressions of a list from `position` on.  `expected` says what is expected of the
values from there, and `site` names the places. -/
def checkValues (Γ : Context) (site : Nat → Site) :
    List Source.Expr → List (Option Ty) → Nat → Report Values
  | [], _, _ => pure .empty
  | expr :: rest, expected, position =>
    if rest.isEmpty && expr.isCall then do
      let call ← check Γ expr .results
      Values.ofCall call expected site position
    else do
      let value ← check Γ expr (.ofWant (Want.at? expected site position 0))
      let values ← checkValues Γ site rest expected.tail (position + 1)
      pure (values.cons value)

/-- Types the entries of an array constructor; a named entry has no place in one. -/
def checkItems (Γ : Context) (elem : Ty) : List Entry → Report (List Typed.Expr)
  | [] => pure []
  | .positional value :: rest => do
    let value ← check Γ value (.ofType ⟨elem, .arrayInitializer⟩)
    let values ← checkItems Γ elem rest
    pure (value :: values)
  | .named key _ loc :: rest => do
    Report.fault (.namedFieldInArray key) loc
    checkItems Γ elem rest

/-- Types the entries of a table constructor for a type with the given fields.  `seen` lists the
names of the entries before; of several entries with one name the first counts. -/
def checkFields (Γ : Context) (target : Ty) (fields : List (String × Ty)) :
    List Entry → List String → Report (List (String × Typed.Expr))
  | [], _ => pure []
  | .positional value :: rest, seen => do
    Report.fault (.positionalFieldInTable target) value.loc
    checkFields Γ target fields rest seen
  | .named key value loc :: rest, seen =>
    if seen.contains key then do
      Report.fault (.duplicateInitField key) loc
      checkFields Γ target fields rest seen
    else
      match fields.lookup key with
      | some ty => do
        let value ← check Γ value (.ofType ⟨ty, .initializerField key⟩)
        let items ← checkFields Γ target fields rest (key :: seen)
        pure ((key, value) :: items)
      | none => do
        Report.fault (.unknownInitField key target) loc
        checkFields Γ target fields rest (key :: seen)

/-- Looks for faults in the entries of a constructor whose type is not known.  A constructor among
them is passed over, because its type is not known either. -/
def checkUntyped (Γ : Context) : List Entry → Report Unit
  | [] => pure ()
  | .positional value :: rest => do
    if value.isInit then
      checkUntyped Γ rest
    else
      let _ ← check Γ value .value
      checkUntyped Γ rest
  | .named _ value _ :: rest => do
    if value.isInit then
      checkUntyped Γ rest
    else
      let _ ← check Γ value .value
      checkUntyped Γ rest

end

end Source.Expr

end LuaTyping
