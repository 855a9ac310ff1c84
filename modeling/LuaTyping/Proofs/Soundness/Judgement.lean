import LuaTyping.Proofs.Typing.Operator
import LuaTyping.Scopes
import LuaTyping.Typed.Program

/-!
# Typing rules for typed programs

When a typed program is well typed, by rules that look at the typed tree alone.  They go through the
tree in the order of its text with an environment `E` of what is in sight.  A declaration hides
earlier ones of its name, and what is declared in a block is forgotten behind it.

* `E.Value t`: the expression is well typed and has a value.
* `E.Call t`: the expression is a well typed call, with any number of results.
* `E.Values ts`: a list of expressions, of which the last may be a call that stands for all its
  results; `flatTypes ts` are then the types of the values.
* `E.Stmt s E'`, `E.Item i E'`: a well typed statement or item, with the environment behind it.
* `Program.WellTyped`: a program over a table of builtins.
-/

namespace LuaTyping

/-- The types are the same up to the order of fields. -/
def Ty.Agrees (found wanted : Ty) : Prop :=
  found = wanted ∨ found.same wanted = true

/-- The types go together by a conversion at a boundary of `any` only. -/
def Ty.Converts (found wanted : Ty) : Prop :=
  found.same wanted = false ∧ (found = .any ∨ wanted = .any)

namespace Typed

/-- What is in sight at a point of a typed program. -/
@[ext]
structure Env where
  builtins : Builtins
  vars : String → Option (VarKind × Ty)
  module : Option String
  fields : String → Option Ty
  returns : List Ty
  inLoop : Bool

namespace Env

/-- Nothing but the builtins. -/
def start (builtins : Builtins) : Env :=
  ⟨builtins, fun _ => none, none, fun _ => none, [], false⟩

/-- Declares a variable. -/
def declare (E : Env) (kind : VarKind) (name : String) (ty : Ty) : Env :=
  { E with vars := fun other => if other = name then some (kind, ty) else E.vars other }

/-- Declares variables from left to right. -/
def declareAll (kind : VarKind) : List Decl → Env → Env
  | [], E => E
  | decl :: rest, E => declareAll kind rest (E.declare kind decl.name decl.ty)

/-- Declares a field of the module. -/
def declareField (E : Env) (field : String) (ty : Ty) : Env :=
  { E with fields := fun other => if other = field then some ty else E.fields other }

/-- Inside a loop. -/
def loop (E : Env) : Env :=
  { E with inLoop := true }

/-- Inside a function with these results. -/
def function (E : Env) (returns : List Ty) : Env :=
  { E with returns := returns, inLoop := false }

/-- The name stands for the module variable. -/
def HasModule (E : Env) (name : String) : Prop :=
  E.module = some name ∧ E.vars name = some (.module, .module [])

/-! ### Expressions -/

/-- The results of a call from `position` on, each as it is or converted at a boundary of `any`. -/
inductive Spread : Nat → List Ty → List Expr → Prop
  | nil {position : Nat} : Spread position [] []
  | result {position : Nat} {ty : Ty} {tys : List Ty} {loc : Location} {values : List Expr} :
      Spread (position + 1) tys values →
        Spread position (ty :: tys) (⟨.callResult position, ty, loc⟩ :: values)
  | cast {position : Nat} {ty ty' : Ty} {tys : List Ty} {loc loc' : Location}
      {values : List Expr} : ty.Converts ty' → Spread (position + 1) tys values →
        Spread position (ty :: tys)
          (⟨.cast ⟨.callResult position, ty, loc⟩ true, ty', loc'⟩ :: values)

mutual

/-- Expressions that have a value, of which `ty` is the type. -/
inductive Value (E : Env) : Expr → Prop
  | nil {loc : Location} : Value E ⟨.nil, .nil, loc⟩
  | boolean {value : Bool} {loc : Location} : Value E ⟨.boolean value, .boolean, loc⟩
  | integer {value : Int64} {loc : Location} : Value E ⟨.integer value, .integer, loc⟩
  | float {value : Float} {loc : Location} : Value E ⟨.float value, .float, loc⟩
  | string {value : String} {loc : Location} : Value E ⟨.string value, .string, loc⟩
  | arrayInit {items : List Expr} {elem : Ty} {loc : Location} :
      Elements E elem items → Value E ⟨.arrayInit items, .array elem, loc⟩
  | tableInit {items : List (String × Expr)} {ty : Ty} {fields : NameMap Ty} {loc : Location} :
      ty.fields? = some fields → Entries E fields items → (items.map Prod.fst).Nodup →
        (∀ field ∈ fields, field.1 ∈ items.map Prod.fst) → Value E ⟨.tableInit items, ty, loc⟩
  | innerVar {name : String} {ty : Ty} {loc : Location} :
      E.vars name = some (.inner, ty) → Value E ⟨.innerVar name, ty, loc⟩
  | toplevel {name : String} {kind : VarKind} {ty : Ty} {loc : Location} :
      E.vars name = some (kind, ty) → kind ≠ .inner → Value E ⟨.toplevel name, ty, loc⟩
  | builtin {name : String} {ty : Ty} {loc : Location} :
      E.vars name = none → E.builtins.get? name = some (.function ty) →
        Value E ⟨.builtin name, ty, loc⟩
  | libraryField {library field : String} {ty : Ty} {loc : Location} :
      E.vars library = none → E.builtins.member? library field = some ty →
        Value E ⟨.libraryField library field, ty, loc⟩
  | moduleField {module field : String} {ty : Ty} {loc : Location} :
      E.HasModule module → E.fields field = some ty → Value E ⟨.moduleField module field, ty, loc⟩
  | index {array key : Expr} {elem : Ty} {loc : Location} :
      Value E array → array.ty = .array elem → Value E key → key.ty = .integer →
        Value E ⟨.index array key, elem, loc⟩
  | field {object : Expr} {key : String} {fields : NameMap Ty} {ty : Ty} {loc : Location} :
      Value E object → object.ty.fields? = some fields → fields.lookup key = some ty →
        Value E ⟨.field object key, ty, loc⟩
  | call {expr : Expr} : Call E expr → expr.valueTypes ≠ [] → Value E expr
  | unary {op : UnaryOp} {operand : Expr} {ty : Ty} {loc : Location} :
      Value E operand → op.Types operand.ty ty → Value E ⟨.unary op operand, ty, loc⟩
  | binary {op : BinaryOp} {left right : Expr} {ty : Ty} {loc : Location} :
      Value E left → Value E right → op.Types left.ty right.ty ty →
        Value E ⟨.binary op left right, ty, loc⟩
  | toFloat {expr : Expr} {loc : Location} :
      Value E expr → expr.ty = .integer → Value E ⟨.toFloat expr, .float, loc⟩
  | implicitCast {expr : Expr} {ty : Ty} {loc : Location} :
      Value E expr → expr.ty.Converts ty → Value E ⟨.cast expr true, ty, loc⟩
  | explicitCast {expr : Expr} {ty : Ty} {loc : Location} :
      Value E expr → expr.ty.Agrees ty ∨ expr.ty = .any ∨ ty = .any →
        Value E ⟨.cast expr false, ty, loc⟩
  | paren {expr : Expr} {loc : Location} :
      Value E expr → Value E ⟨.paren expr, expr.ty, loc⟩

/-- Calls.  The arguments have the types of the parameters, and the type of the call is that of its
first result. -/
inductive Call (E : Env) : Expr → Prop
  | intro {callee : Expr} {args : List Expr} {params returns : List Ty} {loc : Location} :
      Value E callee → callee.ty = .function params returns → Values E args →
        List.Forall₂ Ty.Agrees (flatTypes args) params →
          Call E ⟨.call callee args returns, returns.headD .nil, loc⟩

/-- Lists of expressions.  At the end a call stands for all its results, and is spread if these are
two or more. -/
inductive Values (E : Env) : List Expr → Prop
  | nil : Values E []
  | one {last : Expr} : Value E last → last.valueTypes = [last.ty] → Values E [last]
  | void {last : Expr} : Call E last → last.valueTypes = [] → Values E [last]
  | spread {call : Expr} {values : List Expr} {loc : Location} :
      Call E call → 2 ≤ call.valueTypes.length → Spread 0 call.valueTypes values →
        Values E [⟨.expand call values, (values.map (·.ty)).headD .nil, loc⟩]
  | cons {expr next : Expr} {rest : List Expr} :
      Value E expr → Values E (next :: rest) → Values E (expr :: next :: rest)

/-- Elements of an array. -/
inductive Elements (E : Env) : Ty → List Expr → Prop
  | nil {elem : Ty} : Elements E elem []
  | cons {elem : Ty} {item : Expr} {rest : List Expr} :
      Value E item → item.ty.Agrees elem → Elements E elem rest → Elements E elem (item :: rest)

/-- Values for some of the fields. -/
inductive Entries (E : Env) : NameMap Ty → List (String × Expr) → Prop
  | nil {fields : NameMap Ty} : Entries E fields []
  | cons {fields : NameMap Ty} {key : String} {value : Expr} {ty : Ty}
      {rest : List (String × Expr)} : fields.lookup key = some ty → Value E value →
        value.ty.Agrees ty → Entries E fields rest → Entries E fields ((key, value) :: rest)

end

/-! ### Statements -/

/-- Things that exist and can be assigned to. -/
inductive Target (E : Env) : Typed.Target → Prop
  | innerVar {name : String} {ty : Ty} :
      E.vars name = some (.inner, ty) → Target E (.innerVar name ty)
  | toplevel {name : String} {ty : Ty} :
      E.vars name = some (.toplevel, ty) → Target E (.toplevel name ty)
  | moduleField {module field : String} {ty : Ty} :
      E.HasModule module → E.fields field = some ty → Target E (.moduleField module field ty)
  | index {array key : Expr} {elem : Ty} :
      E.Value array → array.ty = .array elem → E.Value key → key.ty = .integer →
        Target E (.index array key elem)
  | field {object : Expr} {key : String} {fields : NameMap Ty} {ty : Ty} :
      E.Value object → object.ty.fields? = some fields → fields.lookup key = some ty →
        Target E (.field object key ty)

/-- The values of a declaration, if there are any, have the types of the variables. -/
def Declares (E : Env) (decls : List Decl) (values : List Expr) : Prop :=
  (∀ decl ∈ decls, decl.implicitCast = false) ∧ E.Values values ∧
    (values = [] ∨ List.Forall₂ Ty.Agrees (flatTypes values) (decls.map (·.ty)))

/-- What a loop goes through, with the types of what it gives in each round. -/
inductive Iterates (E : Env) : Iteration → List Ty → Prop
  | ipairs {array : Expr} {elem ty : Ty} :
      E.vars Builtins.ipairs = none → E.builtins.get? Builtins.ipairs = some (.function ty) →
        E.Value array → array.ty = .array elem → Iterates E (.ipairs array) [.integer, elem]
  | generic {values : List Expr} {state control state' control' : Ty} {returns : List Ty} :
      E.Values values →
        flatTypes values = [.function [state, control] returns, state', control'] →
          state'.Agrees state → control'.Agrees control → Iterates E (.generic values) returns

/-- A loop variable for a value of the type, with a mark if the value is converted. -/
def Binds (found : Ty) (decl : Decl) : Prop :=
  if decl.implicitCast then found.Converts decl.ty else found.Agrees decl.ty

mutual

/-- Statements, with the environment behind them. -/
inductive Stmt : Env → Typed.Stmt → Env → Prop
  | declare {E : Env} {decls : List Decl} {values : List Expr} {loc : Location} :
      E.Declares decls values → Stmt E (.declare decls values loc) (declareAll .inner decls E)
  | assign {E : Env} {targets : List Typed.Target} {values : List Expr} {loc : Location} :
      (∀ target ∈ targets, E.Target target) → E.Values values →
        List.Forall₂ Ty.Agrees (flatTypes values) (targets.map (·.ty)) →
          Stmt E (.assign targets values loc) E
  | call {E : Env} {expr : Expr} {loc : Location} :
      E.Value expr ∨ E.Call expr → Stmt E (.call expr loc) E
  | block {E E' : Env} {body : List Typed.Stmt} {loc : Location} :
      Stmts E body E' → Stmt E (.block body loc) E
  | whileDo {E E' : Env} {condition : Expr} {body : List Typed.Stmt} {loc : Location} :
      E.Value condition → condition.ty = .boolean → Stmts E.loop body E' →
        Stmt E (.whileDo condition body loc) E
  | repeatUntil {E E' : Env} {body : List Typed.Stmt} {condition : Expr} {loc : Location} :
      Stmts E.loop body E' → E'.Value condition → condition.ty = .boolean →
        Stmt E (.repeatUntil body condition loc) E
  | branch {E E₁ E₂ : Env} {condition : Expr} {thenBlock elseBlock : List Typed.Stmt}
      {loc : Location} : E.Value condition → condition.ty = .boolean → Stmts E thenBlock E₁ →
        Stmts E elseBlock E₂ → Stmt E (.branch condition thenBlock elseBlock loc) E
  | numericFor {E E' : Env} {decl : Decl} {start limit step : Expr} {body : List Typed.Stmt}
      {loc : Location} : decl.ty.isNumeric = true → decl.implicitCast = false →
        E.Value start → start.ty = decl.ty → E.Value limit → limit.ty = decl.ty →
          E.Value step → step.ty = decl.ty → Stmts (declareAll .inner [decl] E.loop) body E' →
            Stmt E (.numericFor decl start limit step body loc) E
  | genericFor {E E' : Env} {decls : List Decl} {iteration : Iteration} {body : List Typed.Stmt}
      {loc : Location} {types : List Ty} : E.Iterates iteration types →
        List.Forall₂ Binds types decls → Stmts (declareAll .inner decls E.loop) body E' →
          Stmt E (.genericFor decls iteration body loc) E
  | ret {E : Env} {values : List Expr} {loc : Location} : E.Values values →
      List.Forall₂ Ty.Agrees (flatTypes values) E.returns → Stmt E (.ret values loc) E
  | brk {E : Env} {loc : Location} : E.inLoop = true → Stmt E (.brk loc) E

/-- Statements one after another. -/
inductive Stmts : Env → List Typed.Stmt → Env → Prop
  | nil {E : Env} : Stmts E [] E
  | cons {E E' E'' : Env} {stmt : Typed.Stmt} {rest : List Typed.Stmt} :
      Stmt E stmt E' → Stmts E' rest E'' → Stmts E (stmt :: rest) E''

end

end Env

/-! ### Items and programs -/

mutual

/-- Whether every path through the statement ends in a `return`. -/
def Stmt.returns : Stmt → Bool
  | .ret .. => true
  | .block body _ => Block.returns body
  | .branch _ thenBlock elseBlock _ => Block.returns thenBlock && Block.returns elseBlock
  | _ => false

/-- Whether the last statement of the block returns on every path. -/
def Block.returns : List Stmt → Bool
  | [] => false
  | [last] => last.returns
  | _ :: rest => Block.returns rest

end

namespace Env

/-- Targets at the toplevel, where a new field of the module is declared: `E` is the environment in
front of the assignment, `E₁` and `E₂` those in front of and behind the targets of the list. -/
inductive Targets (E : Env) : Env → List Typed.Target → Env → Prop
  | nil {E₁ : Env} : Targets E E₁ [] E₁
  | existing {E₁ E₂ : Env} {target : Typed.Target} {rest : List Typed.Target} :
      E.Target target → Targets E E₁ rest E₂ → Targets E E₁ (target :: rest) E₂
  | newField {E₁ E₂ : Env} {module field : String} {ty : Ty} {rest : List Typed.Target} :
      E.HasModule module → E₁.fields field = none → ty.isModuleField true = true →
        Targets E (E₁.declareField field ty) rest E₂ →
          Targets E E₁ (.moduleField module field ty :: rest) E₂

/-- Toplevel names are declared once. -/
def Fresh : List Decl → Env → Prop
  | [], _ => True
  | decl :: rest, E => E.vars decl.name = none ∧ Fresh rest (E.declare .toplevel decl.name decl.ty)

/-- A function is declared under a new name, at the toplevel or in the module. -/
inductive Names (E : Env) : Source.FunctionName → Ty → Env → Prop
  | plain {name : String} {ty : Ty} :
      E.vars name = none → Names E (.plain name) ty (E.declare .toplevel name ty)
  | member {module field : String} {ty : Ty} : E.HasModule module → E.fields field = none →
      Names E (.member module field) ty (E.declareField field ty)

/-- Items other than the `return`, with the environment behind them. -/
inductive Item (E : Env) : Typed.Item → Env → Prop
  | module {name : String} {loc loc' loc'' : Location} :
      E.module = none → E.vars name = none →
        Item E (.var [.plain name (.module []) loc] [⟨.moduleInit, .module [], loc'⟩] loc'')
          { E.declare .module name (.module []) with module := some name }
  | var {decls : List Decl} {values : List Expr} {loc : Location} :
      E.Declares decls values → Fresh decls E →
        Item E (.var decls values loc) (declareAll .toplevel decls E)
  | function {name : Source.FunctionName} {params : List Decl} {returns : List Ty} {body : Block}
      {loc : Location} {E' E'' : Env} : (∀ decl ∈ params, decl.implicitCast = false) →
        E.Names name (.function (params.map (·.ty)) returns) E' →
          Stmts (declareAll .inner params (E'.function returns)) body E'' →
            returns = [] ∨ Block.returns body = true →
              Item E (.function ⟨name, params, .function (params.map (·.ty)) returns, body, loc⟩) E'
  | assign {targets : List Typed.Target} {values : List Expr} {loc : Location} {E' : Env} :
      Targets E E targets E' → E.Values values →
        List.Forall₂ Ty.Agrees (flatTypes values) (targets.map (·.ty)) →
          Item E (.assign targets values loc) E'
  | record {name : String} {fields : NameMap Ty} {loc : Location} :
      fields.keys.Nodup → Item E (.record name (.record name fields) loc) E

/-- Items up to the `return` of the module variable, which is the last. -/
inductive Items : Env → List Typed.Item → Prop
  | ret {E : Env} {value : Expr} {name : String} {loc : Location} :
      E.Value value → value.kind = .toplevel name → E.HasModule name →
        Items E [.ret value loc]
  | cons {E E' : Env} {item : Typed.Item} {rest : List Typed.Item} :
      Item E item E' → Items E' rest → Items E (item :: rest)

end Env

/-- **Well typed programs** over a table of builtins. -/
def Program.WellTyped (builtins : Builtins) (program : Program) : Prop :=
  Env.Items (.start builtins) program.items

end Typed

end LuaTyping
