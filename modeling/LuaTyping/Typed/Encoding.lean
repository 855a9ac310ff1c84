import LuaTyping.Source.Encoding
import LuaTyping.Ty.Exchange
import LuaTyping.Typed.Program

/-!
# Typed programs as JSON

Typed nodes in the form of `Source.Encoding`.  A map from names to types is an array of pairs in its
order, like the fields of a type.
-/

namespace LuaTyping.Typed

/-! ### Expressions -/

namespace Expr

mutual

/-- A typed expression as a JSON value. -/
def toJson : Expr → Json
  | ⟨form, ty, loc⟩ => .object [("kind", kindToJson form), ("ty", ty.toJson), ("loc", loc.toJson)]

/-- What kind of expression it is, as a JSON value. -/
def kindToJson : ExprKind → Json
  | .nil => .string "Nil"
  | .boolean value => .tagged "Boolean" (.bool value)
  | .integer value => .tagged "Integer" (.ofInt64 value)
  | .float value => .tagged "Float" (.float value)
  | .string value => .tagged "String" (.string value)
  | .arrayInit items => .tagged "ArrayInit" (.array (listToJson items))
  | .tableInit items => .tagged "TableInit" (.array (fieldsToJson items))
  | .moduleInit => .string "ModuleInit"
  | .innerVar name => .tagged "Local" (.string name)
  | .toplevel name => .tagged "Toplevel" (.string name)
  | .moduleField module key =>
    .tagged "ModuleField" (.object [("module", .string module), ("field", .string key)])
  | .builtin name => .tagged "Builtin" (.string name)
  | .libraryField library key =>
    .tagged "LibraryField" (.object [("library", .string library), ("field", .string key)])
  | .index array key =>
    .tagged "Index" (.object [("array", toJson array), ("index", toJson key)])
  | .field object key =>
    .tagged "Field" (.object [("object", toJson object), ("field", .string key)])
  | .call callee args returns =>
    .tagged "Call" (.object
      [("callee", toJson callee), ("args", .array (listToJson args)),
        ("returns", .array (Ty.listToJson returns))])
  | .unary op operand =>
    .tagged "Unary" (.object [("op", .string op.name), ("operand", toJson operand)])
  | .binary op left right =>
    .tagged "Binary" (.object
      [("op", .string op.name), ("left", toJson left), ("right", toJson right)])
  | .cast expr implicit =>
    .tagged "Cast" (.object [("expr", toJson expr), ("implicit", .bool implicit)])
  | .toFloat expr => .tagged "ToFloat" (toJson expr)
  | .paren expr => .tagged "Paren" (toJson expr)
  | .expand call values =>
    .tagged "Expand" (.object [("call", toJson call), ("values", .array (listToJson values))])
  | .callResult position => .tagged "CallResult" (.integer position)

/-- Expressions, in order. -/
def listToJson : List Expr → List Json
  | [] => []
  | expr :: rest => toJson expr :: listToJson rest

/-- Named expressions as pairs, in order. -/
def fieldsToJson : List (String × Expr) → List Json
  | [] => []
  | (name, expr) :: rest => .array [.string name, toJson expr] :: fieldsToJson rest

end

end Expr

/-- Typed expressions as an array. -/
def exprsToJson (exprs : List Expr) : Json :=
  .array (Expr.listToJson exprs)

/-! ### Statements -/

/-- A declared name as a JSON object. -/
def Decl.toJson (decl : Decl) : Json :=
  .object
    [("name", .string decl.name), ("ty", decl.ty.toJson), ("loc", decl.loc.toJson),
      ("implicit_cast", .bool decl.implicitCast)]

/-- Typed declarations as an array. -/
def declsToJson (decls : List Decl) : Json :=
  .array (decls.map Decl.toJson)

/-- The target of an assignment as a JSON value. -/
def Target.toJson : Target → Json
  | .innerVar name ty => .tagged "Local" (.object [("name", .string name), ("ty", ty.toJson)])
  | .toplevel name ty => .tagged "Toplevel" (.object [("name", .string name), ("ty", ty.toJson)])
  | .moduleField module key ty =>
    .tagged "ModuleField" (.object
      [("module", .string module), ("field", .string key), ("ty", ty.toJson)])
  | .index array key ty =>
    .tagged "Index" (.object
      [("array", array.toJson), ("index", key.toJson), ("ty", ty.toJson)])
  | .field object key ty =>
    .tagged "Field" (.object
      [("object", object.toJson), ("field", .string key), ("ty", ty.toJson)])

/-- Targets as an array. -/
def targetsToJson (targets : List Target) : Json :=
  .array (targets.map Target.toJson)

/-- The form of a `for … in` loop as a JSON value. -/
def Iteration.toJson : Iteration → Json
  | .ipairs array => .tagged "Ipairs" (.object [("array", array.toJson)])
  | .generic values => .tagged "Generic" (.object [("values", exprsToJson values)])

namespace Stmt

mutual

/-- A typed statement as a JSON value. -/
def toJson : Stmt → Json
  | .declare decls values loc =>
    .tagged "Local" (.object
      [("decls", declsToJson decls), ("values", exprsToJson values), ("loc", loc.toJson)])
  | .assign targets values loc =>
    .tagged "Assign" (.object
      [("targets", targetsToJson targets), ("values", exprsToJson values), ("loc", loc.toJson)])
  | .call expr loc => .tagged "Call" (.object [("call", expr.toJson), ("loc", loc.toJson)])
  | .block body loc =>
    .tagged "Do" (.object [("body", .array (blockToJson body)), ("loc", loc.toJson)])
  | .whileDo condition body loc =>
    .tagged "While" (.object
      [("condition", condition.toJson), ("body", .array (blockToJson body)), ("loc", loc.toJson)])
  | .repeatUntil body condition loc =>
    .tagged "Repeat" (.object
      [("body", .array (blockToJson body)), ("condition", condition.toJson), ("loc", loc.toJson)])
  | .branch condition thenBlock elseBlock loc =>
    .tagged "If" (.object
      [("condition", condition.toJson), ("then_block", .array (blockToJson thenBlock)),
        ("else_block", .array (blockToJson elseBlock)), ("loc", loc.toJson)])
  | .numericFor decl start limit step body loc =>
    .tagged "ForNum" (.object
      [("decl", decl.toJson), ("start", start.toJson), ("limit", limit.toJson),
        ("step", step.toJson), ("body", .array (blockToJson body)), ("loc", loc.toJson)])
  | .genericFor decls iteration body loc =>
    .tagged "ForIn" (.object
      [("decls", declsToJson decls), ("iterator", iteration.toJson),
        ("body", .array (blockToJson body)), ("loc", loc.toJson)])
  | .ret values loc =>
    .tagged "Return" (.object [("values", exprsToJson values), ("loc", loc.toJson)])
  | .brk loc => .tagged "Break" (.object [("loc", loc.toJson)])

/-- The statements of a block, in order. -/
def blockToJson : List Stmt → List Json
  | [] => []
  | stmt :: rest => toJson stmt :: blockToJson rest

end

end Stmt

/-! ### Items and programs -/

/-- The name of a typed function, whose module has been resolved. -/
def functionNameToJson : Source.FunctionName → Json
  | .plain name => .tagged "Local" (.string name)
  | .member module key =>
    .tagged "ModuleField" (.object [("module", .string module), ("field", .string key)])

/-- A function as a JSON object. -/
def Function.toJson (decl : Function) : Json :=
  .object
    [("name", functionNameToJson decl.name), ("params", declsToJson decl.params),
      ("ty", decl.ty.toJson), ("body", .array (Stmt.blockToJson decl.body)),
      ("loc", decl.loc.toJson)]

/-- An item as a JSON value. -/
def Item.toJson : Item → Json
  | .var decls values loc =>
    .tagged "Var" (.object
      [("decls", declsToJson decls), ("values", exprsToJson values), ("loc", loc.toJson)])
  | .function decl => .tagged "Func" decl.toJson
  | .assign targets values loc =>
    .tagged "Assign" (.object
      [("targets", targetsToJson targets), ("values", exprsToJson values), ("loc", loc.toJson)])
  | .record name ty loc =>
    .tagged "Record" (.object [("name", .string name), ("ty", ty.toJson), ("loc", loc.toJson)])
  | .ret value loc => .tagged "Return" (.object [("value", value.toJson), ("loc", loc.toJson)])

/-- A typed program as a JSON value. -/
def Program.toJson (program : Program) : Json :=
  .object [("items", .array (program.items.map Item.toJson))]

end LuaTyping.Typed

namespace LuaTyping

/-- A checked module as a JSON value. -/
def CheckedModule.toJson (checked : CheckedModule) : Json :=
  .object
    [("module_name", .string checked.name), ("exports", .array (Ty.fieldsToJson checked.exports)),
      ("toplevel", .array (Ty.fieldsToJson checked.toplevel)),
      ("program", checked.program.toJson)]

end LuaTyping
