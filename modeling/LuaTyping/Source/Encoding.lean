import LuaTyping.Diagnostic
import LuaTyping.Source.Program

/-!
# Programs as JSON

Every node is an object that lists all its fields; a choice among forms is an object whose one field
is named for the form, and the simple type expressions are bare tags.  `Source.Decoding` reads the
same form.
-/

namespace LuaTyping

/-- A span as a JSON object. -/
def Span.toJson (span : Span) : Json :=
  .object [("start", .ofUInt64 span.start), ("end", .ofUInt64 span.stop)]

/-- The name of the operator in JSON. -/
def UnaryOp.name : UnaryOp → String
  | .neg => "Neg"
  | .bitNot => "BitNot"
  | .not => "Not"
  | .len => "Len"

/-- The name of the operator in JSON. -/
def BinaryOp.name : BinaryOp → String
  | .add => "Add"
  | .sub => "Sub"
  | .mul => "Mul"
  | .div => "Div"
  | .intDiv => "IntDiv"
  | .mod => "Mod"
  | .pow => "Pow"
  | .concat => "Concat"
  | .eq => "Eq"
  | .ne => "Ne"
  | .lt => "Lt"
  | .le => "Le"
  | .gt => "Gt"
  | .ge => "Ge"
  | .and => "And"
  | .or => "Or"
  | .bitAnd => "BitAnd"
  | .bitOr => "BitOr"
  | .bitXor => "BitXor"
  | .shl => "Shl"
  | .shr => "Shr"

/-! ### Type expressions -/

namespace TypeExpr

mutual

/-- A type expression as a JSON value. -/
def toJson : TypeExpr → Json
  | .nil => .string "Nil"
  | .boolean => .string "Boolean"
  | .integer => .string "Integer"
  | .float => .string "Float"
  | .string => .string "String"
  | .any => .string "Any"
  | .module => .string "Module"
  | .name text loc => .tagged "Name" (.object [("name", .string text), ("loc", loc.toJson)])
  | .array elem loc => .tagged "Array" (.object [("elem", toJson elem), ("loc", loc.toJson)])
  | .table fields loc =>
    .tagged "Table" (.object [("fields", .array (fieldsToJson fields)), ("loc", loc.toJson)])
  | .function params returns loc =>
    .tagged "Function" (.object
      [("params", .array (listToJson params)), ("returns", .array (listToJson returns)),
        ("loc", loc.toJson)])

/-- Type expressions, in order. -/
def listToJson : List TypeExpr → List Json
  | [] => []
  | type :: rest => toJson type :: listToJson rest

/-- The fields of a table type, in order. -/
def fieldsToJson : List TypeField → List Json
  | [] => []
  | ⟨key, type, loc⟩ :: rest =>
    .object [("name", .string key), ("type", toJson type), ("loc", loc.toJson)]
      :: fieldsToJson rest

end

end TypeExpr

namespace Source

/-! ### Expressions -/

namespace Expr

mutual

/-- An expression as a JSON value. -/
def toJson : Expr → Json
  | .nil loc => .tagged "Nil" (.object [("loc", loc.toJson)])
  | .boolean value loc =>
    .tagged "Boolean" (.object [("value", .bool value), ("loc", loc.toJson)])
  | .integer value loc =>
    .tagged "Integer" (.object [("value", .ofInt64 value), ("loc", loc.toJson)])
  | .float value loc => .tagged "Float" (.object [("value", .float value), ("loc", loc.toJson)])
  | .string value loc => .tagged "String" (.object [("value", .string value), ("loc", loc.toJson)])
  | .init entries loc =>
    .tagged "InitList" (.object [("fields", .array (entriesToJson entries)), ("loc", loc.toJson)])
  | .name text loc => .tagged "Name" (.object [("name", .string text), ("loc", loc.toJson)])
  | .index object key loc =>
    .tagged "Index" (.object
      [("object", toJson object), ("index", toJson key), ("loc", loc.toJson)])
  | .field object key loc =>
    .tagged "Field" (.object
      [("object", toJson object), ("field", .string key), ("loc", loc.toJson)])
  | .call callee args loc =>
    .tagged "Call" (.object
      [("callee", toJson callee), ("args", .array (listToJson args)), ("loc", loc.toJson)])
  | .unary op operand loc =>
    .tagged "Unary" (.object
      [("op", .string op.name), ("operand", toJson operand), ("loc", loc.toJson)])
  | .binary left op right loc =>
    .tagged "Binary" (.object
      [("left", toJson left), ("op", .string op.name), ("right", toJson right),
        ("loc", loc.toJson)])
  | .cast expr target loc =>
    .tagged "Cast" (.object
      [("expr", toJson expr), ("target", target.toJson), ("loc", loc.toJson)])
  | .paren expr loc => .tagged "Paren" (.object [("expr", toJson expr), ("loc", loc.toJson)])

/-- Expressions, in order. -/
def listToJson : List Expr → List Json
  | [] => []
  | expr :: rest => toJson expr :: listToJson rest

/-- The entries of a constructor, in order. -/
def entriesToJson : List Entry → List Json
  | [] => []
  | .positional value :: rest => .tagged "Positional" (toJson value) :: entriesToJson rest
  | .named key value loc :: rest =>
    .tagged "Named" (.object [("name", .string key), ("value", toJson value), ("loc", loc.toJson)])
      :: entriesToJson rest

end

end Expr

/-! ### Statements -/

/-- A declared name as a JSON object. -/
def Decl.toJson (decl : Decl) : Json :=
  .object
    [("name", .string decl.name), ("type", .ofOption TypeExpr.toJson decl.type),
      ("loc", decl.loc.toJson)]

/-- Declarations as an array. -/
def declsToJson (decls : List Decl) : Json :=
  .array (decls.map Decl.toJson)

/-- Expressions as an array. -/
def exprsToJson (exprs : List Expr) : Json :=
  .array (Expr.listToJson exprs)

namespace Stmt

mutual

/-- A statement as a JSON value. -/
def toJson : Stmt → Json
  | .declare decls values loc =>
    .tagged "Local" (.object
      [("decls", declsToJson decls), ("values", exprsToJson values), ("loc", loc.toJson)])
  | .assign targets values loc =>
    .tagged "Assign" (.object
      [("targets", exprsToJson targets), ("values", exprsToJson values), ("loc", loc.toJson)])
  | .call expr loc => .tagged "Call" (.object [("call", expr.toJson), ("loc", loc.toJson)])
  | .block body loc =>
    .tagged "Do" (.object [("body", .array (blockToJson body)), ("loc", loc.toJson)])
  | .whileDo condition body loc =>
    .tagged "While" (.object
      [("condition", condition.toJson), ("body", .array (blockToJson body)), ("loc", loc.toJson)])
  | .repeatUntil body condition loc =>
    .tagged "Repeat" (.object
      [("body", .array (blockToJson body)), ("condition", condition.toJson), ("loc", loc.toJson)])
  | .branch condition thenBlock arms elseBlock loc =>
    .tagged "If" (.object
      [("condition", condition.toJson), ("then_block", .array (blockToJson thenBlock)),
        ("elseif_blocks", .array (armsToJson arms)), ("else_block", elseToJson elseBlock),
        ("loc", loc.toJson)])
  | .numericFor decl start limit step body loc =>
    .tagged "ForNum" (.object
      [("decl", decl.toJson), ("start", start.toJson), ("limit", limit.toJson),
        ("step", .ofOption Expr.toJson step), ("body", .array (blockToJson body)),
        ("loc", loc.toJson)])
  | .genericFor decls values body loc =>
    .tagged "ForIn" (.object
      [("decls", declsToJson decls), ("values", exprsToJson values),
        ("body", .array (blockToJson body)), ("loc", loc.toJson)])
  | .ret values loc =>
    .tagged "Return" (.object [("values", exprsToJson values), ("loc", loc.toJson)])
  | .brk loc => .tagged "Break" (.object [("loc", loc.toJson)])

/-- The statements of a block, in order. -/
def blockToJson : List Stmt → List Json
  | [] => []
  | stmt :: rest => toJson stmt :: blockToJson rest

/-- Each `elseif` as the pair of its condition and its block. -/
def armsToJson : List Arm → List Json
  | [] => []
  | ⟨condition, body⟩ :: rest =>
    .array [condition.toJson, .array (blockToJson body)] :: armsToJson rest

/-- The block of an `else`, or null. -/
def elseToJson : Option (List Stmt) → Json
  | none => .null
  | some body => .array (blockToJson body)

end

end Stmt

/-! ### Items and programs -/

/-- The name of a function as a JSON value. -/
def FunctionName.toJson : FunctionName → Json
  | .plain name => .tagged "Local" (.string name)
  | .member module field =>
    .tagged "Field" (.object [("module", .string module), ("field", .string field)])

/-- A function as a JSON object. -/
def Function.toJson (decl : Function) : Json :=
  .object
    [("name", decl.name.toJson), ("params", declsToJson decl.params),
      ("returns", .array (TypeExpr.listToJson decl.returns)),
      ("body", .array (Stmt.blockToJson decl.body)), ("loc", decl.loc.toJson)]

/-- An item as a JSON value. -/
def Item.toJson : Item → Json
  | .var decls values loc =>
    .tagged "Var" (.object
      [("decls", declsToJson decls), ("values", exprsToJson values), ("loc", loc.toJson)])
  | .function decl => .tagged "Func" decl.toJson
  | .assign targets values loc =>
    .tagged "Assign" (.object
      [("targets", exprsToJson targets), ("values", exprsToJson values), ("loc", loc.toJson)])
  | .record name fields loc =>
    .tagged "Record" (.object
      [("name", .string name), ("fields", declsToJson fields), ("loc", loc.toJson)])
  | .alias name type loc =>
    .tagged "Typealias" (.object
      [("name", .string name), ("type", type.toJson), ("loc", loc.toJson)])
  | .ret values loc =>
    .tagged "Return" (.object [("values", exprsToJson values), ("loc", loc.toJson)])

/-- A program as a JSON value. -/
def Program.toJson (program : Program) : Json :=
  .object
    [("items", .array (program.items.map Item.toJson)),
      ("type_regions", .array (program.typeRegions.map Span.toJson)),
      ("comment_regions", .array (program.commentRegions.map Span.toJson))]

end Source

end LuaTyping
