import LuaTyping.Source.Encoding

/-!
# Programs from JSON

Reads the form that `Source.Encoding` writes, and accepts a little more: locations, the spans, the
type of a declaration, the values of a declaration, the results of a function type and the optional
parts of a statement may be left out, fields with other names are skipped, and fields come in any
order.

The recursive readers take the number of levels that they may descend; a value is never deeper than
`Json.depth` says.
-/

namespace LuaTyping

open Json

/-- Reads a location; the offset may be missing. -/
def Location.ofJson? (json : Json) : Option Location := do
  let fields ← json.record? ["line", "col", "offset"]
  return ⟨← required fields "line" uint64?, ← required fields "col" uint64?,
    ← defaulted fields "offset" uint64? 0⟩

/-- Reads a span. -/
def Span.ofJson? (json : Json) : Option Span := do
  let fields ← json.record? ["start", "end"]
  return ⟨← required fields "start" uint64?, ← required fields "end" uint64?⟩

/-- The location among the fields of a node, which may be missing. -/
def locField (fields : List (String × Json)) : Option Location :=
  defaulted fields "loc" Location.ofJson? .nowhere

/-- Every unary operator. -/
def UnaryOp.all : List UnaryOp :=
  [.neg, .bitNot, .not, .len]

/-- The operator with the given name. -/
def UnaryOp.ofName? (text : String) : Option UnaryOp :=
  UnaryOp.all.find? fun op => op.name == text

/-- Every binary operator. -/
def BinaryOp.all : List BinaryOp :=
  [.add, .sub, .mul, .div, .intDiv, .mod, .pow, .concat, .eq, .ne, .lt, .le, .gt, .ge, .and, .or,
    .bitAnd, .bitOr, .bitXor, .shl, .shr]

/-- The operator with the given name. -/
def BinaryOp.ofName? (text : String) : Option BinaryOp :=
  BinaryOp.all.find? fun op => op.name == text

/-- Reads a unary operator from its name. -/
def UnaryOp.ofJson? (json : Json) : Option UnaryOp :=
  json.tag?.bind UnaryOp.ofName?

/-- Reads a binary operator from its name. -/
def BinaryOp.ofJson? (json : Json) : Option BinaryOp :=
  json.tag?.bind BinaryOp.ofName?

/-! ### Type expressions -/

/-- Reads a field of a table type with `read` for its type. -/
def TypeField.ofJson? (read : Json → Option TypeExpr) (json : Json) : Option TypeField := do
  let fields ← json.record? ["name", "type", "loc"]
  return ⟨← required fields "name" string?, ← required fields "type" read, ← locField fields⟩

/-- Reads a type expression of at most `fuel` levels. -/
def TypeExpr.read : Nat → Json → Option TypeExpr
  | 0, _ => none
  | fuel + 1, json => do
    match ← json.choice? with
    | ("Nil", .null) => return .nil
    | ("Boolean", .null) => return .boolean
    | ("Integer", .null) => return .integer
    | ("Float", .null) => return .float
    | ("String", .null) => return .string
    | ("Any", .null) => return .any
    | ("Module", .null) => return .module
    | (tag, contents) =>
      let fields ← contents.fields?
      match tag with
      | "Name" => return .name (← required fields "name" string?) (← locField fields)
      | "Array" => return .array (← required fields "elem" (TypeExpr.read fuel)) (← locField fields)
      | "Table" =>
        return .table (← required fields "fields" (list? (TypeField.ofJson? (TypeExpr.read fuel))))
          (← locField fields)
      | "Function" =>
        return .function (← required fields "params" (list? (TypeExpr.read fuel)))
          (← defaulted fields "returns" (list? (TypeExpr.read fuel)) []) (← locField fields)
      | _ => none

/-- Reads a type expression. -/
def TypeExpr.ofJson? (json : Json) : Option TypeExpr :=
  TypeExpr.read (json.depth + 1) json

namespace Source

/-! ### Expressions -/

/-- Reads an entry of a table constructor with `read` for its value. -/
def Entry.ofJson? (read : Json → Option Expr) (json : Json) : Option Entry := do
  match ← json.choice? with
  | ("Positional", value) => return .positional (← read value)
  | ("Named", contents) =>
    let fields ← contents.fields?
    return .named (← required fields "name" string?) (← required fields "value" read)
      (← locField fields)
  | _ => none

/-- Reads an expression of at most `fuel` levels. -/
def Expr.read : Nat → Json → Option Expr
  | 0, _ => none
  | fuel + 1, json => do
    let (tag, contents) ← json.choice?
    let fields ← contents.fields?
    match tag with
    | "Nil" => return .nil (← locField fields)
    | "Boolean" => return .boolean (← required fields "value" bool?) (← locField fields)
    | "Integer" => return .integer (← required fields "value" int64?) (← locField fields)
    | "Float" => return .float (← required fields "value" float?) (← locField fields)
    | "String" => return .string (← required fields "value" string?) (← locField fields)
    | "InitList" =>
      return .init (← required fields "fields" (list? (Entry.ofJson? (Expr.read fuel))))
        (← locField fields)
    | "Name" => return .name (← required fields "name" string?) (← locField fields)
    | "Index" =>
      return .index (← required fields "object" (Expr.read fuel))
        (← required fields "index" (Expr.read fuel)) (← locField fields)
    | "Field" =>
      return .field (← required fields "object" (Expr.read fuel))
        (← required fields "field" string?) (← locField fields)
    | "Call" =>
      return .call (← required fields "callee" (Expr.read fuel))
        (← required fields "args" (list? (Expr.read fuel))) (← locField fields)
    | "Unary" =>
      return .unary (← required fields "op" UnaryOp.ofJson?)
        (← required fields "operand" (Expr.read fuel)) (← locField fields)
    | "Binary" =>
      return .binary (← required fields "left" (Expr.read fuel))
        (← required fields "op" BinaryOp.ofJson?) (← required fields "right" (Expr.read fuel))
        (← locField fields)
    | "Cast" =>
      return .cast (← required fields "expr" (Expr.read fuel))
        (← required fields "target" TypeExpr.ofJson?) (← locField fields)
    | "Paren" => return .paren (← required fields "expr" (Expr.read fuel)) (← locField fields)
    | _ => none

/-- Reads an expression. -/
def Expr.ofJson? (json : Json) : Option Expr :=
  Expr.read (json.depth + 1) json

/-! ### Statements -/

/-- Reads a declared name; its type may be missing. -/
def Decl.ofJson? (json : Json) : Option Decl := do
  let fields ← json.record? ["name", "type", "loc"]
  return ⟨← required fields "name" string?, ← optional fields "type" TypeExpr.ofJson?,
    ← locField fields⟩

/-- Reads an `elseif` as the pair of its condition and its block, with `read` for a statement. -/
def Arm.ofJson? (read : Json → Option Stmt) : Json → Option Arm
  | .array [condition, body] => do return ⟨← Expr.ofJson? condition, ← list? read body⟩
  | _ => none

/-- Reads a statement of at most `fuel` levels. -/
def Stmt.read : Nat → Json → Option Stmt
  | 0, _ => none
  | fuel + 1, json => do
    let (tag, contents) ← json.choice?
    let fields ← contents.fields?
    match tag with
    | "Local" =>
      return .declare (← required fields "decls" (list? Decl.ofJson?))
        (← defaulted fields "values" (list? Expr.ofJson?) []) (← locField fields)
    | "Assign" =>
      return .assign (← required fields "targets" (list? Expr.ofJson?))
        (← required fields "values" (list? Expr.ofJson?)) (← locField fields)
    | "Call" => return .call (← required fields "call" Expr.ofJson?) (← locField fields)
    | "Do" =>
      return .block (← required fields "body" (list? (Stmt.read fuel))) (← locField fields)
    | "While" =>
      return .whileDo (← required fields "condition" Expr.ofJson?)
        (← required fields "body" (list? (Stmt.read fuel))) (← locField fields)
    | "Repeat" =>
      return .repeatUntil (← required fields "body" (list? (Stmt.read fuel)))
        (← required fields "condition" Expr.ofJson?) (← locField fields)
    | "If" =>
      return .branch (← required fields "condition" Expr.ofJson?)
        (← required fields "then_block" (list? (Stmt.read fuel)))
        (← defaulted fields "elseif_blocks" (list? (Arm.ofJson? (Stmt.read fuel))) [])
        (← optional fields "else_block" (list? (Stmt.read fuel))) (← locField fields)
    | "ForNum" =>
      return .numericFor (← required fields "decl" Decl.ofJson?)
        (← required fields "start" Expr.ofJson?) (← required fields "limit" Expr.ofJson?)
        (← optional fields "step" Expr.ofJson?)
        (← required fields "body" (list? (Stmt.read fuel))) (← locField fields)
    | "ForIn" =>
      return .genericFor (← required fields "decls" (list? Decl.ofJson?))
        (← required fields "values" (list? Expr.ofJson?))
        (← required fields "body" (list? (Stmt.read fuel))) (← locField fields)
    | "Return" => return .ret (← required fields "values" (list? Expr.ofJson?)) (← locField fields)
    | "Break" => return .brk (← locField fields)
    | _ => none

/-- Reads a statement. -/
def Stmt.ofJson? (json : Json) : Option Stmt :=
  Stmt.read (json.depth + 1) json

/-! ### Items and programs -/

/-- Reads the name of a function. -/
def FunctionName.ofJson? (json : Json) : Option FunctionName := do
  match ← json.choice? with
  | ("Local", name) => return .plain (← name.string?)
  | ("Field", contents) =>
    let fields ← contents.fields?
    return .member (← required fields "module" string?) (← required fields "field" string?)
  | _ => none

/-- Reads a function; its result types may be missing. -/
def Function.ofJson? (json : Json) : Option Function := do
  let fields ← json.record? ["name", "params", "returns", "body", "loc"]
  return {
    name := ← required fields "name" FunctionName.ofJson?
    params := ← required fields "params" (list? Decl.ofJson?)
    returns := ← defaulted fields "returns" (list? TypeExpr.ofJson?) []
    body := ← required fields "body" (list? Stmt.ofJson?)
    loc := ← locField fields }

/-- Reads an item of a program. -/
def Item.ofJson? (json : Json) : Option Item := do
  match ← json.choice? with
  | ("Func", contents) => return .function (← Function.ofJson? contents)
  | (tag, contents) =>
    let fields ← contents.fields?
    match tag with
    | "Var" =>
      return .var (← required fields "decls" (list? Decl.ofJson?))
        (← defaulted fields "values" (list? Expr.ofJson?) []) (← locField fields)
    | "Assign" =>
      return .assign (← required fields "targets" (list? Expr.ofJson?))
        (← required fields "values" (list? Expr.ofJson?)) (← locField fields)
    | "Record" =>
      return .record (← required fields "name" string?)
        (← required fields "fields" (list? Decl.ofJson?)) (← locField fields)
    | "Typealias" =>
      return .alias (← required fields "name" string?)
        (← required fields "type" TypeExpr.ofJson?) (← locField fields)
    | "Return" => return .ret (← required fields "values" (list? Expr.ofJson?)) (← locField fields)
    | _ => none

/-- Reads a program. -/
def Program.ofJson? (json : Json) : Option Program := do
  let fields ← json.record? ["items", "type_regions", "comment_regions"]
  return {
    items := ← required fields "items" (list? Item.ofJson?)
    typeRegions := ← defaulted fields "type_regions" (list? Span.ofJson?) []
    commentRegions := ← defaulted fields "comment_regions" (list? Span.ofJson?) [] }

end Source

end LuaTyping
