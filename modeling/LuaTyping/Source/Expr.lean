import LuaTyping.Source.TypeExpr
import LuaTyping.Source.Operator

/-!
# Expressions

Expressions of the source program.  A table constructor `{ … }` is an `init` whose entries are
either positional or named; its type comes from where it stands.
-/

namespace LuaTyping.Source

mutual

/-- An expression with its location. -/
inductive Expr where
  | nil (loc : Location)
  | boolean (value : Bool) (loc : Location)
  | integer (value : Int64) (loc : Location)
  | float (value : Float) (loc : Location)
  | string (value : String) (loc : Location)
  | init (entries : List Entry) (loc : Location)
  | name (name : String) (loc : Location)
  | index (object index : Expr) (loc : Location)
  | field (object : Expr) (field : String) (loc : Location)
  | call (callee : Expr) (args : List Expr) (loc : Location)
  | unary (op : UnaryOp) (operand : Expr) (loc : Location)
  | binary (left : Expr) (op : BinaryOp) (right : Expr) (loc : Location)
  | cast (expr : Expr) (target : TypeExpr) (loc : Location)
  | paren (expr : Expr) (loc : Location)

/-- An entry of a table constructor. -/
inductive Entry where
  | positional (value : Expr)
  | named (name : String) (value : Expr) (loc : Location)

end

instance : Inhabited Expr :=
  ⟨.nil .nowhere⟩

namespace Expr

/-- Where the expression stands. -/
def loc : Expr → Location
  | .nil loc
  | .boolean _ loc
  | .integer _ loc
  | .float _ loc
  | .string _ loc
  | .init _ loc
  | .name _ loc
  | .index _ _ loc
  | .field _ _ loc
  | .call _ _ loc
  | .unary _ _ loc
  | .binary _ _ _ loc
  | .cast _ _ loc
  | .paren _ loc => loc

/-- Whether the expression can have any number of values. -/
def isCall : Expr → Bool
  | .call .. => true
  | _ => false

/-- Whether the expression is a table constructor. -/
def isInit : Expr → Bool
  | .init .. => true
  | _ => false

/-- The name, if the expression is one. -/
def name? : Expr → Option String
  | .name text _ => some text
  | _ => none

end Expr

end LuaTyping.Source
