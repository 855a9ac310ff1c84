import LuaTyping.Source.Location
import LuaTyping.Source.Operator
import LuaTyping.Ty.Basic

/-!
# Typed expressions

What the checker makes of an expression: names are resolved to what they stand for, every node
carries its type, and the conversions that the checker decided on are nodes of their own.  `toFloat`
turns an integer operand into a float, an implicit `cast` goes to or from `any`, and `expand`
spreads the results of a call over several values.
-/

namespace LuaTyping.Typed

mutual

/-- A typed expression; `ty` is the type of its first value. -/
structure Expr where
  kind : ExprKind
  ty : Ty
  loc : Location

/-- The forms of typed expressions.  In `expand call values` the `j`-th value is the `j`-th result
of the call, `callResult j`, possibly below an implicit cast. -/
inductive ExprKind where
  | nil
  | boolean (value : Bool)
  | integer (value : Int64)
  | float (value : Float)
  | string (value : String)
  | arrayInit (items : List Expr)
  | tableInit (items : List (String × Expr))
  | moduleInit
  | innerVar (name : String)
  | toplevel (name : String)
  | moduleField (module field : String)
  | builtin (name : String)
  | libraryField (library field : String)
  | index (array index : Expr)
  | field (object : Expr) (field : String)
  | call (callee : Expr) (args : List Expr) (returns : List Ty)
  | unary (op : UnaryOp) (operand : Expr)
  | binary (op : BinaryOp) (left right : Expr)
  | cast (expr : Expr) (implicit : Bool)
  | toFloat (expr : Expr)
  | paren (expr : Expr)
  | expand (call : Expr) (values : List Expr)
  | callResult (position : Nat)

end

instance : Inhabited Expr :=
  ⟨⟨.nil, .nil, .nowhere⟩⟩

namespace Expr

/-- The types of all values of an expression: any number for a call, one for everything else that is
not a spread call. -/
def valueTypes (expr : Expr) : List Ty :=
  match expr.kind with
  | .call _ _ returns => returns
  | .expand _ values => values.map (·.ty)
  | _ => [expr.ty]

/-- Whether the expression is a call that has not been spread. -/
def isCall (expr : Expr) : Bool :=
  match expr.kind with
  | .call .. => true
  | _ => false

end Expr

/-- The types of all values of a list of expressions, of which the last may be a call. -/
def flatTypes : List Expr → List Ty
  | [] => []
  | [last] => last.valueTypes
  | expr :: rest => expr.ty :: flatTypes rest

end LuaTyping.Typed
