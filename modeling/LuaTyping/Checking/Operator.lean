import LuaTyping.Report
import LuaTyping.Ty.Equality
import LuaTyping.Typed.Expr

/-!
# Operators

Operands are never converted to or from `any`.  The one implicit conversion turns an integer into a
float beside a float, and is written out as a `toFloat` node.  Where an operand is `unknown` nothing
more is reported.
-/

namespace LuaTyping

/-- The type of a unary operation, if the operator takes such an operand. -/
def UnaryOp.result? : UnaryOp → Ty → Option Ty
  | .neg, .integer => some .integer
  | .neg, .float => some .float
  | .bitNot, .integer => some .integer
  | .not, .boolean => some .boolean
  | .len, .array _ => some .integer
  | .len, .string => some .integer
  | _, .unknown => some .unknown
  | _, _ => none

/-- Whether the operators of a family take an operand of this type. -/
def BinaryOp.Family.takes : BinaryOp.Family → Ty → Bool
  | .arithmetic, ty | .floatArithmetic, ty => ty.isNumeric
  | .bitwise, ty => ty.isInteger
  | .logical, ty => ty.isBoolean
  | .concat, ty => ty.isString || ty.isNumeric
  | .equality, _ | .ordering, _ => true

namespace Ty

/-- Whether one of the types is an integer and the other a float. -/
def mixed (left right : Ty) : Bool :=
  (left.isInteger && right.isFloat) || (left.isFloat && right.isInteger)

/-- Whether values of two types can be compared.  Numbers can be compared with each other, strings
can be ordered, and values of the same type can be tested for equality. -/
def comparable (family : BinaryOp.Family) (left right : Ty) : Bool :=
  left.isUnknown || right.isUnknown || mixed left right ||
    match family with
    | .equality => left.same right
    | _ => (left.isNumeric && right.isNumeric) || (left.isString && right.isString)

end Ty

namespace Typed.Expr

/-- An integer turned into a float; anything else stays as it is. -/
def toFloat (expr : Expr) : Expr :=
  if expr.ty.isInteger then ⟨.toFloat expr, .float, expr.loc⟩ else expr

/-- A unary operation. -/
def unary (op : UnaryOp) (operand : Expr) (loc : Location) : Report Expr :=
  match op.result? operand.ty with
  | some ty => pure ⟨.unary op operand, ty, loc⟩
  | none => do
    Report.fault (.unaryOperand op operand.ty) loc
    pure ⟨.unary op operand, .unknown, loc⟩

/-- Reports an operand that the operator does not take. -/
def requireOperand (side : Side) (op : BinaryOp) (expr : Expr) (loc : Location) : Report Unit :=
  Report.require (expr.ty.isUnknown || op.family.takes expr.ty) (.binaryOperand side op expr.ty) loc

/-- A comparison, with both operands as floats where one is. -/
def comparison (op : BinaryOp) (left right : Expr) (loc : Location) : Report Expr := do
  Report.require (Ty.comparable op.family left.ty right.ty) (.comparison op left.ty right.ty) loc
  if left.ty.mixed right.ty then
    pure ⟨.binary op left.toFloat right.toFloat, .boolean, loc⟩
  else
    pure ⟨.binary op left right, .boolean, loc⟩

/-- An operation other than a comparison on operands that the operator takes. -/
def operation (op : BinaryOp) (left right : Expr) (loc : Location) : Expr :=
  match op.family with
  | .arithmetic =>
    if left.ty.isInteger && right.ty.isInteger then ⟨.binary op left right, .integer, loc⟩
    else ⟨.binary op left.toFloat right.toFloat, .float, loc⟩
  | .floatArithmetic => ⟨.binary op left.toFloat right.toFloat, .float, loc⟩
  | .bitwise => ⟨.binary op left right, .integer, loc⟩
  | .concat => ⟨.binary op left right, .string, loc⟩
  | .logical | .equality | .ordering => ⟨.binary op left right, .boolean, loc⟩

/-- Whether the expression is an operand about which nothing is wrong. -/
def isOperand (op : BinaryOp) (expr : Expr) : Bool :=
  !expr.ty.isUnknown && op.family.takes expr.ty

/-- A binary operation. -/
def binary (op : BinaryOp) (left right : Expr) (loc : Location) : Report Expr := do
  requireOperand .left op left loc
  requireOperand .right op right loc
  if op.family = .equality ∨ op.family = .ordering then
    comparison op left right loc
  else if isOperand op left && isOperand op right then
    pure (operation op left right loc)
  else
    pure ⟨.binary op left right, .unknown, loc⟩

end Typed.Expr

end LuaTyping
