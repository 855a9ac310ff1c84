/-!
# Operators

The unary and binary operators with their symbols, and the families of binary operators that share
their rules for operands and results.
-/

namespace LuaTyping

/-- Operators with one operand. -/
inductive UnaryOp where
  | neg
  | bitNot
  | not
  | len
deriving DecidableEq, Repr

/-- The operator as it is written. -/
def UnaryOp.symbol : UnaryOp → String
  | .neg => "-"
  | .bitNot => "~"
  | .not => "not"
  | .len => "#"

/-- Operators with two operands. -/
inductive BinaryOp where
  | add
  | sub
  | mul
  | div
  | intDiv
  | mod
  | pow
  | concat
  | eq
  | ne
  | lt
  | le
  | gt
  | ge
  | and
  | or
  | bitAnd
  | bitOr
  | bitXor
  | shl
  | shr
deriving DecidableEq, Repr

namespace BinaryOp

/-- The operator as it is written. -/
def symbol : BinaryOp → String
  | .add => "+"
  | .sub => "-"
  | .mul => "*"
  | .div => "/"
  | .intDiv => "//"
  | .mod => "%"
  | .pow => "^"
  | .concat => ".."
  | .eq => "=="
  | .ne => "~="
  | .lt => "<"
  | .le => "<="
  | .gt => ">"
  | .ge => ">="
  | .and => "and"
  | .or => "or"
  | .bitAnd => "&"
  | .bitOr => "|"
  | .bitXor => "~"
  | .shl => "<<"
  | .shr => ">>"

/-- Operators that treat the types of their operands alike.  `arithmetic` keeps integers where both
operands are integers, `floatArithmetic` never does. -/
inductive Family where
  | arithmetic
  | floatArithmetic
  | bitwise
  | logical
  | concat
  | equality
  | ordering
deriving DecidableEq, Repr

/-- The family of an operator. -/
def family : BinaryOp → Family
  | .add | .sub | .mul | .intDiv | .mod => .arithmetic
  | .div | .pow => .floatArithmetic
  | .bitAnd | .bitOr | .bitXor | .shl | .shr => .bitwise
  | .and | .or => .logical
  | .concat => .concat
  | .eq | .ne => .equality
  | .lt | .le | .gt | .ge => .ordering

end BinaryOp

end LuaTyping
