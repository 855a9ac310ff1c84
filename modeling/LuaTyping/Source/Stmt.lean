import LuaTyping.Source.Expr

/-!
# Statements

Statements of function bodies.  `Stmt.blocks` gives the blocks nested directly in a statement, and
`Block.returns` says whether every path through a block ends in a `return`.
-/

namespace LuaTyping.Source

/-- A declared name with an optional annotation. -/
structure Decl where
  name : String
  type : Option TypeExpr
  loc : Location

mutual

/-- A statement with its location. -/
inductive Stmt where
  | declare (decls : List Decl) (values : List Expr) (loc : Location)
  | assign (targets values : List Expr) (loc : Location)
  | call (call : Expr) (loc : Location)
  | block (body : List Stmt) (loc : Location)
  | whileDo (condition : Expr) (body : List Stmt) (loc : Location)
  | repeatUntil (body : List Stmt) (condition : Expr) (loc : Location)
  | branch (condition : Expr) (thenBlock : List Stmt) (arms : List Arm)
      (elseBlock : Option (List Stmt)) (loc : Location)
  | numericFor (decl : Decl) (start limit : Expr) (step : Option Expr) (body : List Stmt)
      (loc : Location)
  | genericFor (decls : List Decl) (values : List Expr) (body : List Stmt) (loc : Location)
  | ret (values : List Expr) (loc : Location)
  | brk (loc : Location)

/-- An `elseif` with its condition and block. -/
structure Arm where
  condition : Expr
  body : List Stmt

end

/-- Statements that are executed one after another. -/
abbrev Block := List Stmt

namespace Stmt

/-- Where the statement stands. -/
def loc : Stmt → Location
  | .declare _ _ loc
  | .assign _ _ loc
  | .call _ loc
  | .block _ loc
  | .whileDo _ _ loc
  | .repeatUntil _ _ loc
  | .branch _ _ _ _ loc
  | .numericFor _ _ _ _ _ loc
  | .genericFor _ _ _ loc
  | .ret _ loc
  | .brk loc => loc

/-- The blocks nested directly in a statement, in the order of the text. -/
def blocks : Stmt → List Block
  | .block body _
  | .whileDo _ body _
  | .repeatUntil body _ _
  | .numericFor _ _ _ _ body _
  | .genericFor _ _ body _ => [body]
  | .branch _ thenBlock arms elseBlock _ => thenBlock :: arms.map Arm.body ++ elseBlock.toList
  | .declare .. | .assign .. | .call .. | .ret .. | .brk .. => []

end Stmt

mutual

/-- Whether every path through the statement ends in a `return`.  A loop may not run at all, so it
never counts. -/
def Stmt.returns : Stmt → Bool
  | .ret .. => true
  | .block body _ => Block.returns body
  | .branch _ thenBlock arms elseBlock _ =>
    Block.returns thenBlock && Arm.allReturn arms && Block.elseReturns elseBlock
  | _ => false

/-- Whether the last statement of the block returns on every path. -/
def Block.returns : List Stmt → Bool
  | [] => false
  | [last] => Stmt.returns last
  | _ :: rest => Block.returns rest

/-- Whether the block of every arm returns. -/
def Arm.allReturn : List Arm → Bool
  | [] => true
  | ⟨_, body⟩ :: rest => Block.returns body && Arm.allReturn rest

/-- Whether there is an `else` and its block returns. -/
def Block.elseReturns : Option (List Stmt) → Bool
  | none => false
  | some body => Block.returns body

end

/-- Only the last statement counts. -/
theorem Block.returns_cons_cons (first next : Stmt) (rest : List Stmt) :
    Block.returns (first :: next :: rest) = Block.returns (next :: rest) := by
  rw [Block.returns]
  simp

end LuaTyping.Source
