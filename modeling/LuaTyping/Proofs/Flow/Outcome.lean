import LuaTyping.Source.Stmt

/-!
# How statements can end

The flow of control through statements, whatever their expressions evaluate to.  An `if` takes any of
its blocks, and none only if it has no `else`; a loop goes through its body any number of times, a
`repeat` at least once.  Statements are executed in order until one does not complete normally.

A `break` ends the loop around it, so no loop ends with one (`Rounds.ne_broken`), and where every path
ends in a `return` no execution gets to the end of the block (`Block.not_normal_of_returns`).
-/

namespace LuaTyping.Source

/-- How an execution ends: behind the last statement, at a `break`, or at a `return`. -/
inductive Outcome where
  | normal
  | broken
  | returned
deriving DecidableEq, Repr

mutual

/-- The statement has an execution with this end. -/
inductive Stmt.Runs : Stmt → Outcome → Prop
  | declare {decls : List Decl} {values : List Expr} {loc : Location} :
      Stmt.Runs (.declare decls values loc) .normal
  | assign {targets values : List Expr} {loc : Location} :
      Stmt.Runs (.assign targets values loc) .normal
  | call {expr : Expr} {loc : Location} : Stmt.Runs (.call expr loc) .normal
  | block {body : List Stmt} {loc : Location} {outcome : Outcome} :
      Block.Runs body outcome → Stmt.Runs (.block body loc) outcome
  | whileSkip {condition : Expr} {body : List Stmt} {loc : Location} :
      Stmt.Runs (.whileDo condition body loc) .normal
  | whileDo {condition : Expr} {body : List Stmt} {loc : Location} {outcome : Outcome} :
      Block.Rounds body outcome → Stmt.Runs (.whileDo condition body loc) outcome
  | repeatUntil {body : List Stmt} {condition : Expr} {loc : Location} {outcome : Outcome} :
      Block.Rounds body outcome → Stmt.Runs (.repeatUntil body condition loc) outcome
  | thenBlock {condition : Expr} {thenBlock : List Stmt} {arms : List Arm}
      {elseBlock : Option (List Stmt)} {loc : Location} {outcome : Outcome} :
      Block.Runs thenBlock outcome →
        Stmt.Runs (.branch condition thenBlock arms elseBlock loc) outcome
  | arm {condition : Expr} {thenBlock : List Stmt} {arms : List Arm}
      {elseBlock : Option (List Stmt)} {loc : Location} {arm : Arm} {outcome : Outcome} :
      arm ∈ arms → Block.Runs arm.body outcome →
        Stmt.Runs (.branch condition thenBlock arms elseBlock loc) outcome
  | elseBlock {condition : Expr} {thenBlock elseBlock : List Stmt} {arms : List Arm}
      {loc : Location} {outcome : Outcome} : Block.Runs elseBlock outcome →
        Stmt.Runs (.branch condition thenBlock arms (some elseBlock) loc) outcome
  | noElse {condition : Expr} {thenBlock : List Stmt} {arms : List Arm} {loc : Location} :
      Stmt.Runs (.branch condition thenBlock arms none loc) .normal
  | numericSkip {decl : Decl} {start limit : Expr} {step : Option Expr} {body : List Stmt}
      {loc : Location} : Stmt.Runs (.numericFor decl start limit step body loc) .normal
  | numericFor {decl : Decl} {start limit : Expr} {step : Option Expr} {body : List Stmt}
      {loc : Location} {outcome : Outcome} : Block.Rounds body outcome →
        Stmt.Runs (.numericFor decl start limit step body loc) outcome
  | genericSkip {decls : List Decl} {values : List Expr} {body : List Stmt} {loc : Location} :
      Stmt.Runs (.genericFor decls values body loc) .normal
  | genericFor {decls : List Decl} {values : List Expr} {body : List Stmt} {loc : Location}
      {outcome : Outcome} : Block.Rounds body outcome →
        Stmt.Runs (.genericFor decls values body loc) outcome
  | ret {values : List Expr} {loc : Location} : Stmt.Runs (.ret values loc) .returned
  | brk {loc : Location} : Stmt.Runs (.brk loc) .broken

/-- The statements have an execution with this end, one after another until one stops it. -/
inductive Block.Runs : List Stmt → Outcome → Prop
  | nil : Block.Runs [] .normal
  | next {stmt : Stmt} {rest : List Stmt} {outcome : Outcome} :
      Stmt.Runs stmt .normal → Block.Runs rest outcome → Block.Runs (stmt :: rest) outcome
  | stop {stmt : Stmt} {rest : List Stmt} {outcome : Outcome} :
      Stmt.Runs stmt outcome → outcome ≠ .normal → Block.Runs (stmt :: rest) outcome

/-- A loop has an execution with this end that goes through its body at least once. -/
inductive Block.Rounds : List Stmt → Outcome → Prop
  | last {body : List Stmt} : Block.Runs body .normal → Block.Rounds body .normal
  | again {body : List Stmt} {outcome : Outcome} :
      Block.Runs body .normal → Block.Rounds body outcome → Block.Rounds body outcome
  | broken {body : List Stmt} : Block.Runs body .broken → Block.Rounds body .normal
  | returned {body : List Stmt} : Block.Runs body .returned → Block.Rounds body .returned

end

/-- **A `break` stays inside its loop**, however many rounds were made before. -/
theorem Block.Rounds.ne_broken {body : List Stmt} {outcome : Outcome} :
    Block.Rounds body outcome → outcome ≠ .broken
  | .last _ | .broken _ | .returned _ => by simp
  | .again _ rounds => rounds.ne_broken

/-! ### Paths that end in a `return` -/

mutual

/-- A statement that returns on every path never completes. -/
theorem Stmt.not_normal_of_returns : ∀ {stmt : Stmt}, stmt.returns = true → ¬stmt.Runs .normal
  | .ret _ _, _ => by
    intro hrun
    cases hrun
  | .block body _, h => by
    rw [Stmt.returns] at h
    intro hrun
    cases hrun with
    | block hbody => exact Block.not_normal_of_returns h hbody
  | .branch _ thenBlock arms elseBlock _, h => by
    rw [Stmt.returns, Bool.and_eq_true, Bool.and_eq_true] at h
    obtain ⟨⟨hthen, harms⟩, helse⟩ := h
    intro hrun
    cases hrun with
    | thenBlock hbody => exact Block.not_normal_of_returns hthen hbody
    | arm hmem hbody => exact Arm.not_normal_of_allReturn harms _ hmem hbody
    | elseBlock hbody =>
      rw [Block.elseReturns] at helse
      exact Block.not_normal_of_returns helse hbody
    | noElse => cases helse
  | .declare .., h | .assign .., h | .call .., h | .whileDo .., h | .repeatUntil .., h
  | .numericFor .., h | .genericFor .., h | .brk _, h => by cases h

/-- **A block that returns on every path is never left behind its last statement.**  Only the last
statement counts: an execution that stops before it does not complete normally either. -/
theorem Block.not_normal_of_returns : ∀ {stmts : List Stmt}, Block.returns stmts = true →
    ¬Block.Runs stmts .normal
  | [], h => by cases h
  | [last], h => by
    rw [Block.returns] at h
    intro hrun
    cases hrun with
    | next hlast _ => exact Stmt.not_normal_of_returns h hlast
    | stop _ hne => exact hne rfl
  | _ :: next :: rest, h => by
    rw [Block.returns_cons_cons] at h
    intro hrun
    cases hrun with
    | next _ hrest => exact Block.not_normal_of_returns h hrest
    | stop _ hne => exact hne rfl

theorem Arm.not_normal_of_allReturn : ∀ {arms : List Arm}, Arm.allReturn arms = true →
    ∀ arm ∈ arms, ¬Block.Runs arm.body .normal
  | [], _ => by simp
  | ⟨_, body⟩ :: rest, h => by
    rw [Arm.allReturn, Bool.and_eq_true] at h
    rw [List.forall_mem_cons]
    exact ⟨Block.not_normal_of_returns h.1, Arm.not_normal_of_allReturn h.2⟩

end

end LuaTyping.Source
