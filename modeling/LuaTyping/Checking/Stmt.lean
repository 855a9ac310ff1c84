import LuaTyping.Checking.Loop

/-!
# Checking statements

`Stmt.check` types a statement and gives the context for the statements after it, which differs only
by the variables that the statement declares.  A nested block is typed in a layer of its own, so
that its variables end with it; the condition of a `repeat` still sees those of its body.
-/

namespace LuaTyping

/-- An `if` for each `elseif`, nested in the block of the `else`. -/
def nestArms (arms : List (Typed.Expr × Typed.Block)) (elseBlock : Typed.Block) : Typed.Block :=
  arms.foldr (fun arm rest => [.branch arm.1 arm.2 rest arm.1.loc]) elseBlock

namespace Source.Stmt

mutual

/-- Types a statement. -/
def check (Γ : Context) : Source.Stmt → Report (Typed.Stmt × Context)
  | .declare decls values loc => do
    let ((decls, values), Δ) ← Γ.declareVars decls values loc
    pure (.declare decls values loc, Δ)
  | .assign targets values loc => do
    let (targets, values) ← Γ.assign targets values loc
    pure (.assign targets values loc, Γ)
  | .call expr loc => do
    let expr ← expr.check Γ (if expr.isCall then .results else .value)
    pure (.call expr loc, Γ)
  | .block body loc => do
    let (body, _) ← checkBlock Γ.enter body
    pure (.block body loc, Γ)
  | .whileDo condition body loc => do
    let condition ← condition.check Γ (.ofType ⟨.boolean, .condition "while"⟩)
    let (body, _) ← checkBlock Γ.enterLoop body
    pure (.whileDo condition body loc, Γ)
  | .repeatUntil body condition loc => do
    let (body, Δ) ← checkBlock Γ.enterLoop body
    let condition ← condition.check Δ (.ofType ⟨.boolean, .condition "repeat"⟩)
    pure (.repeatUntil body condition loc, Γ)
  | .branch condition thenBlock arms elseBlock loc => do
    let condition ← condition.check Γ (.ofType ⟨.boolean, .condition "if"⟩)
    let (thenBlock, _) ← checkBlock Γ.enter thenBlock
    let arms ← checkArms Γ arms
    let elseBlock ← checkElse Γ elseBlock
    pure (.branch condition thenBlock (nestArms arms elseBlock) loc, Γ)
  | .numericFor decl start limit step body loc => do
    let header ← Γ.numericHeader decl start limit step loc
    let Δ ← Context.declareAll .inner [header.decl] Γ.enterLoop
    let (body, _) ← checkBlock Δ body
    pure (.numericFor header.decl header.start header.limit header.step body loc, Γ)
  | .genericFor decls values body loc => do
    let iterated ← Γ.iterate values loc
    let decls ← Γ.loopVars decls iterated.produced loc
    let Δ ← Context.declareAll .inner decls Γ.enterLoop
    let (body, _) ← checkBlock Δ body
    pure (.genericFor decls iterated.iteration body loc, Γ)
  | .ret values loc => do
    let list ← Expr.checkValues Γ (fun i => .returnValue (i + 1)) values (Γ.returns.map some) 0
    Report.require (list.fits Γ.returns.length)
      (.returnArity Γ.returns.length list.types.length) loc
    pure (.ret list.exprs loc, Γ)
  | .brk loc => do
    Report.require Γ.inLoop .breakOutsideLoop loc
    pure (.brk loc, Γ)

/-- Types statements one after another. -/
def checkBlock (Γ : Context) : List Source.Stmt → Report (List Typed.Stmt × Context)
  | [] => pure ([], Γ)
  | stmt :: rest => do
    let (stmt, Δ) ← check Γ stmt
    let (rest, Δ) ← checkBlock Δ rest
    pure (stmt :: rest, Δ)

/-- Types the conditions and blocks of `elseif`s. -/
def checkArms (Γ : Context) : List Arm → Report (List (Typed.Expr × Typed.Block))
  | [] => pure []
  | ⟨condition, body⟩ :: rest => do
    let condition ← condition.check Γ (.ofType ⟨.boolean, .condition "elseif"⟩)
    let (body, _) ← checkBlock Γ.enter body
    let arms ← checkArms Γ rest
    pure ((condition, body) :: arms)

/-- Types the block of an `else`, which is empty when there is none. -/
def checkElse (Γ : Context) : Option (List Source.Stmt) → Report (List Typed.Stmt)
  | none => pure []
  | some body => do
    let (body, _) ← checkBlock Γ.enter body
    pure body

end

end Source.Stmt

end LuaTyping
