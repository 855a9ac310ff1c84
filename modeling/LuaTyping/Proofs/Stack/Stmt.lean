import LuaTyping.Proofs.Stack.Loop

/-!
# Statements with a stack

Statements are checked in one state: a nested block pushes a layer, checks its statements and pops
the layer, and the body of a loop is counted in between.  `onStack_does` says that no statement
gets stuck, that the stack gives what the contexts give, and that the run goes through the moments
of the statement.

The count of loops is down again when the condition of a `repeat` is checked, in the layer of its
body.  On contexts the condition is checked as inside the loop; there is no difference, because
expressions look at names and fields only (`check_inside`).
-/

namespace LuaTyping

/-! ### What expressions look at -/

namespace Source.Expr

variable (Γ : Context) (returns : List Ty) (inLoop : Bool)

mutual

/-- **Expressions do not look at the function and the loops around them.** -/
theorem check_inside : ∀ (expr : Source.Expr) (demand : Demand),
    check (Γ.inside returns inLoop) expr demand = check Γ expr demand := by
  intro expr demand
  cases expr with
  | init entries loc =>
    cases demand with
    | ofType want =>
      obtain ⟨target, site⟩ := want
      cases target <;> simp only [check, checkItems_inside, checkFields_inside]
    | _ => simp only [check, checkUntyped_inside]
  | name text loc =>
    simp only [check]
    rfl
  | index object key loc =>
    simp only [check, check_inside object, check_inside key]
  | field object key loc =>
    simp only [check, check_inside object]
    rfl
  | call callee args loc =>
    simp only [check, check_inside callee, checkValues_inside]
  | unary op operand loc =>
    simp only [check, check_inside operand]
  | binary left op right loc =>
    simp only [check, check_inside left, check_inside right]
  | cast expr target loc =>
    simp only [check, check_inside expr]
    rfl
  | paren expr loc =>
    simp only [check, check_inside expr]
  | _ => simp only [check]

theorem checkValues_inside (site : Nat → Site) : ∀ (exprs : List Source.Expr)
    (expected : List (Option Ty)) (position : Nat),
    checkValues (Γ.inside returns inLoop) site exprs expected position =
      checkValues Γ site exprs expected position := by
  intro exprs expected position
  cases exprs with
  | nil => simp only [checkValues]
  | cons expr rest => simp only [checkValues, check_inside expr, checkValues_inside site rest]

theorem checkItems_inside (elem : Ty) : ∀ entries : List Entry,
    checkItems (Γ.inside returns inLoop) elem entries = checkItems Γ elem entries := by
  intro entries
  cases entries with
  | nil => simp only [checkItems]
  | cons entry rest =>
    cases entry with
    | positional value => simp only [checkItems, check_inside value, checkItems_inside elem rest]
    | named key value loc => simp only [checkItems, checkItems_inside elem rest]

theorem checkFields_inside (target : Ty) (fields : List (String × Ty)) :
    ∀ (entries : List Entry) (seen : List String),
    checkFields (Γ.inside returns inLoop) target fields entries seen =
      checkFields Γ target fields entries seen := by
  intro entries seen
  cases entries with
  | nil => simp only [checkFields]
  | cons entry rest =>
    cases entry with
    | positional value => simp only [checkFields, checkFields_inside target fields rest]
    | named key value loc =>
      simp only [checkFields, check_inside value, checkFields_inside target fields rest]

theorem checkUntyped_inside : ∀ entries : List Entry,
    checkUntyped (Γ.inside returns inLoop) entries = checkUntyped Γ entries := by
  intro entries
  cases entries with
  | nil => simp only [checkUntyped]
  | cons entry rest =>
    cases entry with
    | positional value => simp only [checkUntyped, check_inside value, checkUntyped_inside rest]
    | named key value loc => simp only [checkUntyped, check_inside value, checkUntyped_inside rest]

end

end Source.Expr

/-! ### Contexts inside functions and loops -/

namespace Context

variable {Γ Δ : Context} {returns : List Ty} {inLoop : Bool}

theorem varKind_declare (name : String) (binding : Binding) :
    (Γ.declare name binding).value.varKind = Γ.varKind := by
  unfold Context.declare Scopes.declare varKind Scopes.isToplevel
  cases hinner : Γ.scopes.inner with
  | cons layer outer => simp
  | nil => cases Γ.scopes.toplevel.lookup name <;> simp [hinner]

/-- Nothing is left of the layer of a function or a loop once it is closed. -/
theorem Frames.exit_block (h : Γ.enter.Frames Δ) (stmts : List Source.Stmt) :
    ((Source.Stmt.checkBlock (Δ.inside returns inLoop) stmts).value.2.inside Δ.returns
      Δ.inLoop).exit = Γ := by
  have hblock : (Δ.inside returns inLoop).Frames
      (Source.Stmt.checkBlock (Δ.inside returns inLoop) stmts).value.2 :=
    Source.Stmt.checkBlock_frames h.inner_ne_nil
  obtain ⟨_, hΘ⟩ := hblock
  obtain ⟨_, rfl⟩ := h
  rw [hΘ]
  rfl

end Context

namespace Stack

/-- Declares variables of the kind that belongs to the place. -/
def declareHere : List Typed.Decl → Run Unit
  | [] => pure ()
  | decl :: rest => do
    let Γ ← view
    declare decl.name ⟨decl.ty, decl.loc, Γ.varKind⟩
    declareHere rest

/-- Types a declaration of variables, whose values do not see the names. -/
def declareVars (decls : List Source.Decl) (values : List Source.Expr) (loc : Location) :
    Run (List Typed.Decl × List Typed.Expr) := do
  let stated ← look fun Γ => decls.mapM (Source.Decl.stated Γ)
  let list ← look (·.declaredValues (decls.zip stated) values loc)
  let typed ← emit (Source.Decl.typedAll (decls.zip stated) list.types)
  declareHere typed
  pure (typed, list.exprs)

/-- The body of a loop in a layer of its own, behind the variables of the loop. -/
def loopBody (decls : List Typed.Decl) (body : Run (List Typed.Stmt)) : Run (List Typed.Stmt) :=
  layered do
    declareAll .inner decls
    looped body

end Stack

open Stack

namespace Source.Stmt

/-- Types a statement that declares nothing and has no statements inside. -/
def plain (stmt : Source.Stmt) : Run Typed.Stmt :=
  look fun Γ => Prod.fst <$> stmt.check Γ

mutual

/-- Types a statement. -/
def onStack : Source.Stmt → Run Typed.Stmt
  | .declare decls values loc => do
    let (decls, values) ← declareVars decls values loc
    pure (.declare decls values loc)
  | .assign targets values loc => plain (.assign targets values loc)
  | .call expr loc => plain (.call expr loc)
  | .block body loc => do
    let body ← layered (blockOnStack body)
    pure (.block body loc)
  | .whileDo condition body loc => do
    let condition ← look (condition.check · (.ofType ⟨.boolean, .condition "while"⟩))
    let body ← loopBody [] (blockOnStack body)
    pure (.whileDo condition body loc)
  | .repeatUntil body condition loc => do
    let (body, condition) ← layered do
      let body ← looped (blockOnStack body)
      let condition ← look (condition.check · (.ofType ⟨.boolean, .condition "repeat"⟩))
      pure (body, condition)
    pure (.repeatUntil body condition loc)
  | .branch condition thenBlock arms elseBlock loc => do
    let condition ← look (condition.check · (.ofType ⟨.boolean, .condition "if"⟩))
    let thenBlock ← layered (blockOnStack thenBlock)
    let arms ← armsOnStack arms
    let elseBlock ← elseOnStack elseBlock
    pure (.branch condition thenBlock (nestArms arms elseBlock) loc)
  | .numericFor decl start limit step body loc => do
    let header ← look (·.numericHeader decl start limit step loc)
    let body ← loopBody [header.decl] (blockOnStack body)
    pure (.numericFor header.decl header.start header.limit header.step body loc)
  | .genericFor decls values body loc => do
    let iterated ← iterate values loc
    let decls ← look (·.loopVars decls iterated.produced loc)
    let body ← loopBody decls (blockOnStack body)
    pure (.genericFor decls iterated.iteration body loc)
  | .ret values loc => plain (.ret values loc)
  | .brk loc => plain (.brk loc)

/-- Types statements one after another. -/
def blockOnStack : List Source.Stmt → Run (List Typed.Stmt)
  | [] => pure []
  | stmt :: rest => do
    let stmt ← onStack stmt
    arrive
    let rest ← blockOnStack rest
    pure (stmt :: rest)

/-- Types the conditions and blocks of `elseif`s. -/
def armsOnStack : List Arm → Run (List (Typed.Expr × Typed.Block))
  | [] => pure []
  | ⟨condition, body⟩ :: rest => do
    let condition ← look (condition.check · (.ofType ⟨.boolean, .condition "elseif"⟩))
    let body ← layered (blockOnStack body)
    let arms ← armsOnStack rest
    pure ((condition, body) :: arms)

/-- Types the block of an `else`, which is empty when there is none. -/
def elseOnStack : Option (List Source.Stmt) → Run (List Typed.Stmt)
  | none => pure []
  | some body => layered (blockOnStack body)

end

end Source.Stmt

/-! ### No statement gets stuck -/

namespace Stack.Does

open Source.Stmt (checkBlock checkBlock_exit checkBlock_frames)

variable {Γ : Context}

theorem declareHere (decls : List Typed.Decl) :
    Does (declareHere decls) Γ () (Context.declareAll Γ.varKind decls Γ).value
      (Context.declareAll Γ.varKind decls Γ).faults
      (Context.declareMoments Γ.varKind decls Γ) := by
  induction decls generalizing Γ with
  | nil => exact .pure
  | cons decl rest ih =>
    have hrest := ih (Γ := (Γ.declare decl.name ⟨decl.ty, decl.loc, Γ.varKind⟩).value)
    rw [Context.varKind_declare] at hrest
    exact view_bind ((declare _ _).bind hrest)

theorem declareVars (decls : List Source.Decl) (values : List Source.Expr) (loc : Location) :
    Does (declareVars decls values loc) Γ (Γ.declareVars decls values loc).value.1
      (Γ.declareVars decls values loc).value.2 (Γ.declareVars decls values loc).faults
      (Γ.varMoments decls values loc) :=
  (look _).followedBy ((look _).followedBy ((emit _).followedBy ((declareHere _).bind_nil .pure)))

/-- An expression behind a loop or a function is checked as inside. -/
theorem look_inside {returns : List Ty} {inLoop : Bool} (expr : Source.Expr) (demand : Demand) :
    Does (Stack.look (expr.check · demand)) (Γ.inside returns inLoop) (expr.check Γ demand).value
      (Γ.inside returns inLoop) (expr.check Γ demand).faults [] := by
  rw [← Source.Expr.check_inside Γ returns inLoop]
  exact look _

/-- A block is checked in a layer of its own. -/
theorem layered_block {body : Run (List Typed.Stmt)} {stmts : List Source.Stmt}
    {moments : List Moment}
    (h : Does body Γ.enter (checkBlock Γ.enter stmts).value.1 (checkBlock Γ.enter stmts).value.2
      (checkBlock Γ.enter stmts).faults moments) :
    Does (Stack.layered body) Γ (checkBlock Γ.enter stmts).value.1 Γ
      (checkBlock Γ.enter stmts).faults (Γ.layerMoments stmts moments) :=
  layered h checkBlock_exit

section Loop

variable {body : Run (List Typed.Stmt)} {stmts : List Source.Stmt} {moments : Context → List Moment}
  (h : ∀ Γ : Context, Does body Γ (checkBlock Γ stmts).value.1 (checkBlock Γ stmts).value.2
    (checkBlock Γ stmts).faults (moments Γ))

include h

/-- Statements that are checked as on contexts are checked so inside a loop. -/
theorem looped_block :
    Does (Stack.looped body) Γ (checkBlock (Γ.inside Γ.returns true) stmts).value.1
      ((checkBlock (Γ.inside Γ.returns true) stmts).value.2.inside Γ.returns Γ.inLoop)
      (checkBlock (Γ.inside Γ.returns true) stmts).faults
      (Γ.insideMoments Γ.returns true stmts [] moments) := by
  rw [Context.insideMoments, List.append_nil]
  exact looped (h _)

/-- The body of a loop sees its variables, in a layer of their own. -/
theorem loopBody (decls : List Typed.Decl) :
    Does (loopBody decls body) Γ
      (checkBlock (Context.declareAll .inner decls Γ.enterLoop).value stmts).value.1 Γ
      ((Context.declareAll .inner decls Γ.enterLoop).faults ++
        (checkBlock (Context.declareAll .inner decls Γ.enterLoop).value stmts).faults)
      (Γ.bodyMoments decls Γ.returns true stmts [] moments) := by
  have hdecls := Context.declareAll_enter_frames (Γ := Γ) decls
  have hbody : Does (Stack.loopBody decls body) Γ _ Γ _ _ :=
    layered ((declareAll .inner decls).bind (looped_block h)) (hdecls.exit_block stmts)
  rw [hdecls.returns_eq] at hbody
  rw [Context.declareAll_enterLoop, Report.value_map, Report.faults_map, Context.bodyMoments,
    List.append_nil]
  exact hbody

end Loop

end Stack.Does

namespace Source.Stmt

theorem plain_does {stmt : Source.Stmt} {Γ : Context} (h : stmt.isDeclaration = false) :
    Does stmt.plain Γ (check Γ stmt).value.1 (check Γ stmt).value.2 (check Γ stmt).faults [] := by
  rw [check_context_eq h]
  exact (Does.look _).of_faults (Report.faults_map _ _)

mutual

/-- **No statement gets stuck.** -/
theorem onStack_does (stmt : Source.Stmt) (Γ : Context) :
    Does stmt.onStack Γ (check Γ stmt).value.1 (check Γ stmt).value.2 (check Γ stmt).faults
      (stmt.moments Γ) := by
  cases stmt with
  | declare decls values loc =>
    rw [onStack, check, moments]
    exact (Does.declareVars decls values loc).bind_nil .pure
  | assign targets values loc =>
    rw [onStack, moments]
    exact plain_does rfl
  | call expr loc =>
    rw [onStack, moments]
    exact plain_does rfl
  | block body loc =>
    rw [onStack, check, moments]
    exact (Does.layered_block (blockOnStack_does body Γ.enter)).bind_nil .pure
  | whileDo condition body loc =>
    rw [onStack, check, moments]
    exact (Does.look _).followedBy ((Does.loopBody (blockOnStack_does body) []).bind_nil .pure)
  | repeatUntil body condition loc =>
    rw [onStack, check, moments]
    have henter : Γ.enter.Frames Γ.enter := .refl Context.enter_inner_ne_nil
    refine Does.of_faults (.bind_nil (.of_moments (.layered (.bind_nil
      (.looped_block (blockOnStack_does body)) (.bind_nil (.look_inside condition _) .pure))
      (henter.exit_block body)) ?_) .pure) (List.append_nil _)
    rw [List.append_nil]
    rfl
  | branch condition thenBlock arms elseBlock loc =>
    rw [onStack, check, moments]
    have hthen := Does.layered_block (blockOnStack_does thenBlock Γ.enter)
    have harms := armsOnStack_does arms Γ
    have helse := elseOnStack_does elseBlock Γ
    exact (Does.look _).followedBy (hthen.bind (harms.bind (helse.bind_nil .pure)))
  | numericFor decl start limit step body loc =>
    rw [onStack, check, moments]
    exact (Does.look _).followedBy ((Does.loopBody (blockOnStack_does body) _).bind_nil .pure)
  | genericFor decls values body loc =>
    rw [onStack, check, moments]
    refine (Does.iterate values loc).followedBy ((Does.look _).followedBy ?_)
    exact Does.of_faults ((Does.loopBody (blockOnStack_does body) _).bind_nil .pure)
      (List.append_assoc ..)
  | ret values loc =>
    rw [onStack, moments]
    exact plain_does rfl
  | brk loc =>
    rw [onStack, moments]
    exact plain_does rfl

theorem blockOnStack_does (stmts : List Source.Stmt) (Γ : Context) :
    Does (blockOnStack stmts) Γ (checkBlock Γ stmts).value.1 (checkBlock Γ stmts).value.2
      (checkBlock Γ stmts).faults (blockMoments Γ stmts) := by
  cases stmts with
  | nil =>
    rw [blockOnStack, checkBlock, blockMoments]
    exact .pure
  | cons stmt rest =>
    rw [blockOnStack, checkBlock, blockMoments]
    exact (onStack_does stmt Γ).bind (.arrive_bind ((blockOnStack_does rest _).bind_nil .pure))

theorem armsOnStack_does (arms : List Arm) (Γ : Context) :
    Does (armsOnStack arms) Γ (checkArms Γ arms).value Γ (checkArms Γ arms).faults
      (armMoments Γ arms) := by
  cases arms with
  | nil =>
    rw [armsOnStack, checkArms, armMoments]
    exact .pure
  | cons arm rest =>
    obtain ⟨condition, body⟩ := arm
    rw [armsOnStack, checkArms, armMoments]
    exact (Does.look _).followedBy ((Does.layered_block (blockOnStack_does body Γ.enter)).bind
      ((armsOnStack_does rest Γ).bind_nil .pure))

theorem elseOnStack_does (body : Option (List Source.Stmt)) (Γ : Context) :
    Does (elseOnStack body) Γ (checkElse Γ body).value Γ (checkElse Γ body).faults
      (elseMoments Γ body) := by
  cases body with
  | none =>
    rw [elseOnStack, checkElse, elseMoments]
    exact .pure
  | some body =>
    rw [elseOnStack, checkElse, elseMoments]
    exact (Does.layered_block (blockOnStack_does body Γ.enter)).of_faults (List.append_nil _).symm

end

end Source.Stmt

end LuaTyping
