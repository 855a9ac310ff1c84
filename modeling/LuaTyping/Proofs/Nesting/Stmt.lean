import LuaTyping.Checking.Stmt
import LuaTyping.Proofs.Nesting.Expr

/-!
# An `elseif` as a nested `if`

`Stmt.nest` writes every `elseif` as an `if` of its own in the block of the `else`
(`Stmt.nest_branch_cons`).  A block returns on every path exactly if its nested form does
(`Block.returns_nest`), and the two are checked alike (`Stmt.check_nest`): the nested form has more
layers, but they hold no variables.
-/

namespace LuaTyping

open Report (Restates)

/-! ### Nested form -/

namespace Source

mutual

/-- The statement with an `if` in the block of the `else` for each `elseif`. -/
def Stmt.nest : Stmt → Stmt
  | .block body loc => .block (Block.nest body) loc
  | .whileDo condition body loc => .whileDo condition (Block.nest body) loc
  | .repeatUntil body condition loc => .repeatUntil (Block.nest body) condition loc
  | .branch condition thenBlock arms elseBlock loc =>
    .branch condition (Block.nest thenBlock) [] (Arm.nest arms (Block.nestElse elseBlock)) loc
  | .numericFor decl start limit step body loc =>
    .numericFor decl start limit step (Block.nest body) loc
  | .genericFor decls values body loc => .genericFor decls values (Block.nest body) loc
  | .declare decls values loc => .declare decls values loc
  | .assign targets values loc => .assign targets values loc
  | .call call loc => .call call loc
  | .ret values loc => .ret values loc
  | .brk loc => .brk loc

/-- The block with all its statements in nested form. -/
def Block.nest : List Stmt → List Stmt
  | [] => []
  | stmt :: rest => Stmt.nest stmt :: Block.nest rest

/-- The block of the `else` that stands for the arms in front of an `else` in nested form. -/
def Arm.nest : List Arm → Option (List Stmt) → Option (List Stmt)
  | [], elseBlock => elseBlock
  | ⟨condition, body⟩ :: rest, elseBlock =>
    some [.branch condition (Block.nest body) [] (Arm.nest rest elseBlock) condition.loc]

/-- The block of an `else` in nested form. -/
def Block.nestElse : Option (List Stmt) → Option (List Stmt)
  | none => none
  | some body => some (Block.nest body)

end

/-- **The first `elseif` is an `if` with the others**, where its condition stands. -/
theorem Stmt.nest_branch_cons (condition condition' : Expr) (thenBlock body : List Stmt)
    (arms : List Arm) (elseBlock : Option (List Stmt)) (loc : Location) :
    Stmt.nest (.branch condition thenBlock (⟨condition', body⟩ :: arms) elseBlock loc) =
      .branch condition (Block.nest thenBlock) []
        (some [Stmt.nest (.branch condition' body arms elseBlock condition'.loc)]) loc := by
  simp only [Stmt.nest, Arm.nest]

mutual

theorem Stmt.returns_nest : ∀ (stmt : Stmt), Stmt.returns (Stmt.nest stmt) = Stmt.returns stmt
  | .block body loc => by simp only [Stmt.nest, Stmt.returns, Block.returns_nest body]
  | .branch condition thenBlock arms elseBlock loc => by
    simp only [Stmt.nest, Stmt.returns, Arm.allReturn, Block.returns_nest thenBlock,
      Arm.elseReturns_nest arms, Block.elseReturns_nestElse elseBlock, Bool.and_true,
      Bool.and_assoc]
  | .declare .. | .assign .. | .call .. | .ret .. | .brk .. | .whileDo .. | .repeatUntil ..
  | .numericFor .. | .genericFor .. => by simp only [Stmt.nest, Stmt.returns]

/-- **A block and its nested form return alike.** -/
theorem Block.returns_nest : ∀ (body : List Stmt),
    Block.returns (Block.nest body) = Block.returns body
  | [] => by simp only [Block.nest]
  | [last] => by simp only [Block.nest, Block.returns, Stmt.returns_nest last]
  | first :: next :: rest => by
    have ih := Block.returns_nest (next :: rest)
    rw [Block.nest] at ih
    rw [Block.nest, Block.nest, Block.returns_cons_cons, Block.returns_cons_cons, ih]

theorem Arm.elseReturns_nest : ∀ (arms : List Arm) (elseBlock : Option (List Stmt)),
    Block.elseReturns (Arm.nest arms elseBlock) =
      (Arm.allReturn arms && Block.elseReturns elseBlock)
  | [], _ => by simp only [Arm.nest, Arm.allReturn, Bool.true_and]
  | ⟨condition, body⟩ :: rest, elseBlock => by
    simp only [Arm.nest, Arm.allReturn, Block.elseReturns, Block.returns, Stmt.returns,
      Block.returns_nest body, Arm.elseReturns_nest rest, Bool.and_true, Bool.and_assoc]

theorem Block.elseReturns_nestElse : ∀ (elseBlock : Option (List Stmt)),
    Block.elseReturns (Block.nestElse elseBlock) = Block.elseReturns elseBlock
  | none => by simp only [Block.nestElse]
  | some body => by simp only [Block.nestElse, Block.elseReturns, Block.returns_nest body]

end

end Source

/-! ### Layers -/

/-- A variable in the innermost layer hides those of its name. -/
theorem Scopes.var?_insert {scopes : Scopes} {layer : NameMap Binding}
    {outer : List (NameMap Binding)} (h : scopes.inner = layer :: outer) (name other : String)
    (binding : Binding) :
    Scopes.var? { scopes with inner := layer.insert name binding :: outer } other =
      if other = name then some binding else scopes.var? other := by
  simp only [Scopes.var?, h, List.findSome?_cons, NameMap.lookup_insert]
  split_ifs <;> rfl

namespace Context

/-- Alike contexts inside a function. -/
structure AlikeInside (Γ Δ : Context) : Prop extends Γ.Alike Δ where
  inner_ne_nil : Γ.scopes.inner ≠ []
  inner_ne_nil' : Δ.scopes.inner ≠ []

/-- The same value, with contexts behind it that are related. -/
def SameValue {α : Type} (R : Context → Context → Prop) (first second : α × Context) : Prop :=
  first.1 = second.1 ∧ R first.2 second.2

variable {Γ Δ : Context} {R : Context → Context → Prop}

theorem Alike.enter (h : Γ.Alike Δ) : Γ.enter.AlikeInside Δ.enter where
  toAlike := { h with }
  inner_ne_nil := by simp [Context.enter, Scopes.enter]
  inner_ne_nil' := by simp [Context.enter, Scopes.enter]

theorem Alike.enterLoop (h : Γ.Alike Δ) : Γ.enterLoop.AlikeInside Δ.enterLoop where
  toAlike := { h with inLoop_eq := rfl }
  inner_ne_nil := by simp [Context.enterLoop, Context.enter, Scopes.enter]
  inner_ne_nil' := by simp [Context.enterLoop, Context.enter, Scopes.enter]

/-- A layer without variables makes no difference. -/
theorem AlikeInside.enter_right (h : Γ.AlikeInside Δ) : Γ.AlikeInside Δ.enter where
  toAlike := { h.toAlike with }
  inner_ne_nil := h.inner_ne_nil
  inner_ne_nil' := by simp [Context.enter, Scopes.enter]

theorem AlikeInside.varKind_eq (h : Γ.AlikeInside Δ) : Δ.varKind = Γ.varKind := by
  simp [varKind, Scopes.isToplevel, h.inner_ne_nil, h.inner_ne_nil']

/-! ### Declarations of variables -/

theorem AlikeInside.declare_restates (h : Γ.AlikeInside Δ) (name : String) (binding : Binding) :
    (Γ.declare name binding).Restates AlikeInside (Δ.declare name binding) := by
  obtain ⟨layer, outer, hΓ⟩ := List.exists_cons_of_ne_nil h.inner_ne_nil
  obtain ⟨layer', outer', hΔ⟩ := List.exists_cons_of_ne_nil h.inner_ne_nil'
  simp only [Context.declare, Scopes.declare, hΓ, hΔ]
  refine .pure ⟨⟨fun other => ?_, h.builtins_eq, h.types_eq, h.module_eq, h.returns_eq,
    h.inLoop_eq⟩, List.cons_ne_nil _ _, List.cons_ne_nil _ _⟩
  rw [Scopes.var?_insert hΓ, Scopes.var?_insert hΔ, h.var?_eq]

theorem AlikeInside.declareAll_restates (h : Γ.AlikeInside Δ) (kind : VarKind)
    (decls : List Typed.Decl) :
    (declareAll kind decls Γ).Restates AlikeInside (declareAll kind decls Δ) := by
  induction decls generalizing Γ Δ with
  | nil => exact .pure h
  | cons decl rest ih => exact .bind (h.declare_restates _ _) fun _ _ hrest => ih hrest

end Context

namespace Source.Decl

variable {Γ Δ : Context}

theorem stated_restates (h : Γ.Alike Δ) (decl : Decl) :
    (decl.stated Γ).Restates Eq (decl.stated Δ) := by
  unfold stated
  split
  · exact .andThen (h.resolve_restates _ _) fun _ => .pure rfl
  · exact .pure rfl

theorem typed_restates (decl : Decl) (stated value : Option Ty) :
    (decl.typed stated value).Restates Eq (decl.typed stated value) := by
  unfold typed
  split
  · exact .pure rfl
  · exact .andThen (.fault rfl) fun _ => .pure rfl
  · exact .pure rfl
  · exact .pure rfl

theorem typedAll_restates (decls : List (Decl × Option Ty)) (types : List Ty) :
    (typedAll decls types).Restates Eq (typedAll decls types) := by
  induction decls generalizing types with
  | nil => exact .pure rfl
  | cons decl rest ih =>
    exact .andThen (typed_restates _ _ _) fun _ => .andThen (ih types.tail) fun _ => .pure rfl

theorem requireStated_restates (decls : List (Decl × Option Ty)) :
    (requireStated decls).Restates Eq (requireStated decls) := by
  induction decls with
  | nil => exact .pure rfl
  | cons decl rest ih => exact .andThen (.require rfl) fun _ => ih

end Source.Decl

namespace Context

variable {Γ Δ : Context} {R : Context → Context → Prop}

theorem Alike.declaredValues_restates (h : Γ.Alike Δ) (decls : List (Source.Decl × Option Ty))
    (values : List Source.Expr) (loc : Location) :
    (Γ.declaredValues decls values loc).Restates Eq (Δ.declaredValues decls values loc) := by
  unfold declaredValues
  split
  · exact .andThen (Source.Decl.requireStated_restates decls) fun _ => .pure rfl
  · exact .andThen (Source.Expr.checkValues_restates h _ values _ 0) fun _ =>
      .andThen (.require rfl) fun _ => .pure rfl

/-- A declaration of variables, in contexts that stay related when variables are declared. -/
theorem Alike.declareVars_restates (h : Γ.Alike Δ)
    (hdeclare : ∀ decls, (declareAll Γ.varKind decls Γ).Restates R (declareAll Δ.varKind decls Δ))
    (decls : List Source.Decl) (values : List Source.Expr) (loc : Location) :
    (Γ.declareVars decls values loc).Restates (SameValue R) (Δ.declareVars decls values loc) := by
  unfold declareVars
  exact .andThen (.mapM fun decl => decl.stated_restates h) fun _ =>
    .andThen (h.declaredValues_restates _ values loc) fun _ =>
      .andThen (Source.Decl.typedAll_restates _ _) fun typed =>
        .bind (hdeclare typed) fun _ _ hR => .pure ⟨rfl, hR⟩

/-! ### Assignments -/

theorem Alike.nameTarget_restates (h : Γ.Alike Δ) (name : String) (loc : Location) :
    (Γ.nameTarget name loc).Restates Eq (Δ.nameTarget name loc) := by
  unfold nameTarget
  rw [h.lookup_eq]
  split
  · exact .pure rfl
  · exact .pure rfl
  all_goals exact .andThen (.fault rfl) fun _ => .pure rfl

theorem Alike.target_restates (h : Γ.Alike Δ) (expr : Source.Expr) :
    (Γ.target expr).Restates Eq (Δ.target expr) := by
  unfold target
  split
  · exact h.nameTarget_restates _ _
  · rw [h.library?_eq]
    split
    · exact .andThen (.fault rfl) fun _ => .pure rfl
    · exact .andThen (Source.Expr.check_restates h _ .results) fun _ => .pure rfl
  · exact .andThen (Source.Expr.check_restates h _ .results) fun _ => .pure rfl
  · exact .andThen (.fault rfl) fun _ => .pure rfl

theorem Alike.assign_restates (h : Γ.Alike Δ) (targets values : List Source.Expr)
    (loc : Location) : (Γ.assign targets values loc).Restates Eq (Δ.assign targets values loc) := by
  unfold assign
  exact .andThen (.mapM h.target_restates) fun _ =>
    .andThen (Source.Expr.checkValues_restates h _ values _ 0) fun _ =>
      .andThen (.require rfl) fun _ => .pure rfl

end Context

/-! ### Loop headers -/

theorem Ty.control_restates (ty : Ty) (name : String) (loc : Location) :
    (ty.control name loc).Restates Eq (ty.control name loc) := by
  unfold Ty.control
  split
  · exact .pure rfl
  · exact .andThen (.fault rfl) fun _ => .pure rfl

theorem Typed.Expr.ipairsTypes_restates (array : Typed.Expr) :
    array.ipairsTypes.Restates Eq array.ipairsTypes := by
  unfold Typed.Expr.ipairsTypes
  split
  · exact .pure rfl
  · exact .pure rfl
  · exact .andThen (.fault rfl) fun _ => .pure rfl

namespace LoopValues

theorem requireThree_restates (count : Nat) (loc : Location) :
    (requireThree count loc).Restates Eq (requireThree count loc) := by
  unfold requireThree
  split
  · exact .fault rfl
  · exact .fault rfl
  · exact .fault rfl
  · exact .pure rfl
  · exact .fault rfl

theorem coerce_restates (want : Nat → Option Want) (position : Nat) (values : List Typed.Expr) :
    (coerce want position values).Restates Eq
      (coerce (fun j => (want j).map Want.asIf) position values) := by
  induction values generalizing position with
  | nil => exact .pure rfl
  | cons expr rest ih =>
    cases rest with
    | nil =>
      simp only [coerce]
      split
      · exact .pure rfl
      · exact .andThen (expr.coerce?_restates _) fun _ => .pure rfl
      · exact .andThen (expr.spread_restates _) fun _ => .pure rfl
    | cons next rest =>
      simp only [coerce]
      exact .andThen (expr.coerce?_restates _) fun _ => .andThen (ih (position + 1)) fun _ =>
        .pure rfl

theorem want_asIf (state control : Ty) (position : Nat) :
    (want state control position).map Want.asIf = want state control position := by
  unfold want
  split <;> rfl

end LoopValues

namespace Context

variable {Γ Δ : Context}

theorem Alike.numericHeader_restates (h : Γ.Alike Δ) (decl : Source.Decl)
    (start limit : Source.Expr) (step : Option Source.Expr) (loc : Location) :
    (Γ.numericHeader decl start limit step loc).Restates Eq
      (Δ.numericHeader decl start limit step loc) := by
  have hstart : (Γ.numericStart decl start).Restates Eq (Δ.numericStart decl start) := by
    unfold numericStart
    refine .andThen (decl.stated_restates h) fun stated => ?_
    cases stated with
    | some ty =>
      exact .andThen (Source.Expr.check_restates h start (.ofType ⟨ty, .forStart⟩)) fun _ =>
        .pure rfl
    | none => exact .andThen (Source.Expr.check_restates h start .value) fun _ => .pure rfl
  have hstep : ∀ ty, (Γ.numericStep ty step loc).Restates Eq (Δ.numericStep ty step loc) := by
    intro ty
    cases step with
    | some step => exact Source.Expr.check_restates h step (.ofType ⟨ty, .forStep⟩)
    | none => exact .pure rfl
  unfold numericHeader
  exact .andThen hstart fun _ => .andThen (Ty.control_restates _ _ _) fun ty =>
    .andThen (Source.Expr.check_restates h limit (.ofType ⟨ty, .forLimit⟩)) fun _ =>
      .andThen (hstep ty) fun _ => .pure rfl

theorem Alike.loopValues_restates (h : Γ.Alike Δ) (exprs : List Source.Expr) :
    (Γ.loopValues exprs).Restates Eq (Δ.loopValues exprs) := by
  induction exprs with
  | nil => exact .pure rfl
  | cons expr rest ih =>
    unfold loopValues
    refine .andThen ?_ fun _ => .andThen ih fun _ => .pure rfl
    split
    · exact Source.Expr.check_restates h expr .results
    · exact Source.Expr.check_restates h expr .value

theorem Alike.ipairsCall?_eq (h : Γ.Alike Δ) (exprs : List Source.Expr) :
    Δ.ipairsCall? exprs = Γ.ipairsCall? exprs := by
  unfold ipairsCall?
  simp only [h.lookup_eq]

theorem Alike.iterate_restates (h : Γ.Alike Δ) (exprs : List Source.Expr) (loc : Location) :
    (Γ.iterate exprs loc).Restates Eq (Δ.iterate exprs loc) := by
  unfold iterate
  rw [h.ipairsCall?_eq]
  split
  · unfold ipairsLoop
    refine .andThen (.mapM fun arg => Source.Expr.check_restates h arg .value) fun args =>
      .andThen (.require rfl) fun _ => ?_
    cases args with
    | nil => exact .pure rfl
    | cons array rest => exact .andThen array.ipairsTypes_restates fun _ => .pure rfl
  · unfold iteratorLoop
    refine .andThen (h.loopValues_restates exprs) fun values => ?_
    dsimp only
    split
    · next state control returns _ =>
      have hcoerce := LoopValues.coerce_restates (LoopValues.want state control) 0 values
      simp only [LoopValues.want_asIf] at hcoerce
      split
      · exact .andThen hcoerce fun _ => .pure rfl
      · exact .andThen (LoopValues.requireThree_restates _ _) fun _ =>
          .andThen hcoerce fun _ => .pure rfl
    · exact .andThen (.fault rfl) fun _ => .pure rfl
    · exact .pure rfl
    · exact .andThen (.fault rfl) fun _ => .pure rfl

theorem Alike.loopVar_restates (h : Γ.Alike Δ) (decl : Source.Decl) (found : Ty) :
    (Γ.loopVar decl found).Restates Eq (Δ.loopVar decl found) := by
  unfold loopVar
  refine .andThen (decl.stated_restates h) fun stated => ?_
  cases stated with
  | none => exact .pure rfl
  | some ty =>
    dsimp only
    split_ifs
    · exact .pure rfl
    · exact .pure rfl
    · exact .andThen (.fault rfl) fun _ => .pure rfl

theorem Alike.loopVarList_restates (h : Γ.Alike Δ) (decls : List Source.Decl) (types : List Ty) :
    (Γ.loopVarList decls types).Restates Eq (Δ.loopVarList decls types) := by
  induction decls generalizing types with
  | nil => exact .pure rfl
  | cons decl rest ih =>
    exact .andThen (h.loopVar_restates decl _) fun _ => .andThen (ih types.tail) fun _ => .pure rfl

theorem Alike.loopVars_restates (h : Γ.Alike Δ) (decls : List Source.Decl)
    (produced : Option (List Ty)) (loc : Location) :
    (Γ.loopVars decls produced loc).Restates Eq (Δ.loopVars decls produced loc) := by
  cases produced with
  | some types => exact .andThen (.require rfl) fun _ => h.loopVarList_restates decls types
  | none => exact h.loopVarList_restates decls []

end Context

/-! ### Statements -/

namespace Source.Stmt

open Context (SameValue AlikeInside)

/-- Types what stands behind the first block of an `if`. -/
def checkRest (Γ : Context) (arms : List Arm) (elseBlock : Option (List Stmt)) :
    Report Typed.Block := do
  let arms ← checkArms Γ arms
  let elseBlock ← checkElse Γ elseBlock
  pure (nestArms arms elseBlock)

theorem check_branch (Γ : Context) (condition : Expr) (thenBlock : List Stmt) (arms : List Arm)
    (elseBlock : Option (List Stmt)) (loc : Location) :
    check Γ (.branch condition thenBlock arms elseBlock loc) = (do
      let condition ← condition.check Γ (.ofType ⟨.boolean, .condition "if"⟩)
      let (thenBlock, _) ← checkBlock Γ.enter thenBlock
      let block ← checkRest Γ arms elseBlock
      pure (.branch condition thenBlock block loc, Γ)) := by
  simp only [check, checkRest, bind_assoc, pure_bind]

theorem checkRest_nil (Γ : Context) (elseBlock : Option (List Stmt)) :
    checkRest Γ [] elseBlock = checkElse Γ elseBlock := by
  simp only [checkRest, checkArms, pure_bind, nestArms, List.foldr_nil, bind_pure]

/-- An arm is typed as an `if` whose typed condition says where it stands. -/
theorem checkRest_cons (Γ : Context) (condition : Expr) (body : List Stmt) (arms : List Arm)
    (elseBlock : Option (List Stmt)) :
    checkRest Γ (⟨condition, body⟩ :: arms) elseBlock = (do
      let condition ← condition.check Γ (.ofType ⟨.boolean, .condition "elseif"⟩)
      let (body, _) ← checkBlock Γ.enter body
      let block ← checkRest Γ arms elseBlock
      pure [.branch condition body block condition.loc]) := by
  simp only [checkRest, checkArms, bind_assoc, pure_bind, nestArms, List.foldr_cons]

/-- The condition of an `elseif` as that of an `if`, which stands where the condition stands. -/
theorem condition_restates {Γ Δ : Context} (h : Γ.AlikeInside Δ) (condition : Expr) :
    (condition.check Γ (.ofType ⟨.boolean, .condition "elseif"⟩)).Restates
      (fun typed typed' => typed = typed' ∧ typed.loc = condition.loc)
      (condition.check Δ (.ofType ⟨.boolean, .condition "if"⟩)) := by
  obtain ⟨hvalue, hfaults⟩ :=
    Expr.check_restates h.toAlike condition (.ofType ⟨.boolean, .condition "elseif"⟩)
  exact ⟨⟨hvalue, Expr.loc_check Γ condition _⟩, hfaults⟩

mutual

/-- **A statement and its nested form are checked alike.** -/
theorem check_nest : ∀ (stmt : Stmt) {Γ Δ : Context}, Γ.AlikeInside Δ →
    (check Γ stmt).Restates (SameValue AlikeInside) (check Δ (Stmt.nest stmt))
  | .declare decls values loc, Γ, Δ, h => by
    simp only [nest, check]
    have hdeclare : ∀ typed, (Context.declareAll Γ.varKind typed Γ).Restates AlikeInside
        (Context.declareAll Δ.varKind typed Δ) := by
      intro typed
      rw [h.varKind_eq]
      exact h.declareAll_restates _ typed
    refine .bind (h.toAlike.declareVars_restates hdeclare decls values loc) ?_
    rintro ⟨_, _⟩ ⟨_, _⟩ ⟨rfl, hctx⟩
    exact .pure ⟨rfl, hctx⟩
  | .assign targets values loc, Γ, Δ, h => by
    simp only [nest, check]
    exact .andThen (h.toAlike.assign_restates targets values loc) fun _ => .pure ⟨rfl, h⟩
  | .call expr loc, Γ, Δ, h => by
    simp only [nest, check]
    refine .andThen ?_ fun _ => .pure ⟨rfl, h⟩
    split
    · exact Expr.check_restates h.toAlike expr .results
    · exact Expr.check_restates h.toAlike expr .value
  | .block body loc, Γ, Δ, h => by
    simp only [nest, check]
    refine .bind (checkBlock_nest body h.toAlike.enter) ?_
    rintro ⟨_, _⟩ ⟨_, _⟩ ⟨rfl, -⟩
    exact .pure ⟨rfl, h⟩
  | .whileDo condition body loc, Γ, Δ, h => by
    simp only [nest, check]
    refine .andThen
      (Expr.check_restates h.toAlike condition (.ofType ⟨.boolean, .condition "while"⟩))
      fun _ => .bind (checkBlock_nest body h.toAlike.enterLoop) ?_
    rintro ⟨_, _⟩ ⟨_, _⟩ ⟨rfl, -⟩
    exact .pure ⟨rfl, h⟩
  | .repeatUntil body condition loc, Γ, Δ, h => by
    simp only [nest, check]
    refine .bind (checkBlock_nest body h.toAlike.enterLoop) ?_
    rintro ⟨_, _⟩ ⟨_, _⟩ ⟨rfl, hbody⟩
    exact .andThen
      (Expr.check_restates hbody.toAlike condition (.ofType ⟨.boolean, .condition "repeat"⟩))
      fun _ => .pure ⟨rfl, h⟩
  | .branch condition thenBlock arms elseBlock loc, Γ, Δ, h => by
    rw [nest, check_branch, check_branch, checkRest_nil]
    refine .andThen (Expr.check_restates h.toAlike condition (.ofType ⟨.boolean, .condition "if"⟩))
      fun _ => .bind (checkBlock_nest thenBlock h.toAlike.enter) ?_
    rintro ⟨_, _⟩ ⟨_, _⟩ ⟨rfl, -⟩
    exact .andThen (checkRest_nest arms (fun hctx => checkElse_nest elseBlock hctx) h) fun _ =>
      .pure ⟨rfl, h⟩
  | .numericFor decl start limit step body loc, Γ, Δ, h => by
    simp only [nest, check]
    refine .andThen (h.toAlike.numericHeader_restates decl start limit step loc) fun header =>
      .bind (h.toAlike.enterLoop.declareAll_restates .inner [header.decl]) fun _ _ hctx =>
        .bind (checkBlock_nest body hctx) ?_
    rintro ⟨_, _⟩ ⟨_, _⟩ ⟨rfl, -⟩
    exact .pure ⟨rfl, h⟩
  | .genericFor decls values body loc, Γ, Δ, h => by
    simp only [nest, check]
    refine .andThen (h.toAlike.iterate_restates values loc) fun iterated =>
      .andThen (h.toAlike.loopVars_restates decls _ loc) fun decls =>
        .bind (h.toAlike.enterLoop.declareAll_restates .inner decls) fun _ _ hctx =>
          .bind (checkBlock_nest body hctx) ?_
    rintro ⟨_, _⟩ ⟨_, _⟩ ⟨rfl, -⟩
    exact .pure ⟨rfl, h⟩
  | .ret values loc, Γ, Δ, h => by
    simp only [nest, check, h.returns_eq]
    exact .andThen (Expr.checkValues_restates h.toAlike _ values _ 0) fun _ =>
      .andThen (.require rfl) fun _ => .pure ⟨rfl, h⟩
  | .brk loc, Γ, Δ, h => by
    simp only [nest, check, h.inLoop_eq]
    exact .andThen (.require rfl) fun _ => .pure ⟨rfl, h⟩

theorem checkBlock_nest : ∀ (body : List Stmt) {Γ Δ : Context}, Γ.AlikeInside Δ →
    (checkBlock Γ body).Restates (SameValue AlikeInside) (checkBlock Δ (Block.nest body))
  | [], Γ, Δ, h => by
    simp only [Block.nest, checkBlock]
    exact .pure ⟨rfl, h⟩
  | stmt :: rest, Γ, Δ, h => by
    simp only [Block.nest, checkBlock]
    refine .bind (check_nest stmt h) ?_
    rintro ⟨_, _⟩ ⟨_, _⟩ ⟨rfl, hctx⟩
    refine .bind (checkBlock_nest rest hctx) ?_
    rintro ⟨_, _⟩ ⟨_, _⟩ ⟨rfl, hend⟩
    exact .pure ⟨rfl, hend⟩

/-- Each arm of the nested form is checked in one more layer than the arm before. -/
theorem checkRest_nest : ∀ (arms : List Arm) {elseBlock elseBlock' : Option (List Stmt)},
    (∀ {Γ Δ : Context}, Γ.AlikeInside Δ →
      (checkElse Γ elseBlock).Restates Eq (checkElse Δ elseBlock')) →
        ∀ {Γ Δ : Context}, Γ.AlikeInside Δ →
          (checkRest Γ arms elseBlock).Restates Eq (checkElse Δ (Arm.nest arms elseBlock'))
  | [], _, _, helse, Γ, Δ, h => by
    rw [checkRest_nil, Arm.nest]
    exact helse h
  | ⟨condition, body⟩ :: rest, _, _, helse, Γ, Δ, h => by
    simp only [checkRest_cons, Arm.nest, checkElse, checkBlock, check_branch, checkRest_nil,
      bind_assoc, pure_bind]
    refine .bind (condition_restates h.enter_right condition) ?_
    rintro condition' _ ⟨rfl, hloc⟩
    refine .bind (checkBlock_nest body h.enter_right.toAlike.enter) ?_
    rintro ⟨_, _⟩ ⟨_, _⟩ ⟨rfl, -⟩
    rw [hloc]
    exact .andThen (checkRest_nest rest helse h.enter_right) fun _ => .pure rfl

theorem checkElse_nest : ∀ (elseBlock : Option (List Stmt)) {Γ Δ : Context}, Γ.AlikeInside Δ →
    (checkElse Γ elseBlock).Restates Eq (checkElse Δ (Block.nestElse elseBlock))
  | none, Γ, Δ, h => by
    simp only [Block.nestElse, checkElse]
    exact .pure rfl
  | some body, Γ, Δ, h => by
    simp only [Block.nestElse, checkElse]
    refine .bind (checkBlock_nest body h.toAlike.enter) ?_
    rintro ⟨_, _⟩ ⟨_, _⟩ ⟨rfl, -⟩
    exact .pure rfl

end

end Source.Stmt

end LuaTyping
