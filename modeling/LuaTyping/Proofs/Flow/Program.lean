import LuaTyping.Proofs.Flow.Outcome
import LuaTyping.Proofs.Frame.Stmt
import LuaTyping.Proofs.Shape.Program

/-!
# Accepted functions end by returning

Two rules govern how the body of a function can end.  A `break` needs an open loop, which is read off
the context, and a function with results has to return on every path, which is read off the last
statement of its body.  Together they say of an accepted program that no execution of a function body
ends with a `break`, and that no execution of one with results falls through (`check_flow`).
-/

namespace LuaTyping

variable {Γ Δ : Context}

/-- Opening and closing loops is left to the loops: statements keep the mark as it is. -/
theorem Context.Frames.inLoop_eq (h : Γ.Frames Δ) : Δ.inLoop = Γ.inLoop := by
  obtain ⟨layer, rfl⟩ := h
  rfl

namespace Source.Stmt

/-! ### No `break` outside a loop -/

mutual

/-- **One statement.**  Where no loop is open, an accepted statement never ends with a `break`. -/
theorem check_not_broken : ∀ {stmt : Source.Stmt} {Γ : Context} {checked : Typed.Stmt × Context},
    Γ.scopes.inner ≠ [] → Γ.inLoop = false → (check Γ stmt).Yields checked → ¬stmt.Runs .broken
  | .brk loc, Γ, _, _, hloop, h => by
    simp only [check, Report.yields_bind, Report.yields_require, hloop, Bool.false_eq_true,
      false_and, exists_false] at h
  | .block body loc, Γ, _, _, hloop, h => by
    simp only [check, Report.yields_bind] at h
    obtain ⟨_, hbody, -⟩ := h
    intro hrun
    cases hrun with
    | block hrun => exact checkBlock_not_broken Context.enter_inner_ne_nil hloop hbody hrun
  | .branch condition thenBlock arms elseBlock loc, Γ, _, _, hloop, h => by
    simp only [check, Report.yields_bind] at h
    obtain ⟨_, -, _, hthen, _, harms, _, helse, -⟩ := h
    intro hrun
    cases hrun with
    | thenBlock hrun => exact checkBlock_not_broken Context.enter_inner_ne_nil hloop hthen hrun
    | arm hmem hrun => exact checkArms_not_broken hloop harms _ hmem hrun
    | elseBlock hrun =>
      simp only [checkElse, Report.yields_bind] at helse
      obtain ⟨_, helse, -⟩ := helse
      exact checkBlock_not_broken Context.enter_inner_ne_nil hloop helse hrun
  -- a loop keeps the `break`s of its body to itself
  | .whileDo .., _, _, _, _, _ | .repeatUntil .., _, _, _, _, _ | .numericFor .., _, _, _, _, _
  | .genericFor .., _, _, _, _, _ => by
    intro hrun
    cases hrun
    all_goals next rounds => exact rounds.ne_broken rfl
  | .declare .., _, _, _, _, _ | .assign .., _, _, _, _, _ | .call .., _, _, _, _, _
  | .ret .., _, _, _, _, _ => by
    intro hrun
    cases hrun

/-- **A run of statements.** -/
theorem checkBlock_not_broken : ∀ {stmts : List Source.Stmt} {Γ : Context}
    {checked : List Typed.Stmt × Context}, Γ.scopes.inner ≠ [] → Γ.inLoop = false →
      (checkBlock Γ stmts).Yields checked → ¬Block.Runs stmts .broken
  | [], _, _, _, _, _ => by
    intro hrun
    cases hrun
  | stmt :: rest, Γ, _, hin, hloop, h => by
    simp only [checkBlock, Report.yields_bind] at h
    obtain ⟨⟨_, Δ⟩, hstmt, _, hrest, -⟩ := h
    have hΔ : Γ.Frames Δ := by
      have hframes : Γ.Frames (check Γ stmt).value.2 := check_frames hin
      rwa [hstmt.value_eq] at hframes
    intro hrun
    cases hrun with
    | next _ hrun =>
      exact checkBlock_not_broken hΔ.inner_ne_nil (hΔ.inLoop_eq.trans hloop) hrest hrun
    | stop hrun _ => exact check_not_broken hin hloop hstmt hrun

theorem checkArms_not_broken : ∀ {arms : List Arm} {Γ : Context}
    {checked : List (Typed.Expr × Typed.Block)}, Γ.inLoop = false →
      (checkArms Γ arms).Yields checked → ∀ arm ∈ arms, ¬Block.Runs arm.body .broken
  | [], _, _, _, _ => by simp
  | ⟨condition, body⟩ :: rest, Γ, _, hloop, h => by
    simp only [checkArms, Report.yields_bind] at h
    obtain ⟨_, -, _, hbody, _, hrest, -⟩ := h
    rw [List.forall_mem_cons]
    exact ⟨checkBlock_not_broken Context.enter_inner_ne_nil hloop hbody,
      checkArms_not_broken hloop hrest⟩

end

end Source.Stmt

/-! ### Functions -/

theorem TypeExpr.resolveList_eq_nil {scopes : Scopes} {types : List TypeExpr} {site : Location}
    {tys : List Ty} (h : (resolveList scopes types site).Yields tys) (hnil : tys = []) :
    types = [] := by
  cases types with
  | nil => rfl
  | cons type rest =>
    simp only [resolveList, Report.yields_bind, Report.yields_pure, hnil] at h
    obtain ⟨_, -, _, -, h⟩ := h
    cases h

/-- The body of an accepted function. -/
theorem Context.function_flow {options : Options} {decl : Source.Function}
    {checked : Typed.Item × Context} (h : (function options Γ decl).Yields checked) :
    ¬Source.Block.Runs decl.body .broken ∧
      (decl.returns ≠ [] → ¬Source.Block.Runs decl.body .normal) := by
  simp only [function, functionBody, Report.yields_bind, Report.yields_require] at h
  obtain ⟨params, -, returns, hreturns, Θ, -, _, ⟨Δ, hparams, _, hbody, _, hends, -⟩, -⟩ := h
  have hΔ : (Θ.enterFunction returns).Frames Δ := by
    rw [← hparams.value_eq]
    exact declareAll_frames (List.cons_ne_nil _ _)
  refine ⟨Source.Stmt.checkBlock_not_broken hΔ.inner_ne_nil hΔ.inLoop_eq hbody, fun hresults => ?_⟩
  refine Source.Block.not_normal_of_returns ?_
  rw [Bool.or_eq_true, List.isEmpty_iff] at hends
  exact hends.resolve_left fun hnil => hresults (TypeExpr.resolveList_eq_nil hreturns hnil)

namespace Source.Program

/-- **No fall-through and no stray `break`.**  In an accepted program no execution of a function body
ends with a `break`, and if the function has results, no execution of its body completes normally. -/
theorem check_flow {builtins : Builtins} {options : Options} {program : Program}
    {checked : CheckedModule} (h : program.check builtins options = .ok checked)
    (decl : Function) (hmem : .function decl ∈ program.items) :
    ¬Block.Runs decl.body .broken ∧ (decl.returns ≠ [] → ¬Block.Runs decl.body .normal) := by
  obtain ⟨_, _, _, hwalk, -, -⟩ := walk_yields_of_check h
  have hrun := checkItems_invariant (P := fun _ => True) (fun _ _ => trivial) trivial
    (walk_yields hwalk).1
  obtain ⟨Γ, _, _, -, hitem⟩ := hrun.2 _ hmem
  simp only [Item.check, Report.yields_bind] at hitem
  obtain ⟨_, hfunction, -⟩ := hitem
  exact Context.function_flow hfunction

/-- Looks for a number, leaves its loops by `break` and returns at the end of every path. -/
def searchFunction : Function :=
  let here := Location.nowhere
  let number := Expr.name "n" here
  let index := Expr.name "i" here
  ⟨.plain "search", [⟨"n", some .integer, here⟩], [.integer],
    [.whileDo (.boolean true here)
      [.numericFor ⟨"i", none, here⟩ (.integer 1 here) number none
        [.branch (.binary index .eq (.integer 7 here) here) [.ret [index] here] []
          (some [.block [.brk here] here]) here] here,
        .brk here] here,
      .branch (.binary number .lt (.integer 0 here) here) [.ret [.integer 0 here] here]
        [⟨.binary number .eq (.integer 0 here) here, [.ret [.integer 1 here] here]⟩]
        (some [.block [.ret [number] here] here]) here], here⟩

/-- An execution of the function goes through the outer loop once, leaves the inner loop by its
`break`, and returns behind the `elseif`. -/
theorem search_flow :
    (∃ checked, (inModule [.function searchFunction]).check .standard .standard = .ok checked) ∧
      Block.Runs searchFunction.body .returned ∧ ¬Block.Runs searchFunction.body .broken ∧
        ¬Block.Runs searchFunction.body .normal := by
  have hok : ∃ checked,
      (inModule [.function searchFunction]).check .standard .standard = .ok checked := ⟨_, rfl⟩
  refine ⟨hok, ?_, ?_⟩
  · have hlast : Block.Runs [.brk .nowhere] .broken := .stop .brk (by decide)
    have hblock : Block.Runs [.block [.brk .nowhere] .nowhere] .broken :=
      .stop (.block hlast) (by decide)
    refine .next (.whileDo (.broken (.next (.numericFor (.broken ?_)) hlast))) ?_
    · exact .stop (.elseBlock hblock) (by decide)
    · exact .stop (.arm List.mem_cons_self (.stop .ret (by decide))) (by decide)
  · obtain ⟨checked, h⟩ := hok
    obtain ⟨hbroken, hnormal⟩ := check_flow h _ (List.mem_cons_of_mem _ List.mem_cons_self)
    exact ⟨hbroken, hnormal (List.cons_ne_nil _ _)⟩

end Source.Program

end LuaTyping
