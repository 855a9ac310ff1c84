import LuaTyping.Proofs.Frame.Stmt
import LuaTyping.Proofs.Summary.Reference

/-!
# References in statements

Statements leave the module as it is, so all parts of a statement are checked against the same
fields, and the references in its typed tree are declared (`Stmt.check_refs`).
-/

namespace LuaTyping

variable {Γ Δ : Context} {loc : Location}

/-! ### Declarations and assignments -/

/-- A target has the references of the expression that it is made of. -/
theorem Typed.Expr.target?_refs {typed : Typed.Expr} {target : Typed.Target}
    (h : typed.target? = some target) : target.refs = typed.refs := by
  rw [refs_eq]
  unfold target? at h
  split at h <;> rename_i hkind <;> cases h <;>
    simp only [hkind, Typed.Target.refs, Typed.ExprKind.refs]

namespace Context

theorem target_refs (hΓ : Γ.module.Named) {expr : Source.Expr} {target : Typed.Target}
    (h : (Γ.target expr).Yields (some target)) : ∀ ref ∈ target.refs, Γ.module.Declares ref := by
  unfold Context.target at h
  split at h
  · obtain ⟨_, _, ⟨-, ht⟩ | ⟨-, ht⟩⟩ := nameTarget_yields h <;> cases ht <;>
      simp [Typed.Target.refs]
  · split at h
    · simp at h
    · simp only [Report.yields_bind, Report.yields_pure] at h
      obtain ⟨typed, hc, ht⟩ := h
      rw [Typed.Expr.target?_refs ht.symm]
      exact Source.Expr.check_refs hΓ hc
  · simp only [Report.yields_bind, Report.yields_pure] at h
    obtain ⟨typed, hc, ht⟩ := h
    rw [Typed.Expr.target?_refs ht.symm]
    exact Source.Expr.check_refs hΓ hc
  · simp at h

theorem assign_refs (hΓ : Γ.module.Named) {targets values : List Source.Expr}
    {typed : List Typed.Target} {exprs : List Typed.Expr}
    (h : (Γ.assign targets values loc).Yields (typed, exprs)) :
    ∀ ref ∈ typed.flatMap Typed.Target.refs ++ Typed.Expr.listRefs exprs,
      Γ.module.Declares ref := by
  simp only [assign, Report.yields_bind, Report.yields_pure, Prod.mk.injEq] at h
  obtain ⟨found, hf, list, hv, _, -, rfl, rfl⟩ := h
  rw [List.forall_mem_append]
  refine ⟨fun ref hmem => ?_, Source.Expr.checkValues_refs hΓ hv⟩
  obtain ⟨target, ht, hmem⟩ := List.mem_flatMap.mp hmem
  obtain ⟨_, hfound, heq⟩ := List.mem_filterMap.mp ht
  obtain rfl : _ = some target := heq
  obtain ⟨expr, hexpr⟩ := Report.exists_yields_of_mem_mapM hf _ hfound
  exact target_refs hΓ hexpr ref hmem

theorem declareVars_refs (hΓ : Γ.module.Named) {decls : List Source.Decl}
    {exprs : List Source.Expr} {typed : List Typed.Decl} {values : List Typed.Expr}
    (h : (Γ.declareVars decls exprs loc).Yields ((typed, values), Δ)) :
    ∀ ref ∈ Typed.Expr.listRefs values, Γ.module.Declares ref := by
  simp only [declareVars, Report.yields_bind, Report.yields_pure, Prod.mk.injEq] at h
  obtain ⟨stated, -, list, hv, _, -, _, -, ⟨-, rfl⟩, -⟩ := h
  unfold declaredValues at hv
  split_ifs at hv
  · simp only [Report.yields_bind, Report.yields_pure] at hv
    obtain ⟨_, -, rfl⟩ := hv
    simp [Values.empty, Typed.Expr.listRefs]
  · simp only [Report.yields_bind, Report.yields_pure] at hv
    obtain ⟨_, hv, _, -, rfl⟩ := hv
    exact Source.Expr.checkValues_refs hΓ hv

/-! ### Loop headers -/

theorem numericHeader_refs (hΓ : Γ.module.Named) {decl : Source.Decl} {start limit : Source.Expr}
    {step : Option Source.Expr} {header : NumericHeader}
    (h : (Γ.numericHeader decl start limit step loc).Yields header) :
    ∀ ref ∈ header.start.refs ++ header.limit.refs ++ header.step.refs,
      Γ.module.Declares ref := by
  simp only [numericHeader, Report.yields_bind, Report.yields_pure] at h
  obtain ⟨⟨start', ty⟩, hs, ty', -, limit', hl, step', hstep, rfl⟩ := h
  rw [List.forall_mem_append, List.forall_mem_append]
  refine ⟨⟨?_, Source.Expr.check_refs hΓ hl⟩, ?_⟩
  · simp only [numericStart, Report.yields_bind] at hs
    obtain ⟨stated, -, hs⟩ := hs
    split at hs <;> simp only [Report.yields_bind, Report.yields_pure, Prod.mk.injEq] at hs <;>
      obtain ⟨_, hc, rfl, -⟩ := hs <;> exact Source.Expr.check_refs hΓ hc
  · cases step with
    | some step => exact Source.Expr.check_refs hΓ hstep
    | none =>
      rw [numericStep, Report.yields_pure] at hstep
      rw [hstep, Typed.Expr.one]
      split_ifs <;> simp [Typed.Expr.refs, Typed.ExprKind.refs]

theorem loopValues_refs (hΓ : Γ.module.Named) : ∀ {exprs : List Source.Expr}
    {values : List Typed.Expr}, (Γ.loopValues exprs).Yields values →
      ∀ ref ∈ Typed.Expr.listRefs values, Γ.module.Declares ref
  | [], values, h => by
    rw [loopValues, Report.yields_pure] at h
    simp [h, Typed.Expr.listRefs]
  | expr :: rest, values, h => by
    simp only [loopValues, Report.yields_bind, Report.yields_pure] at h
    obtain ⟨value, hv, values, hvs, rfl⟩ := h
    rw [Typed.Expr.listRefs, List.forall_mem_append]
    exact ⟨Source.Expr.check_refs hΓ hv, loopValues_refs hΓ hvs⟩

theorem loopValues_coerce_refs {want : Nat → Option Want} : ∀ {values values' : List Typed.Expr}
    {position : Nat}, (LoopValues.coerce want position values).Yields values' →
      Typed.Expr.listRefs values' = Typed.Expr.listRefs values
  | [], values', _, h => by
    rw [LoopValues.coerce, Report.yields_pure] at h
    rw [h]
  | [last], values', position, h => by
    rw [LoopValues.coerce] at h
    split at h
    · rw [Report.yields_pure] at h
      rw [h]
    · simp only [Report.yields_bind, Report.yields_pure] at h
      obtain ⟨value, hv, rfl⟩ := h
      simp only [Typed.Expr.listRefs, Typed.Expr.coerce?_refs hv]
    · simp only [Report.yields_bind, Report.yields_pure] at h
      obtain ⟨value, hv, rfl⟩ := h
      simp only [Typed.Expr.listRefs, Typed.Expr.spread_refs hv]
  | expr :: next :: rest, values', position, h => by
    rw [LoopValues.coerce] at h
    · simp only [Report.yields_bind, Report.yields_pure] at h
      obtain ⟨value, hv, values, hvs, rfl⟩ := h
      rw [Typed.Expr.listRefs, Typed.Expr.coerce?_refs hv, loopValues_coerce_refs hvs,
        ← Typed.Expr.listRefs]
    · simp

theorem iterate_refs (hΓ : Γ.module.Named) {exprs : List Source.Expr} {iterated : Iterated}
    (h : (Γ.iterate exprs loc).Yields iterated) :
    ∀ ref ∈ iterated.iteration.refs, Γ.module.Declares ref := by
  unfold iterate at h
  split at h
  · simp only [ipairsLoop, Report.yields_bind] at h
    obtain ⟨args, ha, _, -, h⟩ := h
    split at h
    · rw [Report.yields_pure] at h
      simp [h, Typed.Iteration.refs, Typed.Expr.listRefs]
    · simp only [Report.yields_bind, Report.yields_pure] at h
      obtain ⟨_, -, rfl⟩ := h
      obtain ⟨_, hc⟩ := Report.exists_yields_of_mem_mapM ha _ List.mem_cons_self
      exact Source.Expr.check_refs hΓ hc
  · simp only [iteratorLoop, Report.yields_bind] at h
    obtain ⟨values, hv, h⟩ := h
    have hrefs := loopValues_refs hΓ hv
    split at h
    · obtain ⟨values', hc, rfl⟩ : ∃ values', (LoopValues.coerce _ 0 values).Yields values' ∧
          iterated = ⟨.generic values', some _⟩ := by
        split_ifs at h
        · simpa only [Report.yields_bind, Report.yields_pure] using h
        · simp only [Report.yields_bind, Report.yields_pure] at h
          obtain ⟨_, -, h⟩ := h
          exact h
      rw [Typed.Iteration.refs, loopValues_coerce_refs hc]
      exact hrefs
    · simp at h
    · rw [Report.yields_pure] at h
      rw [h]
      exact hrefs
    · simp at h

end Context

/-! ### Statements -/

namespace Source.Stmt

theorem refs_nestArms {draft : ModuleDraft} {arms : List (Typed.Expr × Typed.Block)}
    {elseBlock : Typed.Block}
    (ha : ∀ arm ∈ arms, ∀ ref ∈ arm.1.refs ++ Typed.Stmt.listRefs arm.2, draft.Declares ref)
    (he : ∀ ref ∈ Typed.Stmt.listRefs elseBlock, draft.Declares ref) :
    ∀ ref ∈ Typed.Stmt.listRefs (nestArms arms elseBlock), draft.Declares ref := by
  induction arms with
  | nil => exact he
  | cons arm rest ih =>
    rw [List.forall_mem_cons] at ha
    have hnest : nestArms (arm :: rest) elseBlock =
        [.branch arm.1 arm.2 (nestArms rest elseBlock) arm.1.loc] := rfl
    rw [hnest, Typed.Stmt.listRefs, Typed.Stmt.listRefs, Typed.Stmt.refs, List.append_nil,
      List.forall_mem_append]
    exact ⟨ha.1, ih ha.2⟩

mutual

/-- **The references of a statement** are declared. -/
theorem check_refs : ∀ {stmt : Source.Stmt} {Γ Δ : Context} {t : Typed.Stmt}, Γ.module.Named →
    (check Γ stmt).Yields (t, Δ) → ∀ ref ∈ t.refs, Γ.module.Declares ref
  | .declare decls values loc, Γ, Δ, t, hΓ, h => by
    simp only [check, Report.yields_bind, Report.yields_pure, Prod.mk.injEq] at h
    obtain ⟨⟨⟨typed, exprs⟩, Δ'⟩, hd, rfl, -⟩ := h
    rw [Typed.Stmt.refs]
    exact Context.declareVars_refs hΓ hd
  | .assign targets values loc, Γ, Δ, t, hΓ, h => by
    simp only [check, Report.yields_bind, Report.yields_pure, Prod.mk.injEq] at h
    obtain ⟨⟨typed, exprs⟩, ha, rfl, -⟩ := h
    rw [Typed.Stmt.refs]
    exact Context.assign_refs hΓ ha
  | .call expr loc, Γ, Δ, t, hΓ, h => by
    simp only [check, Report.yields_bind, Report.yields_pure, Prod.mk.injEq] at h
    obtain ⟨typed, hc, rfl, -⟩ := h
    rw [Typed.Stmt.refs]
    exact Expr.check_refs hΓ hc
  | .block body loc, Γ, Δ, t, hΓ, h => by
    simp only [check, Report.yields_bind, Report.yields_pure, Prod.mk.injEq] at h
    obtain ⟨⟨typed, _⟩, hb, rfl, -⟩ := h
    rw [Typed.Stmt.refs]
    exact checkBlock_refs (Γ := Γ.enter) hΓ hb
  | .whileDo condition body loc, Γ, Δ, t, hΓ, h => by
    simp only [check, Report.yields_bind, Report.yields_pure, Prod.mk.injEq] at h
    obtain ⟨typed, hc, ⟨body', _⟩, hb, rfl, -⟩ := h
    rw [Typed.Stmt.refs, List.forall_mem_append]
    exact ⟨Expr.check_refs hΓ hc, checkBlock_refs (Γ := Γ.enterLoop) hΓ hb⟩
  | .repeatUntil body condition loc, Γ, Δ, t, hΓ, h => by
    simp only [check, Report.yields_bind, Report.yields_pure, Prod.mk.injEq] at h
    obtain ⟨⟨body', Γ'⟩, hb, typed, hc, rfl, -⟩ := h
    have hmodule : Γ'.module = Γ.module := (sameButVars_of_checkBlock hb).module
    rw [Typed.Stmt.refs, List.forall_mem_append]
    refine ⟨checkBlock_refs (Γ := Γ.enterLoop) hΓ hb, ?_⟩
    rw [← hmodule] at hΓ ⊢
    exact Expr.check_refs hΓ hc
  | .branch condition thenBlock arms elseBlock loc, Γ, Δ, t, hΓ, h => by
    simp only [check, Report.yields_bind, Report.yields_pure, Prod.mk.injEq] at h
    obtain ⟨typed, hc, ⟨thenBlock', _⟩, ht, arms', ha, elseBlock', he, rfl, -⟩ := h
    rw [Typed.Stmt.refs, List.forall_mem_append, List.forall_mem_append]
    exact ⟨⟨Expr.check_refs hΓ hc, checkBlock_refs (Γ := Γ.enter) hΓ ht⟩,
      refs_nestArms (checkArms_refs hΓ ha) (checkElse_refs hΓ he)⟩
  | .numericFor decl start limit step body loc, Γ, Δ, t, hΓ, h => by
    simp only [check, Report.yields_bind, Report.yields_pure, Prod.mk.injEq] at h
    obtain ⟨header, hh, Γ', hd, ⟨body', _⟩, hb, rfl, -⟩ := h
    have hmodule : Γ'.module = Γ.module := (Context.sameButVars_of_declareAll hd).module
    rw [Typed.Stmt.refs, List.forall_mem_append]
    refine ⟨Context.numericHeader_refs hΓ hh, ?_⟩
    rw [← hmodule] at hΓ ⊢
    exact checkBlock_refs hΓ hb
  | .genericFor decls values body loc, Γ, Δ, t, hΓ, h => by
    simp only [check, Report.yields_bind, Report.yields_pure, Prod.mk.injEq] at h
    obtain ⟨iterated, hi, typed, -, Γ', hd, ⟨body', _⟩, hb, rfl, -⟩ := h
    have hmodule : Γ'.module = Γ.module := (Context.sameButVars_of_declareAll hd).module
    rw [Typed.Stmt.refs, List.forall_mem_append]
    refine ⟨Context.iterate_refs hΓ hi, ?_⟩
    rw [← hmodule] at hΓ ⊢
    exact checkBlock_refs hΓ hb
  | .ret values loc, Γ, Δ, t, hΓ, h => by
    simp only [check, Report.yields_bind, Report.yields_pure, Prod.mk.injEq] at h
    obtain ⟨list, hv, _, -, rfl, -⟩ := h
    rw [Typed.Stmt.refs]
    exact Expr.checkValues_refs hΓ hv
  | .brk loc, Γ, Δ, t, hΓ, h => by
    simp only [check, Report.yields_bind, Report.yields_pure, Prod.mk.injEq] at h
    obtain ⟨_, -, rfl, -⟩ := h
    simp [Typed.Stmt.refs]

theorem checkBlock_refs : ∀ {stmts : List Source.Stmt} {Γ Δ : Context} {typed : List Typed.Stmt},
    Γ.module.Named → (checkBlock Γ stmts).Yields (typed, Δ) →
      ∀ ref ∈ Typed.Stmt.listRefs typed, Γ.module.Declares ref
  | [], Γ, Δ, typed, hΓ, h => by
    simp only [checkBlock, Report.yields_pure, Prod.mk.injEq] at h
    simp [h.1, Typed.Stmt.listRefs]
  | stmt :: rest, Γ, Δ, typed, hΓ, h => by
    simp only [checkBlock, Report.yields_bind, Report.yields_pure, Prod.mk.injEq] at h
    obtain ⟨⟨t, Γ'⟩, hs, ⟨ts, Δ'⟩, hr, rfl, rfl⟩ := h
    have hmodule : Γ'.module = Γ.module := (sameButVars_of_check hs).module
    rw [Typed.Stmt.listRefs, List.forall_mem_append]
    refine ⟨check_refs hΓ hs, ?_⟩
    rw [← hmodule] at hΓ ⊢
    exact checkBlock_refs hΓ hr

theorem checkArms_refs : ∀ {arms : List Arm} {Γ : Context}
    {typed : List (Typed.Expr × Typed.Block)}, Γ.module.Named → (checkArms Γ arms).Yields typed →
      ∀ arm ∈ typed, ∀ ref ∈ arm.1.refs ++ Typed.Stmt.listRefs arm.2, Γ.module.Declares ref
  | [], Γ, typed, hΓ, h => by
    rw [checkArms, Report.yields_pure] at h
    simp [h]
  | ⟨condition, body⟩ :: rest, Γ, typed, hΓ, h => by
    simp only [checkArms, Report.yields_bind, Report.yields_pure] at h
    obtain ⟨condition', hc, ⟨body', _⟩, hb, arms', ha, rfl⟩ := h
    rw [List.forall_mem_cons, List.forall_mem_append]
    exact ⟨⟨Expr.check_refs hΓ hc, checkBlock_refs (Γ := Γ.enter) hΓ hb⟩, checkArms_refs hΓ ha⟩

theorem checkElse_refs : ∀ {body : Option (List Source.Stmt)} {Γ : Context}
    {typed : List Typed.Stmt}, Γ.module.Named → (checkElse Γ body).Yields typed →
      ∀ ref ∈ Typed.Stmt.listRefs typed, Γ.module.Declares ref
  | none, Γ, typed, hΓ, h => by
    rw [checkElse, Report.yields_pure] at h
    simp [h, Typed.Stmt.listRefs]
  | some body, Γ, typed, hΓ, h => by
    simp only [checkElse, Report.yields_bind, Report.yields_pure] at h
    obtain ⟨⟨body', _⟩, hb, rfl⟩ := h
    exact checkBlock_refs (Γ := Γ.enter) hΓ hb

end

end Source.Stmt

end LuaTyping
