import LuaTyping.Proofs.Soundness.Loop

/-!
# Checked statements are well typed

A statement that is checked in a proper context inside a function is well typed in the environment
of the context, and the environment behind it is that of the context behind it (`check_stmt`).
-/

namespace LuaTyping

open Typed (Env)

namespace Source.Stmt

/-- The arms of an `if` are nested without layers of their own. -/
theorem nestArms_stmts {E : Env} {arms : List (Typed.Expr × Typed.Block)}
    {elseBlock : Typed.Block}
    (ha : ∀ arm ∈ arms, E.Value arm.1 ∧ arm.1.ty = .boolean ∧ ∃ E', E.Stmts arm.2 E')
    (he : ∃ E', E.Stmts elseBlock E') : ∃ E', E.Stmts (nestArms arms elseBlock) E' := by
  induction arms with
  | nil => exact he
  | cons arm rest ih =>
    rw [List.forall_mem_cons] at ha
    obtain ⟨⟨hv, hb, E₁, hthen⟩, hrest⟩ := ha
    obtain ⟨E₂, helse⟩ := ih hrest
    exact ⟨E, .cons (.branch hv hb hthen helse) .nil⟩

theorem check_condition {Γ : Context} (hΓ : Γ.Proper false) {condition : Source.Expr} {site : Site}
    {t : Typed.Expr} (h : (condition.check Γ (.ofType ⟨.boolean, site⟩)).Yields t) :
    Γ.env.Value t ∧ t.ty = .boolean :=
  ⟨Expr.check_ofType_value hΓ rfl h, (Expr.check_agrees hΓ rfl h).eq_boolean⟩

mutual

/-- **Statements are well typed.** -/
theorem check_stmt : ∀ {stmt : Source.Stmt} {Γ Δ : Context} {t : Typed.Stmt}, Γ.Proper false →
    Γ.varKind = .inner → (check Γ stmt).Yields (t, Δ) → Γ.env.Stmt t Δ.env
  | .declare decls values loc, Γ, Δ, t, hΓ, hk, h => by
    simp only [check, Report.yields_bind, Report.yields_pure, Prod.mk.injEq] at h
    obtain ⟨⟨⟨typed, exprs⟩, Δ'⟩, hd, rfl, rfl⟩ := h
    obtain ⟨hdecl, hall⟩ := Context.declareVars_declares hΓ hd
    rw [hk] at hall
    rw [Context.env_declareAll hall]
    exact .declare hdecl
  | .assign targets values loc, Γ, Δ, t, hΓ, _, h => by
    simp only [check, Report.yields_bind, Report.yields_pure, Prod.mk.injEq] at h
    obtain ⟨⟨typed, exprs⟩, ha, rfl, rfl⟩ := h
    obtain ⟨ht, hv, hagrees⟩ := Context.assign_typed hΓ ha
    exact .assign ht hv hagrees
  | .call expr loc, Γ, Δ, t, hΓ, _, h => by
    simp only [check, Report.yields_bind, Report.yields_pure, Prod.mk.injEq] at h
    obtain ⟨typed, hc, rfl, rfl⟩ := h
    split_ifs at hc
    · exact .call (Expr.check_results hΓ Demand.proper_results hc)
    · exact .call (Expr.check_results hΓ Demand.proper_value hc)
  | .block body loc, Γ, Δ, t, hΓ, _, h => by
    simp only [check, Report.yields_bind, Report.yields_pure, Prod.mk.injEq] at h
    obtain ⟨⟨typed, Δ'⟩, hb, rfl, rfl⟩ := h
    have hbody := checkBlock_stmts hΓ.enter rfl hb
    exact .block hbody
  | .whileDo condition body loc, Γ, Δ, t, hΓ, _, h => by
    simp only [check, Report.yields_bind, Report.yields_pure, Prod.mk.injEq] at h
    obtain ⟨typed, hc, ⟨body', Δ'⟩, hb, rfl, rfl⟩ := h
    obtain ⟨hv, hty⟩ := check_condition hΓ hc
    exact .whileDo hv hty (checkBlock_stmts hΓ.enterLoop rfl hb)
  | .repeatUntil body condition loc, Γ, Δ, t, hΓ, _, h => by
    simp only [check, Report.yields_bind, Report.yields_pure, Prod.mk.injEq] at h
    obtain ⟨⟨body', Γ'⟩, hb, typed, hc, rfl, rfl⟩ := h
    obtain ⟨hv, hty⟩ := check_condition (checkBlock_context_proper hΓ.enterLoop hb).1 hc
    exact .repeatUntil (checkBlock_stmts hΓ.enterLoop rfl hb) hv hty
  | .branch condition thenBlock arms elseBlock loc, Γ, Δ, t, hΓ, _, h => by
    simp only [check, Report.yields_bind, Report.yields_pure, Prod.mk.injEq] at h
    obtain ⟨typed, hc, ⟨thenBlock', Δ'⟩, ht, arms', ha, elseBlock', he, rfl, rfl⟩ := h
    obtain ⟨hv, hty⟩ := check_condition hΓ hc
    obtain ⟨E', helse⟩ := nestArms_stmts (checkArms_stmts hΓ ha) (checkElse_stmts hΓ he)
    have hthen := checkBlock_stmts hΓ.enter rfl ht
    exact .branch hv hty hthen helse
  | .numericFor decl start limit step body loc, Γ, Δ, t, hΓ, _, h => by
    simp only [check, Report.yields_bind, Report.yields_pure, Prod.mk.injEq] at h
    obtain ⟨header, hh, Γ', hd, ⟨body', Δ'⟩, hb, rfl, rfl⟩ := h
    obtain ⟨hn, hi, hstart, hlimit, hstep⟩ := Context.numericHeader_typed hΓ hh
    obtain ⟨hΓ', hk'⟩ := hΓ.loopBody (Context.numericHeader_proper hΓ hh) hd
    have hbody := checkBlock_stmts hΓ' hk' hb
    rw [Context.env_declareAll hd] at hbody
    exact .numericFor hn hi hstart.1 hstart.2 hlimit.1 hlimit.2 hstep.1 hstep.2 hbody
  | .genericFor decls values body loc, Γ, Δ, t, hΓ, _, h => by
    simp only [check, Report.yields_bind, Report.yields_pure, Prod.mk.injEq] at h
    obtain ⟨iterated, hi, typed, hv, Γ', hd, ⟨body', Δ'⟩, hb, rfl, rfl⟩ := h
    obtain ⟨hΓ', hk'⟩ := hΓ.loopBody (Context.genericHeader_proper hΓ hi hv) hd
    have hbody := checkBlock_stmts hΓ' hk' hb
    rw [Context.env_declareAll hd] at hbody
    obtain ⟨types, hprod, hiter⟩ := Context.iterate_iterates hΓ hi
    obtain ⟨types', hprod', hp⟩ := Context.iterate_proper hΓ hi
    rw [hprod] at hprod' hv
    cases hprod'
    exact .genericFor hiter (Context.loopVars_binds hΓ hp hv) hbody
  | .ret values loc, Γ, Δ, t, hΓ, _, h => by
    simp only [check, Report.yields_bind, Report.yields_require, Report.yields_pure,
      Prod.mk.injEq] at h
    obtain ⟨list, hv, _, hfit, rfl, rfl⟩ := h
    have he : ∀ ty, some ty ∈ Δ.returns.map some → ty.proper false = true := by
      simpa using hΓ.returns
    obtain ⟨hu, -⟩ := Expr.checkValues_proper hΓ he hv
    have hlen := Values.length_of_fits hu hfit
    have hmeets := Expr.checkValues_meets hΓ he hv
    rw [Expr.checkValues_flatTypes hv] at hmeets hlen
    exact .ret (Expr.checkValues_values hΓ he hv) (hmeets.forall₂ hlen)
  | .brk loc, Γ, Δ, t, hΓ, _, h => by
    simp only [check, Report.yields_bind, Report.yields_require, Report.yields_pure,
      Prod.mk.injEq] at h
    obtain ⟨_, hloop, rfl, rfl⟩ := h
    exact .brk hloop

theorem checkBlock_stmts : ∀ {stmts : List Source.Stmt} {Γ Δ : Context} {typed : List Typed.Stmt},
    Γ.Proper false → Γ.varKind = .inner → (checkBlock Γ stmts).Yields (typed, Δ) →
      Γ.env.Stmts typed Δ.env
  | [], Γ, Δ, typed, _, _, h => by
    simp only [checkBlock, Report.yields_pure, Prod.mk.injEq] at h
    obtain ⟨rfl, rfl⟩ := h
    exact .nil
  | stmt :: rest, Γ, Δ, typed, hΓ, hk, h => by
    simp only [checkBlock, Report.yields_bind, Report.yields_pure, Prod.mk.injEq] at h
    obtain ⟨⟨t, Γ'⟩, hs, ⟨ts, Δ'⟩, hr, rfl, rfl⟩ := h
    obtain ⟨hΓ', hk'⟩ := check_context_proper hΓ hs
    exact .cons (check_stmt hΓ hk hs) (checkBlock_stmts hΓ' (hk'.trans hk) hr)

theorem checkArms_stmts : ∀ {arms : List Arm} {Γ : Context}
    {typed : List (Typed.Expr × Typed.Block)}, Γ.Proper false → (checkArms Γ arms).Yields typed →
      ∀ arm ∈ typed, Γ.env.Value arm.1 ∧ arm.1.ty = .boolean ∧ ∃ E', Γ.env.Stmts arm.2 E'
  | [], Γ, typed, hΓ, h => by
    rw [checkArms, Report.yields_pure] at h
    simp [h]
  | ⟨condition, body⟩ :: rest, Γ, typed, hΓ, h => by
    simp only [checkArms, Report.yields_bind, Report.yields_pure] at h
    obtain ⟨condition', hc, ⟨body', Δ'⟩, hb, arms', ha, rfl⟩ := h
    obtain ⟨hv, hty⟩ := check_condition hΓ hc
    have hbody := checkBlock_stmts hΓ.enter rfl hb
    rw [List.forall_mem_cons]
    exact ⟨⟨hv, hty, _, hbody⟩, checkArms_stmts hΓ ha⟩

theorem checkElse_stmts : ∀ {body : Option (List Source.Stmt)} {Γ : Context}
    {typed : List Typed.Stmt}, Γ.Proper false → (checkElse Γ body).Yields typed →
      ∃ E', Γ.env.Stmts typed E'
  | none, Γ, typed, hΓ, h => by
    rw [checkElse, Report.yields_pure] at h
    rw [h]
    exact ⟨_, .nil⟩
  | some body, Γ, typed, hΓ, h => by
    simp only [checkElse, Report.yields_bind, Report.yields_pure] at h
    obtain ⟨⟨body', Δ'⟩, hb, rfl⟩ := h
    have hbody := checkBlock_stmts hΓ.enter rfl hb
    exact ⟨_, hbody⟩

end

end Source.Stmt

end LuaTyping
