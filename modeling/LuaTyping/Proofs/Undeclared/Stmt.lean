import LuaTyping.Proofs.Proper.Stmt
import LuaTyping.Proofs.Undeclared.Loop

/-!
# Statements with types that are unknown in part

A statement in a blurred context shows the replaced annotations in it, shows other faults exactly if
it is not quiet, and leads to a blurred context (`check_leads`).
-/

namespace LuaTyping

variable {ρ : String → NameMap Ty} {N : String}

/-- The body of a loop is checked in contexts with the variables of the loop. -/
theorem Context.Tracks.loopBody {Γ Γ' Δ : Context} {u v : List Location}
    {decls decls' : List Typed.Decl} (hT : Γ.Tracks ρ N (u ++ v) Γ')
    (hd : List.Forall₂ (Typed.Decl.Blurs ρ) decls decls')
    (h : (Context.declareAll .inner decls Γ.enterLoop).Yields Δ)
    (hs : u = [] → Γ' = Γ → decls' = decls) :
    ∃ Δ', (Context.declareAll .inner decls' Γ'.enterLoop).Yields Δ' ∧ Δ.Tracks ρ N v Δ' := by
  obtain ⟨Δ', hd', hΔ⟩ := hT.blurs.enterLoop.declareAll hd h
  refine ⟨Δ', hd', hT.next hΔ fun hu hΓ => ?_⟩
  rw [hs hu hΓ, hΓ] at hd'
  exact hd'.unique h

namespace Source.Stmt

/-- An arm of an `if` is quiet. -/
def quietArm (arm : Typed.Expr × Typed.Block) : Bool :=
  arm.1.quiet && Typed.Stmt.quietList arm.2

theorem quiet_nestArms {arms : List (Typed.Expr × Typed.Block)} {elseBlock : Typed.Block} :
    Typed.Stmt.quietList (nestArms arms elseBlock) =
      (arms.all quietArm && Typed.Stmt.quietList elseBlock) := by
  induction arms with
  | nil => rfl
  | cons arm rest ih =>
    rw [nestArms] at ih ⊢
    simp only [List.foldr_cons, Typed.Stmt.quietList, Typed.Stmt.quiet, ih, List.all_cons, quietArm,
      Bool.and_true, Bool.and_assoc]

theorem condition_shows {Γ Γ' : Context} (hΓ : Γ.Proper false) {u : List Location} {site : Site}
    {condition condition' : Source.Expr} {t : Typed.Expr} (hT : Γ.Tracks ρ N u Γ')
    (he : condition.Edits N u condition')
    (h : (condition.check Γ (.ofType ⟨.boolean, site⟩)).Yields t) :
    (condition'.check Γ' (.ofType ⟨.boolean, site⟩)).Shows N u
      (condition'.check Γ' (.ofType ⟨.boolean, site⟩)).value.quiet :=
  (Expr.check_mirrors hΓ hT he (Demand.proper_ofType rfl) (Demand.blurs_ofType .boolean)
    (fun _ => rfl) h).shows_value

/-- As many values are returned as before, for the blurred types of the results. -/
theorem ret_leads {Γ Γ' : Context} (hΓ : Γ.Proper false) {u : List Location}
    {values values' : List Source.Expr} {list : Values} {loc : Location} (hT : Γ.Tracks ρ N u Γ')
    (hv : EditsEach (Expr.Edits N) u values values')
    (hlist : (Expr.checkValues Γ (fun i => .returnValue (i + 1)) values (Γ.returns.map some)
      0).Yields list) (hfit : list.fits Γ.returns.length = true) :
    (check Γ' (.ret values' loc)).Leads ρ N u Typed.Stmt.quiet Γ := by
  have hreturns : List.Forall₂ (Ty.Blurs ρ) Γ.returns Γ'.returns := hT.blurs.env.returns
  have hp : ∀ ty, some ty ∈ Γ.returns.map some → ty.proper false = true := by
    simpa using hΓ.returns
  have hl := Expr.checkValues_lists hΓ hT hv hp (.of_types hreturns)
    (fun hne => by rw [hT.same hne]) hlist
  have hfits := hl.shadows.fits (Expr.checkValues_proper hΓ hp hlist).1 hfit
  rw [hreturns.length_eq] at hfits
  simp only [check]
  exact ⟨hl.shows_values.bind_shown (.bind_pure (.of_require hfits)), hT.blurs⟩

mutual

/-- **Statements with blurred types** show the replaced annotations and lead to a blurred
context. -/
theorem check_leads : ∀ {stmt stmt' : Source.Stmt} {u : List Location} {Γ Γ' Δ : Context}
    {t : Typed.Stmt}, Γ.Proper false → Γ.Tracks ρ N u Γ' → stmt.Edits N u stmt' →
      (check Γ stmt).Yields (t, Δ) → (check Γ' stmt').Leads ρ N u Typed.Stmt.quiet Δ
  | .declare decls values loc, _, _, Γ, Γ', Δ, t, hΓ, hT, he, h => by
    cases he with
    | declare hd hv =>
      simp only [check, Report.yields_bind, Report.yields_pure, Prod.mk.injEq] at h
      obtain ⟨⟨⟨typed, exprs⟩, Δ'⟩, hdecl, -, rfl⟩ := h
      have hl := Context.declareVars_leads hΓ hT hd hv hdecl
      simp only [check]
      exact ⟨hl.shows.bind_pure, hl.context⟩
  | .assign targets values loc, _, _, Γ, Γ', Δ, t, hΓ, hT, he, h => by
    cases he with
    | assign ht hv =>
      simp only [check, Report.yields_bind, Report.yields_pure, Prod.mk.injEq] at h
      obtain ⟨⟨typed, exprs⟩, ha, -, rfl⟩ := h
      have hs := Context.assign_shows hΓ hT ht hv ha
      simp only [check]
      exact ⟨hs.bind_pure, hT.blurs⟩
  | .call expr loc, _, _, Γ, Γ', Δ, t, hΓ, hT, he, h => by
    cases he with
    | call he =>
      simp only [check, Report.yields_bind, Report.yields_pure, Prod.mk.injEq] at h
      obtain ⟨typed, hc, -, rfl⟩ := h
      simp only [check, he.isCall_eq]
      split_ifs at hc ⊢
      · exact ⟨(Expr.check_mirrors hΓ hT he Demand.proper_results .results (fun _ => rfl)
          hc).shows_value.bind_pure, hT.blurs⟩
      · exact ⟨(Expr.check_mirrors hΓ hT he Demand.proper_value .value (fun _ => rfl)
          hc).shows_value.bind_pure, hT.blurs⟩
  | .block body loc, _, _, Γ, Γ', Δ, t, hΓ, hT, he, h => by
    cases he with
    | block hb =>
      simp only [check, Report.yields_bind, Report.yields_pure, Prod.mk.injEq] at h
      obtain ⟨⟨typed, Δ'⟩, hbody, -, rfl⟩ := h
      have hl := checkBlock_leads hΓ.enter hT.enter hb hbody
      simp only [check]
      exact ⟨hl.shows.bind_pure, hT.blurs⟩
  | .whileDo condition body loc, _, _, Γ, Γ', Δ, t, hΓ, hT, he, h => by
    cases he with
    | whileDo hc hb =>
      simp only [check, Report.yields_bind, Report.yields_pure, Prod.mk.injEq] at h
      obtain ⟨typed, hcond, ⟨body', Δ'⟩, hbody, -, rfl⟩ := h
      have hs := condition_shows hΓ hT.left hc hcond
      have hl := checkBlock_leads hΓ.enterLoop hT.right.enterLoop hb hbody
      simp only [check]
      exact ⟨hs.bind hl.shows.bind_pure, hT.blurs⟩
  | .repeatUntil body condition loc, _, _, Γ, Γ', Δ, t, hΓ, hT, he, h => by
    cases he with
    | @repeatUntil u v _ body' _ condition' _ hb hc =>
      simp only [check, Report.yields_bind, Report.yields_pure, Prod.mk.injEq] at h
      obtain ⟨⟨typed, Γ₁⟩, hbody, cond, hcond, -, rfl⟩ := h
      have hl := checkBlock_leads hΓ.enterLoop hT.left.enterLoop hb hbody
      have hnext : Γ₁.Tracks ρ N v (checkBlock Γ'.enterLoop body').value.2 := by
        refine hT.next hl.context fun hu hΓ' => ?_
        rw [Edits.list_eq_of_nil hb hu, hΓ', hbody.value_eq]
      have hs := condition_shows (checkBlock_context_proper hΓ.enterLoop hbody).1 hnext hc hcond
      simp only [check]
      exact ⟨hl.shows.bind hs.bind_pure, hT.blurs⟩
  | .branch condition thenBlock arms elseBlock loc, _, _, Γ, Γ', Δ, t, hΓ, hT, he, h => by
    cases he with
    | branch hc ht ha he =>
      simp only [check, Report.yields_bind, Report.yields_pure, Prod.mk.injEq] at h
      obtain ⟨typed, hcond, ⟨thenBlock', Δ'⟩, hthen, arms', harms, elseBlock', helse, -, rfl⟩ := h
      have hs := condition_shows hΓ hT.left hc hcond
      have hl := checkBlock_leads hΓ.enter hT.right.left.enter ht hthen
      have hsa := checkArms_shows hΓ hT.right.right.left ha harms
      have hse := checkElse_shows hΓ hT.right.right.right he helse
      refine ⟨?_, hT.blurs⟩
      simp only [check, Report.value_bind, Report.value_pure, Typed.Stmt.quiet, quiet_nestArms]
      exact hs.bind (hl.shows.bind (hsa.bind hse.bind_pure))
  | .numericFor decl start limit step body loc, _, _, Γ, Γ', Δ, t, hΓ, hT, he, h => by
    cases he with
    | @numericFor u v w x y _ decl' _ start' _ limit' _ step' _ body' _ hd hs hl hst hb =>
      have hassoc : u ++ (v ++ (w ++ (x ++ y))) = u ++ v ++ (w ++ x) ++ y := by simp
      rw [hassoc] at hT ⊢
      simp only [check, Report.yields_bind, Report.yields_pure, Prod.mk.injEq] at h
      obtain ⟨header, hheader, Γ₁, hdecl, ⟨typed, Δ'⟩, hbody, -, rfl⟩ := h
      obtain ⟨hshows, hblurs⟩ := Context.numericHeader_shows hΓ hT.left hd hs hl hst hheader
      obtain ⟨Γ₁', hdecl', hT₁⟩ := hT.loopBody (.cons hblurs .nil) hdecl fun hu hΓ' => by
        have hu₁ := append_eq_nil_left hu
        have hu₂ := append_eq_nil_right hu
        rw [hd.eq_of_nil (append_eq_nil_left hu₁), hs.eq_of_nil (append_eq_nil_right hu₁),
          hl.eq_of_nil (append_eq_nil_left hu₂), Expr.Edits.option_eq_of_nil hst
          (append_eq_nil_right hu₂), hΓ', hheader.value_eq]
      obtain ⟨hΓ₁, -⟩ := hΓ.loopBody (Context.numericHeader_proper hΓ hheader) hdecl
      have hbl := checkBlock_leads hΓ₁ hT₁ hb hbody
      refine ⟨?_, hT.blurs⟩
      simp only [check, Report.value_bind, Report.value_pure, hdecl'.value_eq, Typed.Stmt.quiet]
      rw [← Bool.and_assoc, ← Bool.and_assoc, Bool.and_assoc (Typed.Expr.quiet _)]
      refine hshows.bind ?_
      rw [hdecl'.bind_eq]
      exact hbl.shows.bind_pure
  | .genericFor decls values body loc, _, _, Γ, Γ', Δ, t, hΓ, hT, he, h => by
    cases he with
    | @genericFor u v w _ decls' _ values' _ body' _ hv hd hb =>
      rw [← List.append_assoc] at hT ⊢
      simp only [check, Report.yields_bind, Report.yields_pure, Prod.mk.injEq] at h
      obtain ⟨iterated, hi, vars, hvars, Γ₁, hdecl, ⟨typed, Δ'⟩, hbody, -, rfl⟩ := h
      obtain ⟨hshows, hproduced⟩ := Context.iterate_shows hΓ hT.left.left hv hi
      obtain ⟨types, htypes, hp⟩ := Context.iterate_proper hΓ hi
      have hvars₁ := hvars
      rw [htypes] at hproduced hvars₁
      obtain ⟨hvs, hblurs⟩ := Context.loopVars_shows hΓ hT.left.right hd hp hproduced hvars₁
      obtain ⟨Γ₁', hdecl', hT₁⟩ := hT.loopBody hblurs hdecl fun hu hΓ' => by
        rw [Expr.Edits.list_eq_of_nil hv (append_eq_nil_left hu),
          Decl.Edits.list_eq_of_nil hd (append_eq_nil_right hu), hΓ', hi.value_eq, hvars.value_eq]
      obtain ⟨hΓ₁, -⟩ := hΓ.loopBody (Context.genericHeader_proper hΓ hi hvars) hdecl
      have hbl := checkBlock_leads hΓ₁ hT₁ hb hbody
      refine ⟨?_, hT.blurs⟩
      simp only [check, Report.value_bind, Report.value_pure, hdecl'.value_eq, Typed.Stmt.quiet]
      rw [List.append_assoc]
      refine hshows.bind (hvs.bind_after ?_)
      rw [hdecl'.bind_eq]
      exact hbl.shows.bind_pure
  | .ret values loc, _, u, Γ, Γ', Δ, t, hΓ, hT, he, h => by
    cases he with
    | ret hv =>
      simp only [check, Report.yields_bind, Report.yields_require, Report.yields_pure,
        Prod.mk.injEq] at h
      obtain ⟨list, hlist, _, hfit, -, rfl⟩ := h
      exact ret_leads hΓ hT hv hlist hfit
  | .brk loc, _, _, Γ, Γ', Δ, t, hΓ, hT, he, h => by
    cases he
    simp only [check, Report.yields_bind, Report.yields_require, Report.yields_pure,
      Prod.mk.injEq] at h
    obtain ⟨_, hloop, -, rfl⟩ := h
    have hloop' : Γ'.inLoop = true := hT.blurs.env.inLoop.trans hloop
    simp only [check]
    exact ⟨.bind_pure (.of_require hloop'), hT.blurs⟩
termination_by structural stmt => stmt

theorem checkBlock_leads : ∀ {stmts stmts' : List Source.Stmt} {u : List Location}
    {Γ Γ' Δ : Context} {typed : List Typed.Stmt}, Γ.Proper false → Γ.Tracks ρ N u Γ' →
      EditsEach (Stmt.Edits N) u stmts stmts' → (checkBlock Γ stmts).Yields (typed, Δ) →
        (checkBlock Γ' stmts').Leads ρ N u Typed.Stmt.quietList Δ
  | [], _, _, Γ, Γ', Δ, typed, hΓ, hT, he, h => by
    cases he
    simp only [checkBlock, Report.yields_pure, Prod.mk.injEq] at h
    obtain ⟨-, rfl⟩ := h
    rw [checkBlock]
    exact ⟨.of_faults_eq_nil rfl, hT.blurs⟩
  | stmt :: rest, _, _, Γ, Γ', Δ, typed, hΓ, hT, he, h => by
    cases he with
    | @cons u v _ stmt' _ rest' hs hss =>
      simp only [checkBlock, Report.yields_bind, Report.yields_pure, Prod.mk.injEq] at h
      obtain ⟨⟨t, Γ₁⟩, hstmt, ⟨ts, Δ'⟩, hrest, -, rfl⟩ := h
      have hl := check_leads hΓ hT.left hs hstmt
      have hnext : Γ₁.Tracks ρ N v (check Γ' stmt').value.2 := by
        refine hT.next hl.context fun hu hΓ' => ?_
        rw [hs.eq_of_nil hu, hΓ', hstmt.value_eq]
      have hls := checkBlock_leads (check_context_proper hΓ hstmt).1 hnext hss hrest
      simp only [checkBlock]
      exact ⟨hl.shows.bind hls.shows.bind_pure, hls.context⟩
termination_by structural stmts => stmts

theorem checkArms_shows : ∀ {arms arms' : List Arm} {u : List Location} {Γ Γ' : Context}
    {typed : List (Typed.Expr × Typed.Block)}, Γ.Proper false → Γ.Tracks ρ N u Γ' →
      EditsEach (Arm.Edits N) u arms arms' → (checkArms Γ arms).Yields typed →
        (checkArms Γ' arms').Shows N u ((checkArms Γ' arms').value.all quietArm)
  | [], _, _, Γ, Γ', typed, hΓ, hT, he, h => by
    cases he
    rw [checkArms]
    exact .of_faults_eq_nil rfl
  | ⟨condition, body⟩ :: rest, _, _, Γ, Γ', typed, hΓ, hT, he, h => by
    cases he with
    | cons ha has =>
      cases ha with
      | arm hc hb =>
        simp only [checkArms, Report.yields_bind, Report.yields_pure] at h
        obtain ⟨cond, hcond, ⟨body', Δ'⟩, hbody, arms', harms, -⟩ := h
        have hs := condition_shows hΓ hT.left.left hc hcond
        have hl := checkBlock_leads hΓ.enter hT.left.right.enter hb hbody
        have hrest := checkArms_shows hΓ hT.right has harms
        simp only [checkArms, Report.value_bind, Report.value_pure, List.all_cons, quietArm,
          Bool.and_assoc, List.append_assoc]
        exact hs.bind (hl.shows.bind hrest.bind_pure)
termination_by structural arms => arms

theorem checkElse_shows : ∀ {body body' : Option (List Source.Stmt)} {u : List Location}
    {Γ Γ' : Context} {typed : List Typed.Stmt}, Γ.Proper false → Γ.Tracks ρ N u Γ' →
      EditsOption (EditsEach (Stmt.Edits N)) u body body' → (checkElse Γ body).Yields typed →
        (checkElse Γ' body').Shows N u (Typed.Stmt.quietList (checkElse Γ' body').value)
  | none, _, _, Γ, Γ', typed, hΓ, hT, he, h => by
    cases he
    rw [checkElse]
    exact .of_faults_eq_nil rfl
  | some body, _, _, Γ, Γ', typed, hΓ, hT, he, h => by
    cases he with
    | some hb =>
      simp only [checkElse, Report.yields_bind, Report.yields_pure] at h
      obtain ⟨⟨body', Δ'⟩, hbody, -⟩ := h
      have hl := checkBlock_leads hΓ.enter hT.enter hb hbody
      simp only [checkElse]
      exact hl.shows.bind_pure
termination_by structural body => body

end

end Source.Stmt

end LuaTyping
