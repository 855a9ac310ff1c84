import LuaTyping.Proofs.Erasure.Expr
import LuaTyping.Proofs.Soundness.Loop

/-!
# Checked statements erase back

A checked statement erases to the source statement without its annotations, where an absent step of
a numeric loop is written out for the type of the variable (`check_norm`).  The types of loop
variables that `norm` is given start with those of the statement, and it leaves the others.  Beside
this runs what can be seen of the module variable: declarations in a function hide it.
-/

namespace LuaTyping

open Typed (Env)

/-! ### What hides the module variable -/

theorem Source.hide_eq_some_iff {names : List String} {visible : Option String} {name : String} :
    hide names visible = some name ↔ visible = some name ∧ name ∉ names := by
  simp [hide, Option.filter_eq_some_iff]

/-- What other variables leave of the module variable. -/
theorem Typed.Env.declareAll_module_iff {kind : VarKind} (hk : kind ≠ .module) {name : String} :
    ∀ {decls : List Typed.Decl} {E : Env},
      (∃ ty, (Env.declareAll kind decls E).vars name = some (.module, ty)) ↔
        (∃ ty, E.vars name = some (.module, ty)) ∧ name ∉ decls.map (·.name)
  | [], E => by simp [declareAll]
  | decl :: rest, E => by
    rw [declareAll, declareAll_module_iff hk, List.map_cons, List.mem_cons, not_or, ← and_assoc]
    refine and_congr_left fun _ => ?_
    by_cases hn : name = decl.name
    · simp [declare, hn, hk]
    · simp [declare, hn]

theorem Context.sees_declareAll {Γ Δ : Context} {visible : Option String} {kind : VarKind}
    {decls : List Typed.Decl} (h : (Context.declareAll kind decls Γ).Yields Δ)
    (hk : kind ≠ .module) (hs : Γ.env.Sees visible) :
    Δ.env.Sees (Source.hide (decls.map (·.name)) visible) := by
  intro name
  rw [Source.hide_eq_some_iff, env_declareAll h, Env.declareAll_module_iff hk, hs name]

/-! ### Declared names -/

theorem Source.Decl.typed_name {decl : Decl} {stated value : Option Ty} {typed : Typed.Decl}
    (h : (decl.typed stated value).Yields typed) : typed.name = decl.name := by
  unfold Source.Decl.typed at h
  split at h
  · rw [Report.yields_pure.mp h]
    rfl
  · simp at h
  · rw [Report.yields_pure.mp h]
    rfl
  · rw [Report.yields_pure.mp h]
    rfl

theorem Source.Decl.typedAll_names : ∀ {decls : List (Decl × Option Ty)} {types : List Ty}
    {typed : List Typed.Decl}, (typedAll decls types).Yields typed →
      typed.map (·.name) = decls.map (·.1.name)
  | [], _, typed, h => by
    rw [typedAll, Report.yields_pure] at h
    rw [h]
    rfl
  | (decl, stated) :: rest, types, typed, h => by
    simp only [typedAll, Report.yields_bind, Report.yields_pure] at h
    obtain ⟨first, hf, decls, hr, rfl⟩ := h
    rw [List.map_cons, List.map_cons, typed_name hf, typedAll_names hr]

namespace Context

variable {Γ Δ : Context} {visible : Option String} {loc : Location}

/-- A declaration keeps its names and its values. -/
theorem declareVars_erase (hΓ : Γ.Proper false) (hs : Γ.env.Sees visible)
    {decls : List Source.Decl} {exprs : List Source.Expr} {typed : List Typed.Decl}
    {values : List Typed.Expr}
    (h : (Γ.declareVars decls exprs loc).Yields ((typed, values), Δ)) :
    typed.map (·.name) = decls.map (·.name) ∧
      Typed.Expr.eraseList values = Source.Expr.normList visible exprs := by
  simp only [declareVars, Report.yields_bind, Report.yields_pure, Prod.mk.injEq] at h
  obtain ⟨stated, hst, list, hv, typed', ht, Δ', -, ⟨rfl, rfl⟩, rfl⟩ := h
  have hlen := (Report.yields_mapM.mp hst).length_eq
  constructor
  · rw [Source.Decl.typedAll_names ht]
    calc (decls.zip stated).map (fun entry => entry.1.name)
        = ((decls.zip stated).map Prod.fst).map (·.name) := by rw [List.map_map]; rfl
      _ = decls.map (·.name) := by rw [List.map_fst_zip (Nat.le_of_eq hlen)]
  · have hp := stated_zip_proper hΓ hst
    unfold declaredValues at hv
    split_ifs at hv with hempty
    · simp only [Report.yields_bind, Report.yields_pure] at hv
      obtain ⟨_, -, rfl⟩ := hv
      rw [List.isEmpty_iff.mp hempty]
      rfl
    · simp only [Report.yields_bind, Report.yields_pure] at hv
      obtain ⟨_, hv, _, -, rfl⟩ := hv
      refine Source.Expr.checkValues_erase hΓ hs (fun ty hty => ?_) hv
      obtain ⟨decl, hd, hdecl⟩ := List.mem_map.mp hty
      exact hp decl hd ty hdecl

/-! ### Assignments -/

theorem target?_erase {typed : Typed.Expr} {target : Typed.Target}
    (h : typed.target? = some target) : target.erase = typed.erase := by
  obtain ⟨kind, ty, site⟩ := typed
  cases kind <;> simp only [Typed.Expr.target?, Option.some.injEq, reduceCtorEq] at h <;>
    rw [← h] <;> rfl

theorem target_erase (hΓ : Γ.Proper false) (hs : Γ.env.Sees visible) {expr : Source.Expr}
    {target : Typed.Target} (h : (Γ.target expr).Yields (some target)) :
    target.erase = expr.norm visible := by
  rcases target_yields hΓ h with ⟨name, site, ty, declared, rfl, ⟨-, ht⟩ | ⟨-, ht⟩⟩ |
    ⟨typed, found, -, hc, ht, hfound⟩
  · cases ht
    rfl
  · cases ht
    rfl
  · cases hfound
    rw [target?_erase ht, Source.Expr.check_erase hΓ hs Demand.proper_results hc]

theorem targets_erase (hΓ : Γ.Proper false) (hs : Γ.env.Sees visible) {exprs : List Source.Expr}
    {targets : List Typed.Target}
    (h : List.Forall₂ (fun expr target => (Γ.target expr).Yields (some target)) exprs targets) :
    targets.map Typed.Target.erase = Source.Expr.normList visible exprs := by
  induction h with
  | nil => rfl
  | cons hfirst _ ih => rw [List.map_cons, target_erase hΓ hs hfirst, ih, Source.Expr.normList]

/-- An assignment keeps its targets and its values. -/
theorem assign_erase (hΓ : Γ.Proper false) (hs : Γ.env.Sees visible)
    {targets values : List Source.Expr} {typed : List Typed.Target} {exprs : List Typed.Expr}
    (h : (Γ.assign targets values loc).Yields (typed, exprs)) :
    typed.map Typed.Target.erase = Source.Expr.normList visible targets ∧
      Typed.Expr.eraseList exprs = Source.Expr.normList visible values := by
  obtain ⟨list, ht, hv, -, rfl⟩ := assign_yields hΓ h
  exact ⟨targets_erase hΓ hs ht,
    Source.Expr.checkValues_erase hΓ hs (targets_expected_proper hΓ ht) hv⟩

/-! ### Loops -/

/-- The header of a numeric loop, with the step written out. -/
theorem numericHeader_erase (hΓ : Γ.Proper false) (hs : Γ.env.Sees visible) {decl : Source.Decl}
    {start limit : Source.Expr} {step : Option Source.Expr} {header : NumericHeader}
    (h : (Γ.numericHeader decl start limit step loc).Yields header) :
    header.decl.name = decl.name ∧ header.start.erase = start.norm visible ∧
      header.limit.erase = limit.norm visible ∧
        header.step.erase = Source.Expr.normStep visible header.decl.ty step := by
  obtain ⟨ty, hst, hn, hl, hstep, hd⟩ := numericHeader_yields hΓ h
  have hty : ty.proper false = true := Ty.proper_of_isNumeric hn
  rw [hd]
  refine ⟨rfl, ?_, Source.Expr.check_erase hΓ hs (Demand.proper_ofType hty) hl, ?_⟩
  · simp only [numericStart, Report.yields_bind] at hst
    obtain ⟨stated, hstated, hst⟩ := hst
    split at hst
    · next ty' =>
      simp only [Report.yields_bind, Report.yields_pure, Prod.mk.injEq] at hst
      obtain ⟨_, hc, rfl, rfl⟩ := hst
      exact Source.Expr.check_erase hΓ hs (Demand.proper_ofType hty) hc
    · simp only [Report.yields_bind, Report.yields_pure, Prod.mk.injEq] at hst
      obtain ⟨_, hc, rfl, -⟩ := hst
      exact Source.Expr.check_erase hΓ hs Demand.proper_value hc
  · cases step with
    | some step => exact Source.Expr.check_erase hΓ hs (Demand.proper_ofType hty) hstep
    | none =>
      rw [numericStep, Report.yields_pure] at hstep
      rw [hstep, Source.Expr.normStep, Typed.Expr.one, Bare.Expr.one, Typed.Decl.plain]
      split_ifs <;> rfl

theorem loopValues_erase (hΓ : Γ.Proper false) (hs : Γ.env.Sees visible) :
    ∀ {exprs : List Source.Expr} {values : List Typed.Expr}, (Γ.loopValues exprs).Yields values →
      Typed.Expr.eraseList values = Source.Expr.normList visible exprs
  | [], values, h => by
    rw [loopValues, Report.yields_pure] at h
    rw [h]
    rfl
  | expr :: rest, values, h => by
    simp only [loopValues, Report.yields_bind, Report.yields_pure] at h
    obtain ⟨value, hv, values', hvs, rfl⟩ := h
    have hvalue : value.erase = expr.norm visible := by
      split_ifs at hv
      · exact Source.Expr.check_erase hΓ hs Demand.proper_results hv
      · exact Source.Expr.check_erase hΓ hs Demand.proper_value hv
    rw [Typed.Expr.eraseList, hvalue, loopValues_erase hΓ hs hvs, Source.Expr.normList]

theorem loopCoerce_erase {want : Nat → Option Want} : ∀ {values values' : List Typed.Expr}
    {position : Nat}, (LoopValues.coerce want position values).Yields values' →
      Typed.Expr.eraseList values' = Typed.Expr.eraseList values
  | [], values', _, h => by
    rw [LoopValues.coerce, Report.yields_pure] at h
    rw [h]
  | [last], values', position, h => by
    rw [LoopValues.coerce] at h
    split at h
    · rw [Report.yields_pure.mp h]
    · simp only [Report.yields_bind, Report.yields_pure] at h
      obtain ⟨value, hv, rfl⟩ := h
      rw [Typed.Expr.eraseList, Typed.Expr.coerce?_erase hv]
      rfl
    · simp only [Typed.Expr.spread, Report.yields_bind, Report.yields_pure] at h
      obtain ⟨_, ⟨_, -, rfl⟩, rfl⟩ := h
      rfl
  | expr :: next :: rest, values', position, h => by
    rw [LoopValues.coerce] at h
    · simp only [Report.yields_bind, Report.yields_pure] at h
      obtain ⟨value, hv, values, hvs, rfl⟩ := h
      rw [Typed.Expr.eraseList, Typed.Expr.coerce?_erase hv, loopCoerce_erase hvs]
      rfl
    · simp

/-- What a loop goes through. -/
theorem iterate_erase (hΓ : Γ.Proper false) (hs : Γ.env.Sees visible) {exprs : List Source.Expr}
    {iterated : Iterated} (h : (Γ.iterate exprs loc).Yields iterated) :
    iterated.iteration.erase = Source.Expr.normList visible exprs := by
  unfold iterate at h
  split at h
  · next args callLoc hip =>
    obtain ⟨expr, array, elem, rfl, hc, -, rfl⟩ := ipairsLoop_yields hΓ h
    obtain ⟨site, ty, rfl, -⟩ := ipairsCall?_eq_some_iff.mp hip
    simp only [Typed.Iteration.erase, Source.Expr.normList, Source.Expr.norm,
      Source.Expr.check_erase hΓ hs Demand.proper_value hc]
  · obtain ⟨values, state, control, returns, values', hv, -, -, -, hc, rfl⟩ :=
      iteratorLoop_yields hΓ h
    rw [Typed.Iteration.erase, loopCoerce_erase hc, loopValues_erase hΓ hs hv]

theorem loopVarList_names : ∀ {decls : List Source.Decl} {types : List Ty}
    {typed : List Typed.Decl}, (Γ.loopVarList decls types).Yields typed →
      typed.map (·.name) = decls.map (·.name)
  | [], _, typed, h => by
    rw [loopVarList, Report.yields_pure] at h
    rw [h]
    rfl
  | decl :: rest, types, typed, h => by
    simp only [loopVarList, Report.yields_bind, Report.yields_pure] at h
    obtain ⟨var, hv, vars, hvs, rfl⟩ := h
    have hname : var.name = decl.name := by
      obtain ⟨_, -, ⟨-, rfl⟩ | ⟨_, -, -, rfl⟩ | ⟨_, -, -, -, rfl⟩⟩ := loopVar_yields hv <;> rfl
    rw [List.map_cons, List.map_cons, hname, loopVarList_names hvs]

theorem loopVars_names {decls : List Source.Decl} {produced : Option (List Ty)}
    {typed : List Typed.Decl} (h : (Γ.loopVars decls produced loc).Yields typed) :
    typed.map (·.name) = decls.map (·.name) := by
  cases produced with
  | some types => exact loopVarList_names (loopVars_yields h).2
  | none => exact loopVarList_names h

end Context

/-! ### Nested arms -/

/-- An `elseif` without types. -/
def eraseArm (arm : Typed.Expr × Typed.Block) : Bare.Expr × List Bare.Stmt :=
  (arm.1.erase, Typed.Stmt.eraseList arm.2)

/-- The types of the loop variables in the blocks of `elseif`s. -/
def armLoopTypes (arms : List (Typed.Expr × Typed.Block)) : List Ty :=
  arms.flatMap fun arm => Typed.Stmt.listLoopTypes arm.2

theorem eraseList_nestArms (arms : List (Typed.Expr × Typed.Block)) (elseBlock : Typed.Block) :
    Typed.Stmt.eraseList (nestArms arms elseBlock) =
      Bare.nest (arms.map eraseArm) (Typed.Stmt.eraseList elseBlock) := by
  induction arms with
  | nil => rfl
  | cons arm rest ih =>
    calc Typed.Stmt.eraseList (nestArms (arm :: rest) elseBlock)
        = [.branch arm.1.erase (Typed.Stmt.eraseList arm.2)
            (Typed.Stmt.eraseList (nestArms rest elseBlock))] := rfl
      _ = _ := by rw [ih]; rfl

theorem listLoopTypes_nestArms (arms : List (Typed.Expr × Typed.Block)) (elseBlock : Typed.Block) :
    Typed.Stmt.listLoopTypes (nestArms arms elseBlock) =
      armLoopTypes arms ++ Typed.Stmt.listLoopTypes elseBlock := by
  induction arms with
  | nil => rfl
  | cons arm rest ih =>
    calc Typed.Stmt.listLoopTypes (nestArms (arm :: rest) elseBlock)
        = Typed.Stmt.listLoopTypes arm.2 ++
            Typed.Stmt.listLoopTypes (nestArms rest elseBlock) ++ [] := rfl
      _ = _ := by
        rw [ih, List.append_nil, armLoopTypes, armLoopTypes, List.flatMap_cons, List.append_assoc]

/-! ### Statements -/

namespace Source.Stmt

/-- What can be seen of the module variable behind a statement. -/
theorem check_sees {stmt : Source.Stmt} {Γ Δ : Context} {t : Typed.Stmt} {visible : Option String}
    (hΓ : Γ.Proper false) (hk : Γ.varKind = .inner) (hs : Γ.env.Sees visible)
    (h : (check Γ stmt).Yields (t, Δ)) : Δ.env.Sees (stmt.visibleAfter visible) := by
  cases stmt with
  | declare decls values loc =>
    simp only [check, Report.yields_bind, Report.yields_pure, Prod.mk.injEq] at h
    obtain ⟨⟨⟨typed, exprs⟩, Δ'⟩, hd, -, rfl⟩ := h
    obtain ⟨-, hall⟩ := Context.declareVars_declares hΓ hd
    rw [hk] at hall
    rw [visibleAfter, ← (Context.declareVars_erase hΓ hs hd).1]
    exact Context.sees_declareAll hall (by decide) hs
  | _ =>
    simp only [check, Report.yields_bind, Report.yields_pure, Prod.mk.injEq] at h
    grind [visibleAfter]

theorem checkBlock_sees : ∀ {stmts : List Source.Stmt} {Γ Δ : Context} {typed : List Typed.Stmt}
    {visible : Option String}, Γ.Proper false → Γ.varKind = .inner → Γ.env.Sees visible →
      (checkBlock Γ stmts).Yields (typed, Δ) → Δ.env.Sees (visibleAtEnd visible stmts)
  | [], Γ, Δ, typed, visible, _, _, hs, h => by
    simp only [checkBlock, Report.yields_pure, Prod.mk.injEq] at h
    rw [h.2]
    exact hs
  | stmt :: rest, Γ, Δ, typed, visible, hΓ, hk, hs, h => by
    simp only [checkBlock, Report.yields_bind, Report.yields_pure, Prod.mk.injEq] at h
    obtain ⟨⟨t, Γ'⟩, ht, ⟨ts, Δ'⟩, hr, rfl, rfl⟩ := h
    obtain ⟨hΓ', hk'⟩ := check_context_proper hΓ ht
    have hrest := checkBlock_sees hΓ' (hk'.trans hk) (check_sees hΓ hk hs ht) hr
    exact hrest

theorem condition_erase {Γ : Context} {visible : Option String} (hΓ : Γ.Proper false)
    (hs : Γ.env.Sees visible) {condition : Source.Expr} {site : Site} {t : Typed.Expr}
    (h : (condition.check Γ (.ofType ⟨.boolean, site⟩)).Yields t) :
    t.erase = condition.norm visible :=
  Expr.check_erase hΓ hs (Demand.proper_ofType rfl) h

mutual

/-- **Checked statements erase back.** -/
theorem check_norm : ∀ {stmt : Source.Stmt} {Γ Δ : Context} {t : Typed.Stmt}
    {visible : Option String}, Γ.Proper false → Γ.varKind = .inner → Γ.env.Sees visible →
      (check Γ stmt).Yields (t, Δ) →
        ∀ tys, stmt.norm visible (t.loopTypes ++ tys) = (t.erase, tys)
  | .declare decls values loc, Γ, Δ, t, visible, hΓ, _, hs, h, tys => by
    simp only [check, Report.yields_bind, Report.yields_pure, Prod.mk.injEq] at h
    obtain ⟨⟨⟨typed, exprs⟩, Δ'⟩, hd, rfl, rfl⟩ := h
    obtain ⟨hnames, hvalues⟩ := Context.declareVars_erase hΓ hs hd
    rw [norm, ← hnames, ← hvalues]
    rfl
  | .assign targets values loc, Γ, Δ, t, visible, hΓ, _, hs, h, tys => by
    simp only [check, Report.yields_bind, Report.yields_pure, Prod.mk.injEq] at h
    obtain ⟨⟨typed, exprs⟩, ha, rfl, rfl⟩ := h
    obtain ⟨htargets, hvalues⟩ := Context.assign_erase hΓ hs ha
    rw [norm, ← htargets, ← hvalues]
    rfl
  | .call expr loc, Γ, Δ, t, visible, hΓ, _, hs, h, tys => by
    simp only [check, Report.yields_bind, Report.yields_pure, Prod.mk.injEq] at h
    obtain ⟨typed, hc, rfl, rfl⟩ := h
    have hexpr : typed.erase = expr.norm visible := by
      split_ifs at hc
      · exact Expr.check_erase hΓ hs Demand.proper_results hc
      · exact Expr.check_erase hΓ hs Demand.proper_value hc
    rw [norm, ← hexpr]
    rfl
  | .block body loc, Γ, Δ, t, visible, hΓ, _, hs, h, tys => by
    simp only [check, Report.yields_bind, Report.yields_pure, Prod.mk.injEq] at h
    obtain ⟨⟨typed, Δ'⟩, hb, rfl, rfl⟩ := h
    have hbody := checkBlock_norm hΓ.enter rfl hs hb tys
    simp only [norm, Typed.Stmt.loopTypes, hbody, Typed.Stmt.erase]
  | .whileDo condition body loc, Γ, Δ, t, visible, hΓ, _, hs, h, tys => by
    simp only [check, Report.yields_bind, Report.yields_pure, Prod.mk.injEq] at h
    obtain ⟨typed, hc, ⟨body', Δ'⟩, hb, rfl, rfl⟩ := h
    have hbody := checkBlock_norm hΓ.enterLoop rfl hs hb tys
    simp only [norm, Typed.Stmt.loopTypes, hbody, Typed.Stmt.erase, condition_erase hΓ hs hc]
  | .repeatUntil body condition loc, Γ, Δ, t, visible, hΓ, _, hs, h, tys => by
    simp only [check, Report.yields_bind, Report.yields_pure, Prod.mk.injEq] at h
    obtain ⟨⟨body', Γ'⟩, hb, typed, hc, rfl, rfl⟩ := h
    have hbody := checkBlock_norm hΓ.enterLoop rfl hs hb tys
    have hΓ' := (checkBlock_context_proper hΓ.enterLoop hb).1
    have hcondition := condition_erase hΓ' (checkBlock_sees hΓ.enterLoop rfl hs hb) hc
    simp only [norm, Typed.Stmt.loopTypes, hbody, Typed.Stmt.erase, hcondition]
  | .branch condition thenBlock arms elseBlock loc, Γ, Δ, t, visible, hΓ, _, hs, h, tys => by
    simp only [check, Report.yields_bind, Report.yields_pure, Prod.mk.injEq] at h
    obtain ⟨typed, hc, ⟨thenBlock', Δ'⟩, ht, arms', ha, elseBlock', he, rfl, rfl⟩ := h
    have hthen := checkBlock_norm hΓ.enter rfl hs ht
    have harms := checkArms_norm hΓ hs ha
    have helse := checkElse_norm hΓ hs he tys
    simp only [norm, Typed.Stmt.loopTypes, listLoopTypes_nestArms, List.append_assoc, hthen, harms,
      helse, Typed.Stmt.erase, eraseList_nestArms, condition_erase hΓ hs hc]
  | .numericFor decl start limit step body loc, Γ, Δ, t, visible, hΓ, _, hs, h, tys => by
    simp only [check, Report.yields_bind, Report.yields_pure, Prod.mk.injEq] at h
    obtain ⟨header, hh, Γ', hd, ⟨body', Δ'⟩, hb, rfl, rfl⟩ := h
    obtain ⟨hname, hstart, hlimit, hstep⟩ := Context.numericHeader_erase hΓ hs hh
    obtain ⟨hΓ', hk'⟩ := hΓ.loopBody (Context.numericHeader_proper hΓ hh) hd
    have hs' : Γ'.env.Sees (hide [decl.name] visible) := by
      rw [← hname]
      exact Context.sees_declareAll hd (by decide) hs
    have hbody := checkBlock_norm hΓ' hk' hs' hb tys
    simp only [norm, Typed.Stmt.loopTypes, List.cons_append, List.headD_cons, List.tail_cons, hbody,
      Typed.Stmt.erase, hname, hstart, hlimit, hstep]
  | .genericFor decls values body loc, Γ, Δ, t, visible, hΓ, _, hs, h, tys => by
    simp only [check, Report.yields_bind, Report.yields_pure, Prod.mk.injEq] at h
    obtain ⟨iterated, hi, typed, hv, Γ', hd, ⟨body', Δ'⟩, hb, rfl, rfl⟩ := h
    have hnames := Context.loopVars_names hv
    obtain ⟨hΓ', hk'⟩ := hΓ.loopBody (Context.genericHeader_proper hΓ hi hv) hd
    have hs' : Γ'.env.Sees (hide (decls.map (·.name)) visible) := by
      rw [← hnames]
      exact Context.sees_declareAll hd (by decide) hs
    have hbody := checkBlock_norm hΓ' hk' hs' hb tys
    simp only [norm, Typed.Stmt.loopTypes, hbody, Typed.Stmt.erase, hnames,
      Context.iterate_erase hΓ hs hi]
  | .ret values loc, Γ, Δ, t, visible, hΓ, _, hs, h, tys => by
    simp only [check, Report.yields_bind, Report.yields_pure, Prod.mk.injEq] at h
    obtain ⟨list, hv, _, -, rfl, rfl⟩ := h
    have he : ∀ ty, some ty ∈ Δ.returns.map some → ty.proper false = true := by
      simpa using hΓ.returns
    rw [norm, ← Expr.checkValues_erase hΓ hs he hv]
    rfl
  | .brk loc, Γ, Δ, t, visible, _, _, _, h, tys => by
    simp only [check, Report.yields_bind, Report.yields_pure, Prod.mk.injEq] at h
    obtain ⟨_, -, rfl, -⟩ := h
    rfl

/-- **Checked blocks erase back.** -/
theorem checkBlock_norm : ∀ {stmts : List Source.Stmt} {Γ Δ : Context} {typed : List Typed.Stmt}
    {visible : Option String}, Γ.Proper false → Γ.varKind = .inner → Γ.env.Sees visible →
      (checkBlock Γ stmts).Yields (typed, Δ) → ∀ tys,
        normList visible stmts (Typed.Stmt.listLoopTypes typed ++ tys) =
          (Typed.Stmt.eraseList typed, tys)
  | [], Γ, Δ, typed, visible, _, _, _, h, tys => by
    simp only [checkBlock, Report.yields_pure, Prod.mk.injEq] at h
    rw [h.1]
    rfl
  | stmt :: rest, Γ, Δ, typed, visible, hΓ, hk, hs, h, tys => by
    simp only [checkBlock, Report.yields_bind, Report.yields_pure, Prod.mk.injEq] at h
    obtain ⟨⟨t, Γ'⟩, ht, ⟨ts, Δ'⟩, hr, rfl, rfl⟩ := h
    obtain ⟨hΓ', hk'⟩ := check_context_proper hΓ ht
    have hfirst := check_norm hΓ hk hs ht
    have hrest := checkBlock_norm hΓ' (hk'.trans hk) (check_sees hΓ hk hs ht) hr tys
    simp only [normList, Typed.Stmt.listLoopTypes, List.append_assoc, hfirst, hrest,
      Typed.Stmt.eraseList]

theorem checkArms_norm : ∀ {arms : List Arm} {Γ : Context}
    {typed : List (Typed.Expr × Typed.Block)} {visible : Option String}, Γ.Proper false →
      Γ.env.Sees visible → (checkArms Γ arms).Yields typed → ∀ tys,
        normArms visible arms (armLoopTypes typed ++ tys) = (typed.map eraseArm, tys)
  | [], Γ, typed, visible, _, _, h, tys => by
    rw [checkArms, Report.yields_pure] at h
    rw [h]
    rfl
  | ⟨condition, body⟩ :: rest, Γ, typed, visible, hΓ, hs, h, tys => by
    simp only [checkArms, Report.yields_bind, Report.yields_pure] at h
    obtain ⟨condition', hc, ⟨body', Δ'⟩, hb, arms', ha, rfl⟩ := h
    have hbody := checkBlock_norm hΓ.enter rfl hs hb
    have hrest := checkArms_norm hΓ hs ha tys
    rw [armLoopTypes] at hrest
    simp only [normArms, armLoopTypes, List.flatMap_cons, List.append_assoc, hbody, hrest,
      List.map_cons, eraseArm, condition_erase hΓ hs hc]

theorem checkElse_norm : ∀ {body : Option (List Source.Stmt)} {Γ : Context}
    {typed : List Typed.Stmt} {visible : Option String}, Γ.Proper false → Γ.env.Sees visible →
      (checkElse Γ body).Yields typed → ∀ tys,
        normElse visible body (Typed.Stmt.listLoopTypes typed ++ tys) =
          (Typed.Stmt.eraseList typed, tys)
  | none, Γ, typed, visible, _, _, h, tys => by
    rw [checkElse, Report.yields_pure] at h
    rw [h]
    rfl
  | some body, Γ, typed, visible, hΓ, hs, h, tys => by
    simp only [checkElse, Report.yields_bind, Report.yields_pure] at h
    obtain ⟨⟨body', Δ'⟩, hb, rfl⟩ := h
    have hbody := checkBlock_norm hΓ.enter rfl hs hb tys
    exact hbody

end

end Source.Stmt

end LuaTyping
