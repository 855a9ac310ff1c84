import LuaTyping.Proofs.Shape.Annotation
import LuaTyping.Proofs.Shape.Module

/-!
# The annotations of checked statements

Every part of a statement is typed in a proper context, so the annotations of a statement about which
nothing wrong is found are free of the `module` type (`Stmt.check_moduleFree`).  The same holds for
items, apart from the declaration of the module variable (`Item.check_moduleFree`).
-/

namespace LuaTyping

variable {modules : Bool} {Γ Δ : Context} {options : Options} {loc : Location}

/-! ### Declarations and assignments -/

namespace Context

theorem stated_moduleFree {decls : List Source.Decl} {stated : List (Option Ty)}
    (h : (decls.mapM (Source.Decl.stated Γ)).Yields stated) :
    ModuleFree (Source.Decl.annotations decls) := by
  rw [ModuleFree.declAnnotations_iff]
  intro decl hd
  obtain ⟨_, hs⟩ := Report.exists_yields_of_mapM h decl hd
  exact Source.Decl.hasModule_of_stated hs

theorem declaredValues_moduleFree (hΓ : Γ.Proper modules) {decls : List (Source.Decl × Option Ty)}
    {exprs : List Source.Expr} {values : Values}
    (hp : ∀ decl ∈ decls, ∀ ty ∈ decl.2, ty.proper modules = true)
    (h : (Γ.declaredValues decls exprs loc).Yields values) :
    ModuleFree (Source.Expr.listAnnotations exprs) := by
  unfold declaredValues at h
  split_ifs at h with hempty
  · rw [List.isEmpty_iff] at hempty
    simp [hempty, Source.Expr.listAnnotations]
  · simp only [Report.yields_bind] at h
    obtain ⟨_, hv, -⟩ := h
    refine Source.Expr.checkValues_moduleFree hΓ (fun ty hty => ?_) hv
    obtain ⟨decl, hd, hs⟩ := List.mem_map.mp hty
    exact hp decl hd ty hs

theorem declareVars_moduleFree (hΓ : Γ.Proper modules) {decls : List Source.Decl}
    {exprs : List Source.Expr} {typed : List Typed.Decl × List Typed.Expr}
    (h : (Γ.declareVars decls exprs loc).Yields (typed, Δ)) :
    ModuleFree (Source.Decl.annotations decls ++ Source.Expr.listAnnotations exprs) := by
  simp only [declareVars, Report.yields_bind] at h
  obtain ⟨stated, hs, list, hv, -⟩ := h
  rw [ModuleFree.append_iff]
  exact ⟨stated_moduleFree hs, declaredValues_moduleFree hΓ (stated_zip_proper hΓ hs) hv⟩

theorem target_moduleFree (hΓ : Γ.Proper modules) {expr : Source.Expr}
    {target : Option Typed.Target} (h : (Γ.target expr).Yields target) :
    ModuleFree expr.annotations := by
  rcases target_yields hΓ h with ⟨_, _, _, _, rfl, -⟩ | ⟨_, _, -, hc, -⟩
  · simp [Source.Expr.annotations]
  · exact Source.Expr.check_moduleFree hΓ Demand.proper_results hc

theorem assign_moduleFree (hΓ : Γ.Proper modules) {targets values : List Source.Expr}
    {typed : List Typed.Target} {exprs : List Typed.Expr}
    (h : (Γ.assign targets values loc).Yields (typed, exprs)) :
    ModuleFree (Source.Expr.listAnnotations targets ++ Source.Expr.listAnnotations values) := by
  obtain ⟨list, ht, hv, -, -⟩ := assign_yields hΓ h
  rw [ModuleFree.append_iff, ModuleFree.listAnnotations_iff]
  refine ⟨?_, Source.Expr.checkValues_moduleFree hΓ (targets_expected_proper hΓ ht) hv⟩
  clear hv h
  induction ht with
  | nil => simp
  | cons hfirst _ ih => exact List.forall_mem_cons.mpr ⟨target_moduleFree hΓ hfirst, ih⟩

/-! ### Loop headers -/

theorem numericHeader_moduleFree (hΓ : Γ.Proper modules) {decl : Source.Decl}
    {start limit : Source.Expr} {step : Option Source.Expr} {header : NumericHeader}
    (h : (Γ.numericHeader decl start limit step loc).Yields header) :
    ModuleFree (Source.Decl.annotations [decl] ++ start.annotations ++ limit.annotations ++
      Source.Expr.listAnnotations step.toList) := by
  obtain ⟨ty, hs, hn, hl, hstep, -⟩ := numericHeader_yields hΓ h
  have hty : ty.proper modules = true := Ty.proper_of_isNumeric hn
  simp only [ModuleFree.append_iff, ModuleFree.declAnnotations_iff, List.forall_mem_singleton]
  refine ⟨⟨?_, Source.Expr.check_moduleFree hΓ (Demand.proper_ofType hty) hl⟩, ?_⟩
  · simp only [numericStart, Report.yields_bind] at hs
    obtain ⟨stated, hstated, hs⟩ := hs
    refine ⟨Source.Decl.hasModule_of_stated hstated, ?_⟩
    split at hs <;> simp only [Report.yields_bind, Report.yields_pure, Prod.mk.injEq] at hs
    · obtain ⟨_, hc, -, rfl⟩ := hs
      exact Source.Expr.check_moduleFree hΓ (Demand.proper_ofType hty) hc
    · obtain ⟨_, hc, -⟩ := hs
      exact Source.Expr.check_moduleFree hΓ Demand.proper_value hc
  · rw [ModuleFree.listAnnotations_iff]
    cases step with
    | none => simp
    | some step =>
      simpa using Source.Expr.check_moduleFree hΓ (Demand.proper_ofType hty) hstep

theorem loopValues_moduleFree (hΓ : Γ.Proper modules) : ∀ {exprs : List Source.Expr}
    {values : List Typed.Expr}, (Γ.loopValues exprs).Yields values →
      ModuleFree (Source.Expr.listAnnotations exprs)
  | [], _, _ => by simp [Source.Expr.listAnnotations]
  | expr :: rest, _, h => by
    simp only [loopValues, Report.yields_bind] at h
    obtain ⟨_, hv, _, hvs, -⟩ := h
    rw [Source.Expr.listAnnotations, ModuleFree.append_iff]
    refine ⟨?_, loopValues_moduleFree hΓ hvs⟩
    split_ifs at hv
    · exact Source.Expr.check_moduleFree hΓ Demand.proper_results hv
    · exact Source.Expr.check_moduleFree hΓ Demand.proper_value hv

theorem iterate_moduleFree (hΓ : Γ.Proper modules) {exprs : List Source.Expr} {iterated : Iterated}
    (h : (Γ.iterate exprs loc).Yields iterated) :
    ModuleFree (Source.Expr.listAnnotations exprs) := by
  unfold iterate at h
  split at h
  · next args site hcall =>
    obtain ⟨_, _, rfl, -⟩ := ipairsCall?_eq_some_iff.mp hcall
    obtain ⟨_, _, _, rfl, hc, -, -⟩ := ipairsLoop_yields hΓ h
    simpa [Source.Expr.listAnnotations, Source.Expr.annotations] using
      Source.Expr.check_moduleFree hΓ Demand.proper_value hc
  · obtain ⟨_, _, _, _, _, hv, -⟩ := iteratorLoop_yields hΓ h
    exact loopValues_moduleFree hΓ hv

theorem loopVarList_moduleFree : ∀ {decls : List Source.Decl} {types : List Ty}
    {typed : List Typed.Decl}, (Γ.loopVarList decls types).Yields typed →
      ModuleFree (Source.Decl.annotations decls)
  | [], _, _, _ => by simp [ModuleFree.declAnnotations_iff]
  | decl :: rest, _, _, h => by
    simp only [loopVarList, Report.yields_bind] at h
    obtain ⟨_, hv, _, hvs, -⟩ := h
    obtain ⟨_, hs, -⟩ := loopVar_yields hv
    have hrest := ModuleFree.declAnnotations_iff.mp (loopVarList_moduleFree hvs)
    rw [ModuleFree.declAnnotations_iff, List.forall_mem_cons]
    exact ⟨Source.Decl.hasModule_of_stated hs, hrest⟩

theorem loopVars_moduleFree {decls : List Source.Decl} {produced : Option (List Ty)}
    {typed : List Typed.Decl} (h : (Γ.loopVars decls produced loc).Yields typed) :
    ModuleFree (Source.Decl.annotations decls) := by
  cases produced with
  | none => exact loopVarList_moduleFree h
  | some types => exact loopVarList_moduleFree (loopVars_yields h).2

end Context

/-! ### Statements -/

namespace Source.Stmt

mutual

/-- **The annotations of a checked statement** are free of the `module` type. -/
theorem check_moduleFree : ∀ {stmt : Source.Stmt} {Γ Δ : Context} {t : Typed.Stmt},
    Γ.Proper modules → (check Γ stmt).Yields (t, Δ) → ModuleFree stmt.annotations
  | .declare decls values loc, Γ, Δ, t, hΓ, h => by
    simp only [check, Report.yields_bind] at h
    obtain ⟨⟨_, _⟩, hd, -⟩ := h
    rw [annotations]
    exact Context.declareVars_moduleFree hΓ hd
  | .assign targets values loc, Γ, Δ, t, hΓ, h => by
    simp only [check, Report.yields_bind] at h
    obtain ⟨⟨_, _⟩, ha, -⟩ := h
    rw [annotations]
    exact Context.assign_moduleFree hΓ ha
  | .call expr loc, Γ, Δ, t, hΓ, h => by
    simp only [check, Report.yields_bind] at h
    obtain ⟨_, hc, -⟩ := h
    rw [annotations]
    split_ifs at hc
    · exact Expr.check_moduleFree hΓ Demand.proper_results hc
    · exact Expr.check_moduleFree hΓ Demand.proper_value hc
  | .block body loc, Γ, Δ, t, hΓ, h => by
    simp only [check, Report.yields_bind] at h
    obtain ⟨⟨_, _⟩, hb, -⟩ := h
    rw [annotations]
    exact checkBlock_moduleFree hΓ.enter hb
  | .whileDo condition body loc, Γ, Δ, t, hΓ, h => by
    simp only [check, Report.yields_bind] at h
    obtain ⟨_, hc, ⟨_, _⟩, hb, -⟩ := h
    rw [annotations, ModuleFree.append_iff]
    exact ⟨Expr.check_moduleFree hΓ (Demand.proper_ofType rfl) hc,
      checkBlock_moduleFree hΓ.enterLoop hb⟩
  | .repeatUntil body condition loc, Γ, Δ, t, hΓ, h => by
    simp only [check, Report.yields_bind] at h
    obtain ⟨⟨_, Γ'⟩, hb, _, hc, -⟩ := h
    have hΓ' := (checkBlock_context_proper hΓ.enterLoop hb).1
    rw [annotations, ModuleFree.append_iff]
    exact ⟨checkBlock_moduleFree hΓ.enterLoop hb,
      Expr.check_moduleFree hΓ' (Demand.proper_ofType rfl) hc⟩
  | .branch condition thenBlock arms elseBlock loc, Γ, Δ, t, hΓ, h => by
    simp only [check, Report.yields_bind] at h
    obtain ⟨_, hc, ⟨_, _⟩, ht, _, ha, _, he, -⟩ := h
    rw [annotations, ModuleFree.append_iff, ModuleFree.append_iff, ModuleFree.append_iff]
    exact ⟨⟨⟨Expr.check_moduleFree hΓ (Demand.proper_ofType rfl) hc,
      checkBlock_moduleFree hΓ.enter ht⟩, checkArms_moduleFree hΓ ha⟩, checkElse_moduleFree hΓ he⟩
  | .numericFor decl start limit step body loc, Γ, Δ, t, hΓ, h => by
    simp only [check, Report.yields_bind] at h
    obtain ⟨header, hh, Γ', hd, ⟨_, _⟩, hb, -⟩ := h
    have hΓ' := (hΓ.loopBody (Context.numericHeader_proper hΓ hh) hd).1
    rw [annotations, ModuleFree.append_iff]
    exact ⟨Context.numericHeader_moduleFree hΓ hh, checkBlock_moduleFree hΓ' hb⟩
  | .genericFor decls values body loc, Γ, Δ, t, hΓ, h => by
    simp only [check, Report.yields_bind] at h
    obtain ⟨iterated, hi, typed, hv, Γ', hd, ⟨_, _⟩, hb, -⟩ := h
    have hΓ' := (hΓ.loopBody (Context.genericHeader_proper hΓ hi hv) hd).1
    rw [annotations, ModuleFree.append_iff, ModuleFree.append_iff]
    exact ⟨⟨Context.loopVars_moduleFree hv, Context.iterate_moduleFree hΓ hi⟩,
      checkBlock_moduleFree hΓ' hb⟩
  | .ret values loc, Γ, Δ, t, hΓ, h => by
    simp only [check, Report.yields_bind] at h
    obtain ⟨_, hv, -⟩ := h
    rw [annotations]
    exact Expr.checkValues_moduleFree hΓ (by simpa using hΓ.returns) hv
  | .brk loc, Γ, Δ, t, hΓ, h => by simp [annotations]

theorem checkBlock_moduleFree : ∀ {stmts : List Source.Stmt} {Γ Δ : Context}
    {typed : List Typed.Stmt}, Γ.Proper modules → (checkBlock Γ stmts).Yields (typed, Δ) →
      ModuleFree (listAnnotations stmts)
  | [], _, _, _, _, _ => by simp [listAnnotations]
  | stmt :: rest, Γ, Δ, typed, hΓ, h => by
    simp only [checkBlock, Report.yields_bind] at h
    obtain ⟨⟨_, Γ'⟩, hs, ⟨_, _⟩, hr, -⟩ := h
    rw [listAnnotations, ModuleFree.append_iff]
    exact ⟨check_moduleFree hΓ hs, checkBlock_moduleFree (check_context_proper hΓ hs).1 hr⟩

theorem checkArms_moduleFree : ∀ {arms : List Arm} {Γ : Context}
    {typed : List (Typed.Expr × Typed.Block)}, Γ.Proper modules → (checkArms Γ arms).Yields typed →
      ModuleFree (Arm.annotations arms)
  | [], _, _, _, _ => by simp [Arm.annotations]
  | ⟨condition, body⟩ :: rest, Γ, typed, hΓ, h => by
    simp only [checkArms, Report.yields_bind] at h
    obtain ⟨_, hc, ⟨_, _⟩, hb, _, ha, -⟩ := h
    rw [Arm.annotations, ModuleFree.append_iff, ModuleFree.append_iff]
    exact ⟨⟨Expr.check_moduleFree hΓ (Demand.proper_ofType rfl) hc,
      checkBlock_moduleFree hΓ.enter hb⟩, checkArms_moduleFree hΓ ha⟩

theorem checkElse_moduleFree : ∀ {body : Option (List Source.Stmt)} {Γ : Context}
    {typed : List Typed.Stmt}, Γ.Proper modules → (checkElse Γ body).Yields typed →
      ModuleFree (elseAnnotations body)
  | none, _, _, _, _ => by simp [elseAnnotations]
  | some body, Γ, typed, hΓ, h => by
    simp only [checkElse, Report.yields_bind] at h
    obtain ⟨⟨_, _⟩, hb, -⟩ := h
    rw [elseAnnotations]
    exact checkBlock_moduleFree hΓ.enter hb

end

end Source.Stmt

/-! ### Items -/

namespace Context

theorem function_moduleFree (hΓ : Γ.Proper modules) (hk : Γ.varKind = .toplevel)
    {decl : Source.Function} {item : Typed.Item}
    (h : (function options Γ decl).Yields (item, Δ)) :
    ModuleFree (Source.Item.function decl).annotations := by
  obtain ⟨params, returns, body, hparams, hreturns, hp, hd, hb, -⟩ := function_yields hΓ h
  have hΔ := (hΓ.declareFunction hk hp hd).1
  have hparams' := params_proper hΓ hparams
  rw [Ty.proper_function_iff] at hp
  rw [Source.Item.annotations, ModuleFree.append_iff, ModuleFree.append_iff]
  refine ⟨⟨?_, TypeExpr.moduleFree_of_resolveList hreturns⟩, ?_⟩
  · rw [ModuleFree.declAnnotations_iff]
    intro param hmem
    obtain ⟨_, hparam⟩ := Report.exists_yields_of_mapM hparams param hmem
    obtain ⟨_, hs, -⟩ := param_yields hparam
    exact Source.Decl.hasModule_of_stated hs
  · simp only [functionBody, Report.yields_bind] at hb
    obtain ⟨_, hd, ⟨_, _⟩, hb, -⟩ := hb
    have hbody := (hΔ.functionBody hparams' hp.2 hd).1
    exact Source.Stmt.checkBlock_moduleFree hbody hb

theorem itemAssign_moduleFree (hΓ : Γ.Proper modules) {targets values : List Source.Expr}
    {item : Typed.Item} (h : (itemAssign options Γ targets values loc).Yields (item, Δ)) :
    ModuleFree (Source.Expr.listAnnotations targets ++ Source.Expr.listAnnotations values) := by
  obtain ⟨found, list, typed, hf, hv, -⟩ := itemAssign_yields hΓ h
  rw [ModuleFree.append_iff, ModuleFree.listAnnotations_iff]
  refine ⟨fun expr hmem => ?_,
    Source.Expr.checkValues_moduleFree hΓ (itemTargets_expected_proper hΓ hf) hv⟩
  obtain ⟨_, ht⟩ := Report.exists_yields_of_mapM hf expr hmem
  rcases itemTarget_yields ht with ⟨module, field, hm, -, -⟩ | ⟨_, ht, -⟩
  · unfold moduleField? at hm
    split at hm
    · simp [Source.Expr.annotations]
    · cases hm
  · exact target_moduleFree hΓ ht

theorem recordFields_moduleFree {record : String} : ∀ {decls : List Source.Decl}
    {known fields : NameMap Ty}, (Γ.recordFields record decls known).Yields fields →
      ModuleFree (Source.Decl.annotations decls)
  | [], _, _, _ => by simp [ModuleFree.declAnnotations_iff]
  | decl :: rest, _, _, h => by
    simp only [recordFields, Report.yields_bind] at h
    obtain ⟨_, hs, _, -, h⟩ := h
    split_ifs at h
    · simp at h
    · have hrest := ModuleFree.declAnnotations_iff.mp (recordFields_moduleFree h)
      rw [ModuleFree.declAnnotations_iff, List.forall_mem_cons]
      exact ⟨Source.Decl.hasModule_of_stated hs, hrest⟩

end Context

namespace Source.Item

/-- **The annotations of a checked item** are free of the `module` type, unless it declares the
module variable. -/
theorem check_moduleFree (hΓ : Γ.Proper modules) (hk : Γ.varKind = .toplevel) {item : Item}
    {t : Option Typed.Item} (hm : item.moduleDecl? = none)
    (h : (item.check options Γ).Yields (t, Δ)) : ModuleFree item.annotations := by
  unfold check at h
  split at h <;> simp only [Report.yields_bind] at h
  · simp [moduleDecl?] at hm
  · obtain ⟨⟨_, _⟩, hd, -⟩ := h
    exact Context.declareVars_moduleFree hΓ hd
  · obtain ⟨⟨_, _⟩, hf, -⟩ := h
    exact Context.function_moduleFree hΓ hk hf
  · obtain ⟨⟨_, _⟩, ha, -⟩ := h
    exact Context.itemAssign_moduleFree hΓ ha
  · obtain ⟨_, hf, -⟩ := h
    exact Context.recordFields_moduleFree hf
  · obtain ⟨_, ht, -⟩ := h
    exact ModuleFree.cons_iff.mpr
      ⟨TypeExpr.hasModule_of_resolve ht, ModuleFree.nil_iff.mpr trivial⟩
  · obtain ⟨_, hr, -⟩ := h
    obtain ⟨expr, _, _, rfl, hc, -⟩ := Context.moduleReturn_yields hΓ hr
    rw [annotations, Expr.listAnnotations, Expr.listAnnotations, List.append_nil]
    exact Expr.check_moduleFree hΓ Demand.proper_value hc

end Source.Item

end LuaTyping
