import LuaTyping.Proofs.Place.Expr
import LuaTyping.Proofs.Proper.Stmt

/-!
# The places of checked statements

Inside a function the toplevel stays what it is, so a rule that is admitted in front of a statement
is admitted behind it (`Admits.afterStmt`).  Then the lemmas on expressions apply to each part of a
statement, and the rule holds at all its places (`Stmt.check_places`).
-/

namespace LuaTyping

open Typed (Place)

variable {modules : Bool} {P : Place → Prop} {Γ Δ : Context} {loc : Location}

/-! ### Contexts inside a function -/

namespace Context.Admits

variable (hΓ : Γ.Admits modules P)
include hΓ

theorem declareAll {kind : VarKind} {decls : List Typed.Decl} (hin : Γ.scopes.inner ≠ [])
    (hΔ : Δ.Proper modules) (h : (Context.declareAll kind decls Γ).Yields Δ) :
    Δ.Admits modules P ∧ Δ.scopes.inner ≠ [] := by
  have hframes : Γ.Frames Δ := h.value_eq ▸ declareAll_frames hin
  exact ⟨hΓ.frames hΔ hframes, hframes.inner_ne_nil⟩

theorem loopBody {decls : List Typed.Decl} (hp : ∀ decl ∈ decls, decl.ty.proper modules = true)
    (h : (Context.declareAll .inner decls Γ.enterLoop).Yields Δ) :
    Δ.Admits modules P ∧ Δ.scopes.inner ≠ [] :=
  hΓ.enterLoop.declareAll enterLoop_inner_ne_nil (hΓ.proper.loopBody hp h).1 h

theorem functionBody {params : List Typed.Decl} {returns : List Ty}
    (hp : ∀ decl ∈ params, decl.ty.proper modules = true)
    (hr : ∀ ty ∈ returns, ty.proper modules = true)
    (h : (Context.declareAll .inner params (Γ.enterFunction returns)).Yields Δ) :
    Δ.Admits modules P ∧ Δ.scopes.inner ≠ [] := by
  have henter : (Γ.enterFunction returns).Admits modules P :=
    hΓ.of_toplevel (hΓ.proper.enterFunction hr) fun _ _ hl => hl
  exact henter.declareAll (List.cons_ne_nil _ _) (hΓ.proper.functionBody hp hr h).1 h

theorem afterStmt (hin : Γ.scopes.inner ≠ []) {stmt : Source.Stmt} {t : Typed.Stmt}
    (h : (Source.Stmt.check Γ stmt).Yields (t, Δ)) :
    Δ.Admits modules P ∧ Δ.scopes.inner ≠ [] := by
  have hframes : Γ.Frames (Source.Stmt.check Γ stmt).value.2 := Source.Stmt.check_frames hin
  rw [h.value_eq] at hframes
  exact ⟨hΓ.frames (Source.Stmt.check_context_proper hΓ.proper h).1 hframes,
    hframes.inner_ne_nil⟩

theorem afterBlock (hin : Γ.scopes.inner ≠ []) {stmts : List Source.Stmt}
    {typed : List Typed.Stmt} (h : (Source.Stmt.checkBlock Γ stmts).Yields (typed, Δ)) :
    Δ.Admits modules P := by
  have hframes : Γ.Frames (Source.Stmt.checkBlock Γ stmts).value.2 :=
    Source.Stmt.checkBlock_frames hin
  rw [h.value_eq] at hframes
  exact hΓ.frames (Source.Stmt.checkBlock_context_proper hΓ.proper h).1 hframes

theorem decls {decls : List Typed.Decl} (h : ∀ decl ∈ decls, decl.ty.proper modules = true) :
    ∀ place ∈ decls.map Place.decl, P place :=
  List.forall_mem_map.mpr fun decl hd => hΓ.ofProper (.decl decl) (h decl hd) rfl

end Context.Admits

/-- A name has one value, and the types of all other expressions are proper. -/
theorem Source.Expr.check_proper_or_single (hΓ : Γ.Proper modules) {expr : Source.Expr}
    {demand : Demand} {t : Typed.Expr} (hd : demand.Proper modules)
    (h : (check Γ expr demand).Yields t) :
    (∀ ty ∈ t.ownTypes, ty.proper modules = true) ∨ t.valueTypes = [t.ty] := by
  cases hname : expr.bareName? with
  | none =>
    left
    intro ty hty
    rcases check_proper hΓ hd h ty hty with hp | ⟨-, name, hbare, -⟩
    · exact hp
    · rw [hname] at hbare
      cases hbare
  | some name =>
    right
    have hsettled : ∀ {found : Typed.Expr}, found.valueTypes = [found.ty] →
        demand.Settles found t → t.valueTypes = [t.ty] := by
      intro found hfound hs
      rcases hs.eq_or_cast with rfl | ⟨want, rfl, rfl⟩
      · exact hfound
      · rfl
    cases expr with
    | name text loc =>
      simp only [check, Report.yields_bind, Demand.settle_yields_iff] at h
      obtain ⟨found, hf, hs⟩ := h
      refine hsettled ?_ hs
      rcases Context.nameExpr_yields hf with ⟨_, _, _, rfl⟩ | ⟨_, _, _, _, _, rfl⟩ | ⟨_, _, rfl⟩ <;>
        rfl
    | paren expr loc =>
      simp only [check, Report.yields_bind, Demand.settle_yields_iff] at h
      obtain ⟨inner, -, hs⟩ := h
      exact hsettled rfl hs
    | _ => cases hname

namespace Context

/-! ### Declarations and assignments -/

theorem declaredValues_places (hΓ : Γ.Admits modules P)
    {decls : List (Source.Decl × Option Ty)} {exprs : List Source.Expr} {values : Values}
    (hp : ∀ decl ∈ decls, ∀ ty ∈ decl.2, ty.proper modules = true)
    (h : (Γ.declaredValues decls exprs loc).Yields values) :
    ∀ place ∈ Typed.Expr.listPlaces values.exprs, P place := by
  unfold declaredValues at h
  split_ifs at h
  · simp only [Report.yields_bind, Report.yields_pure] at h
    obtain ⟨_, -, rfl⟩ := h
    simp [Values.empty, Typed.Expr.listPlaces]
  · simp only [Report.yields_bind, Report.yields_require, Report.yields_pure] at h
    obtain ⟨_, hv, _, -, rfl⟩ := h
    refine Source.Expr.checkValues_places hΓ (fun ty hty => ?_) hv
    obtain ⟨decl, hd, hs⟩ := List.mem_map.mp hty
    exact hp decl hd ty hs

theorem declareVars_places (hΓ : Γ.Admits modules P) {decls : List Source.Decl}
    {exprs : List Source.Expr} {typed : List Typed.Decl} {values : List Typed.Expr}
    (h : (Γ.declareVars decls exprs loc).Yields ((typed, values), Δ)) :
    ∀ place ∈ typed.map Place.decl ++ Typed.Expr.listPlaces values, P place := by
  rw [List.forall_mem_append]
  refine ⟨hΓ.decls (declareVars_proper hΓ.proper h).1, ?_⟩
  simp only [declareVars, Report.yields_bind, Report.yields_pure, Prod.mk.injEq] at h
  obtain ⟨stated, hs, list, hv, _, -, _, -, ⟨rfl, rfl⟩, rfl⟩ := h
  exact declaredValues_places hΓ (stated_zip_proper hΓ.proper hs) hv

/-- The places in the target that a typed member or element makes are those below the node, and the
target. -/
theorem target?_places (hΓ : Γ.Admits modules P) {typed : Typed.Expr} {target : Typed.Target}
    (ht : typed.target? = some target) (hty : target.ty.proper modules = true)
    (h : ∀ place ∈ typed.kind.places, P place) : ∀ place ∈ target.places, P place := by
  obtain ⟨kind, ty, loc⟩ := typed
  unfold Typed.Expr.target? at ht
  split at ht <;> rename_i hkind <;> cases ht <;> simp only at hkind <;> subst hkind
  · exact List.forall_mem_singleton.mpr (hΓ.ofProper _ hty rfl)
  · rw [Typed.Target.places, List.forall_mem_append]
    exact ⟨h, List.forall_mem_singleton.mpr (hΓ.ofProper _ hty rfl)⟩
  · rw [Typed.Target.places, List.forall_mem_append]
    exact ⟨h, List.forall_mem_singleton.mpr (hΓ.ofProper _ hty rfl)⟩

theorem target_places (hΓ : Γ.Admits modules P) {expr : Source.Expr} {target : Typed.Target}
    (h : (Γ.target expr).Yields (some target)) : ∀ place ∈ target.places, P place := by
  obtain ⟨found, hfound, hp⟩ := target_proper hΓ.proper h
  cases hfound
  rcases target_yields hΓ.proper h with ⟨name, _, ty, _, _, ⟨-, ht⟩ | ⟨hl, ht⟩⟩ |
    ⟨typed, found, -, hc, ht, hfound⟩
  · cases ht
    exact List.forall_mem_singleton.mpr (hΓ.ofProper _ hp rfl)
  · cases ht
    have htop := hΓ.proper.toplevel_lookup (by simp) hl
    exact List.forall_mem_singleton.mpr (hΓ.target name _ htop rfl)
  · cases hfound
    have hplaces := Source.Expr.check_places hΓ Demand.proper_results hc
    exact target?_places hΓ ht hp (Typed.Expr.forall_places_iff.mp hplaces).2

theorem assign_places (hΓ : Γ.Admits modules P) {targets values : List Source.Expr}
    {typed : List Typed.Target} {exprs : List Typed.Expr}
    (h : (Γ.assign targets values loc).Yields (typed, exprs)) :
    ∀ place ∈ typed.flatMap Typed.Target.places ++ Typed.Expr.listPlaces exprs, P place := by
  obtain ⟨list, ht, hv, -, rfl⟩ := assign_yields hΓ.proper h
  rw [List.forall_mem_append, List.forall_mem_flatMap]
  refine ⟨?_, Source.Expr.checkValues_places hΓ (targets_expected_proper hΓ.proper ht) hv⟩
  clear hv h
  induction ht with
  | nil => simp
  | cons hfirst _ ih => exact List.forall_mem_cons.mpr ⟨target_places hΓ hfirst, ih⟩

/-! ### Loop headers -/

theorem numericHeader_places (hΓ : Γ.Admits modules P) {decl : Source.Decl}
    {start limit : Source.Expr} {step : Option Source.Expr} {header : NumericHeader}
    (h : (Γ.numericHeader decl start limit step loc).Yields header) :
    P (.decl header.decl) ∧ (∀ place ∈ header.start.places, P place) ∧
      (∀ place ∈ header.limit.places, P place) ∧ ∀ place ∈ header.step.places, P place := by
  obtain ⟨ty, hs, hn, hl, hstep, hd⟩ := numericHeader_yields hΓ.proper h
  have hty : ty.proper modules = true := Ty.proper_of_isNumeric hn
  refine ⟨?_, ?_, Source.Expr.check_places hΓ (Demand.proper_ofType hty) hl, ?_⟩
  · rw [hd]
    exact hΓ.ofProper _ hty rfl
  · simp only [numericStart, Report.yields_bind] at hs
    obtain ⟨stated, -, hs⟩ := hs
    split at hs <;> simp only [Report.yields_bind, Report.yields_pure, Prod.mk.injEq] at hs
    · obtain ⟨_, hc, rfl, rfl⟩ := hs
      exact Source.Expr.check_places hΓ (Demand.proper_ofType hty) hc
    · obtain ⟨_, hc, rfl, -⟩ := hs
      exact Source.Expr.check_places hΓ Demand.proper_value hc
  · cases step with
    | some step => exact Source.Expr.check_places hΓ (Demand.proper_ofType hty) hstep
    | none =>
      simp only [numericStep, Report.yields_pure] at hstep
      rw [hstep, Typed.Expr.one]
      split_ifs <;>
        exact Typed.Expr.forall_places_iff.mpr ⟨hΓ.node hty, by simp [Typed.ExprKind.places]⟩

theorem loopValues_places (hΓ : Γ.Admits modules P) {exprs : List Source.Expr}
    {values : List Typed.Expr} (h : (Γ.loopValues exprs).Yields values) :
    ∀ value ∈ values, ∀ place ∈ value.places, P place := by
  intro value hmem
  obtain ⟨_, demand, hd, hc⟩ := exists_of_mem_loopValues h hmem
  exact Source.Expr.check_places hΓ (hd modules) hc

/-- The types of a value of a loop are proper, or there is but one. -/
theorem loopValues_proper_or_single (hΓ : Γ.Proper modules) {exprs : List Source.Expr}
    {values : List Typed.Expr} (h : (Γ.loopValues exprs).Yields values) :
    ∀ value ∈ values,
      (∀ ty ∈ value.ownTypes, ty.proper modules = true) ∨ value.valueTypes = [value.ty] := by
  intro value hmem
  obtain ⟨_, demand, hd, hc⟩ := exists_of_mem_loopValues h hmem
  exact Source.Expr.check_proper_or_single hΓ (hd modules) hc

theorem loopValues_coerce_places (hΓ : Γ.Admits modules P) {want : Nat → Option Want}
    (hw : ∀ j w, want j = some w → w.ty.proper modules = true) :
    ∀ {values values' : List Typed.Expr} {position : Nat},
      (∀ value ∈ values, ∀ place ∈ value.places, P place) →
        (∀ value ∈ values,
          (∀ ty ∈ value.ownTypes, ty.proper modules = true) ∨ value.valueTypes = [value.ty]) →
          (LoopValues.coerce want position values).Yields values' →
            ∀ place ∈ Typed.Expr.listPlaces values', P place
  | [], values', _, _, _, h => by
    rw [LoopValues.coerce, Report.yields_pure] at h
    simp [h, Typed.Expr.listPlaces]
  | [last], values', position, hk, hp, h => by
    have hlast := hk last List.mem_cons_self
    rw [LoopValues.coerce] at h
    split at h
    · rw [Report.yields_pure] at h
      simpa [h, Typed.Expr.listPlaces] using hlast
    · simp only [Report.yields_bind, Report.yields_pure] at h
      obtain ⟨value, hv, rfl⟩ := h
      simpa [Typed.Expr.listPlaces] using Typed.Expr.coerce?_places hΓ (hw position) hv hlast
    · -- the module variable has one value, so what is spread is a call
      next hsingle =>
      simp only [Report.yields_bind, Report.yields_pure] at h
      obtain ⟨value, hv, rfl⟩ := h
      rcases hp last List.mem_cons_self with hown | hone
      · simpa [Typed.Expr.listPlaces] using
          Typed.Expr.spread_places hΓ (fun j w => hw (position + j) w) hown hv hlast
      · exact absurd hone (hsingle _)
  | expr :: next :: rest, values', position, hk, hp, h => by
    rw [LoopValues.coerce] at h
    · simp only [Report.yields_bind, Report.yields_pure] at h
      obtain ⟨value, hv, values, hvs, rfl⟩ := h
      rw [Typed.Expr.listPlaces, List.forall_mem_append]
      rw [List.forall_mem_cons] at hk hp
      exact ⟨Typed.Expr.coerce?_places hΓ (hw position) hv hk.1,
        loopValues_coerce_places hΓ hw hk.2 hp.2 hvs⟩
    · simp

theorem iterate_places (hΓ : Γ.Admits modules P) {exprs : List Source.Expr} {iterated : Iterated}
    (h : (Γ.iterate exprs loc).Yields iterated) :
    ∀ place ∈ iterated.iteration.places, P place := by
  unfold iterate at h
  split at h
  · obtain ⟨_, array, _, -, hc, -, rfl⟩ := ipairsLoop_yields hΓ.proper h
    exact Source.Expr.check_places hΓ Demand.proper_value hc
  · obtain ⟨values, state, control, returns, values', hv, -, -, hp, hc, rfl⟩ :=
      iteratorLoop_yields hΓ.proper h
    exact loopValues_coerce_places hΓ (LoopValues.want_proper hp) (loopValues_places hΓ hv)
      (loopValues_proper_or_single hΓ.proper hv) hc

end Context

/-! ### Statements -/

namespace Source.Stmt

theorem nestArms_places {arms : List (Typed.Expr × Typed.Block)} {elseBlock : Typed.Block}
    (ha : ∀ arm ∈ arms, (∀ place ∈ arm.1.places, P place) ∧
      ∀ place ∈ Typed.Stmt.listPlaces arm.2, P place)
    (he : ∀ place ∈ Typed.Stmt.listPlaces elseBlock, P place) :
    ∀ place ∈ Typed.Stmt.listPlaces (nestArms arms elseBlock), P place := by
  induction arms with
  | nil => exact he
  | cons arm rest ih =>
    rw [List.forall_mem_cons] at ha
    have hrest := ih ha.2
    simp only [nestArms, List.foldr_cons, Typed.Stmt.listPlaces, Typed.Stmt.places,
      List.append_nil, List.forall_mem_append]
    exact ⟨⟨ha.1.1, ha.1.2⟩, hrest⟩

mutual

/-- **The rule holds at all places of a statement.** -/
theorem check_places : ∀ {stmt : Source.Stmt} {Γ Δ : Context} {t : Typed.Stmt},
    Γ.Admits modules P → Γ.scopes.inner ≠ [] → (check Γ stmt).Yields (t, Δ) →
      ∀ place ∈ t.places, P place
  | .declare decls values loc, Γ, Δ, t, hΓ, _, h => by
    simp only [check, Report.yields_bind, Report.yields_pure, Prod.mk.injEq] at h
    obtain ⟨⟨⟨typed, exprs⟩, Δ'⟩, hd, rfl, rfl⟩ := h
    rw [Typed.Stmt.places]
    exact Context.declareVars_places hΓ hd
  | .assign targets values loc, Γ, Δ, t, hΓ, _, h => by
    simp only [check, Report.yields_bind, Report.yields_pure, Prod.mk.injEq] at h
    obtain ⟨⟨typed, exprs⟩, ha, rfl, rfl⟩ := h
    rw [Typed.Stmt.places]
    exact Context.assign_places hΓ ha
  | .call expr loc, Γ, Δ, t, hΓ, _, h => by
    simp only [check, Report.yields_bind, Report.yields_pure, Prod.mk.injEq] at h
    obtain ⟨typed, hc, rfl, rfl⟩ := h
    rw [Typed.Stmt.places]
    split_ifs at hc
    · exact Expr.check_places hΓ Demand.proper_results hc
    · exact Expr.check_places hΓ Demand.proper_value hc
  | .block body loc, Γ, Δ, t, hΓ, _, h => by
    simp only [check, Report.yields_bind, Report.yields_pure, Prod.mk.injEq] at h
    obtain ⟨⟨typed, _⟩, hb, rfl, rfl⟩ := h
    rw [Typed.Stmt.places]
    exact checkBlock_places hΓ.enter Context.enter_inner_ne_nil hb
  | .whileDo condition body loc, Γ, Δ, t, hΓ, _, h => by
    simp only [check, Report.yields_bind, Report.yields_pure, Prod.mk.injEq] at h
    obtain ⟨typed, hc, ⟨body', _⟩, hb, rfl, rfl⟩ := h
    rw [Typed.Stmt.places, List.forall_mem_append]
    exact ⟨Expr.check_places hΓ (Demand.proper_ofType rfl) hc,
      checkBlock_places hΓ.enterLoop Context.enterLoop_inner_ne_nil hb⟩
  | .repeatUntil body condition loc, Γ, Δ, t, hΓ, _, h => by
    simp only [check, Report.yields_bind, Report.yields_pure, Prod.mk.injEq] at h
    obtain ⟨⟨body', Γ'⟩, hb, typed, hc, rfl, rfl⟩ := h
    rw [Typed.Stmt.places, List.forall_mem_append]
    have hΓ' := hΓ.enterLoop.afterBlock Context.enterLoop_inner_ne_nil hb
    exact ⟨checkBlock_places hΓ.enterLoop Context.enterLoop_inner_ne_nil hb,
      Expr.check_places hΓ' (Demand.proper_ofType rfl) hc⟩
  | .branch condition thenBlock arms elseBlock loc, Γ, Δ, t, hΓ, _, h => by
    simp only [check, Report.yields_bind, Report.yields_pure, Prod.mk.injEq] at h
    obtain ⟨typed, hc, ⟨thenBlock', _⟩, ht, arms', ha, elseBlock', he, rfl, rfl⟩ := h
    rw [Typed.Stmt.places, List.forall_mem_append, List.forall_mem_append]
    exact ⟨⟨Expr.check_places hΓ (Demand.proper_ofType rfl) hc,
      checkBlock_places hΓ.enter Context.enter_inner_ne_nil ht⟩,
      nestArms_places (checkArms_places hΓ ha) (checkElse_places hΓ he)⟩
  | .numericFor decl start limit step body loc, Γ, Δ, t, hΓ, _, h => by
    simp only [check, Report.yields_bind, Report.yields_pure, Prod.mk.injEq] at h
    obtain ⟨header, hh, Γ', hd, ⟨body', _⟩, hb, rfl, rfl⟩ := h
    obtain ⟨hdecl, hs, hl, hst⟩ := Context.numericHeader_places hΓ hh
    obtain ⟨hΓ', hin⟩ := hΓ.loopBody (Context.numericHeader_proper hΓ.proper hh) hd
    simp only [Typed.Stmt.places, List.forall_mem_append, List.forall_mem_cons]
    exact ⟨⟨⟨⟨hdecl, hs⟩, hl⟩, hst⟩, checkBlock_places hΓ' hin hb⟩
  | .genericFor decls values body loc, Γ, Δ, t, hΓ, _, h => by
    simp only [check, Report.yields_bind, Report.yields_pure, Prod.mk.injEq] at h
    obtain ⟨iterated, hi, typed, hv, Γ', hd, ⟨body', _⟩, hb, rfl, rfl⟩ := h
    have hp := Context.genericHeader_proper hΓ.proper hi hv
    obtain ⟨hΓ', hin⟩ := hΓ.loopBody hp hd
    rw [Typed.Stmt.places, List.forall_mem_append, List.forall_mem_append]
    exact ⟨⟨hΓ.decls hp, Context.iterate_places hΓ hi⟩, checkBlock_places hΓ' hin hb⟩
  | .ret values loc, Γ, Δ, t, hΓ, _, h => by
    simp only [check, Report.yields_bind, Report.yields_pure, Prod.mk.injEq] at h
    obtain ⟨list, hv, _, -, rfl, rfl⟩ := h
    rw [Typed.Stmt.places]
    exact Expr.checkValues_places hΓ (by simpa using hΓ.proper.returns) hv
  | .brk loc, Γ, Δ, t, hΓ, _, h => by
    simp only [check, Report.yields_bind, Report.yields_pure, Prod.mk.injEq] at h
    obtain ⟨_, -, rfl, rfl⟩ := h
    simp [Typed.Stmt.places]

theorem checkBlock_places : ∀ {stmts : List Source.Stmt} {Γ Δ : Context}
    {typed : List Typed.Stmt}, Γ.Admits modules P → Γ.scopes.inner ≠ [] →
      (checkBlock Γ stmts).Yields (typed, Δ) → ∀ place ∈ Typed.Stmt.listPlaces typed, P place
  | [], Γ, Δ, typed, _, _, h => by
    simp only [checkBlock, Report.yields_pure, Prod.mk.injEq] at h
    simp [h.1, Typed.Stmt.listPlaces]
  | stmt :: rest, Γ, Δ, typed, hΓ, hin, h => by
    simp only [checkBlock, Report.yields_bind, Report.yields_pure, Prod.mk.injEq] at h
    obtain ⟨⟨t, Γ'⟩, hs, ⟨ts, Δ'⟩, hr, rfl, rfl⟩ := h
    obtain ⟨hΓ', hin'⟩ := hΓ.afterStmt hin hs
    rw [Typed.Stmt.listPlaces, List.forall_mem_append]
    exact ⟨check_places hΓ hin hs, checkBlock_places hΓ' hin' hr⟩

theorem checkArms_places : ∀ {arms : List Arm} {Γ : Context}
    {typed : List (Typed.Expr × Typed.Block)}, Γ.Admits modules P →
      (checkArms Γ arms).Yields typed → ∀ arm ∈ typed, (∀ place ∈ arm.1.places, P place) ∧
        ∀ place ∈ Typed.Stmt.listPlaces arm.2, P place
  | [], Γ, typed, _, h => by
    rw [checkArms, Report.yields_pure] at h
    simp [h]
  | ⟨condition, body⟩ :: rest, Γ, typed, hΓ, h => by
    simp only [checkArms, Report.yields_bind, Report.yields_pure] at h
    obtain ⟨condition', hc, ⟨body', _⟩, hb, arms', ha, rfl⟩ := h
    rw [List.forall_mem_cons]
    exact ⟨⟨Expr.check_places hΓ (Demand.proper_ofType rfl) hc,
      checkBlock_places hΓ.enter Context.enter_inner_ne_nil hb⟩, checkArms_places hΓ ha⟩

theorem checkElse_places : ∀ {body : Option (List Source.Stmt)} {Γ : Context}
    {typed : List Typed.Stmt}, Γ.Admits modules P → (checkElse Γ body).Yields typed →
      ∀ place ∈ Typed.Stmt.listPlaces typed, P place
  | none, Γ, typed, _, h => by
    rw [checkElse, Report.yields_pure] at h
    simp [h, Typed.Stmt.listPlaces]
  | some body, Γ, typed, hΓ, h => by
    simp only [checkElse, Report.yields_bind, Report.yields_pure] at h
    obtain ⟨⟨body', _⟩, hb, rfl⟩ := h
    exact checkBlock_places hΓ.enter Context.enter_inner_ne_nil hb

end

end Source.Stmt

end LuaTyping
