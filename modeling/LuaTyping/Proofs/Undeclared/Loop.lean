import LuaTyping.Proofs.Soundness.Loop
import LuaTyping.Proofs.Undeclared.Assignment

/-!
# Loop headers with types that are unknown in part

The header of a loop in a blurred context shows the replaced annotations in it and declares
variables of blurred types (`numericHeader_shows`, `iterate_shows`, `loopVars_shows`).  Where it is
not known what a loop goes through, its variables are `unknown` or have the types that they state.
-/

namespace LuaTyping

variable {ρ : String → NameMap Ty} {N : String} {u v w x : List Location} {Γ Γ' : Context}
  {loc : Location}

/-! ### Numeric loops -/

theorem Ty.Blurs.control {ty ty' : Ty} {name : String} (hb : ty.Blurs ρ ty')
    (hn : ty.isNumeric = true) : (ty'.control name loc).Yields ty' := by
  rcases hb.scalar (Or.inl hn) with rfl | rfl
  · rfl
  · simp [Ty.control, hn]

namespace Context

theorem numericStart_shows (hΓ : Γ.Proper false) {decl decl' : Source.Decl}
    {start start' : Source.Expr} {t : Typed.Expr} {ty : Ty} (hT : Γ.Tracks ρ N (u ++ v) Γ')
    (hd : decl.Edits N u decl') (hs : start.Edits N v start')
    (h : (Γ.numericStart decl start).Yields (t, ty)) :
    (Γ'.numericStart decl' start').Shows N (u ++ v)
        (Γ'.numericStart decl' start').value.1.quiet ∧
      ty.Blurs ρ (Γ'.numericStart decl' start').value.2 := by
  simp only [numericStart, Report.yields_bind] at h
  obtain ⟨stated, hst, h⟩ := h
  obtain ⟨hshows, hrel⟩ := hd.stated hT.left.blurs hst
  have hsame : v ≠ [] → (decl'.stated Γ').value = stated := by
    intro hne
    rw [hd.eq_of_nil (eq_nil_of_once hT.once hne), hT.right.same hne, hst.value_eq]
  unfold numericStart
  simp only [Report.value_bind]
  generalize hstated' : (decl'.stated Γ').value = stated' at hrel hsame
  cases hrel with
  | none =>
    simp only [Report.yields_bind, Report.yields_pure, Prod.mk.injEq] at h
    obtain ⟨_, hc, rfl, rfl⟩ := h
    have hf := (Source.Expr.check_mirrors hΓ hT.right hs Demand.proper_value .value (fun _ => rfl)
      hc).follows_value
    refine ⟨hshows.bind_after ?_, hf.shadows.ty⟩
    rw [hstated']
    exact hf.shows.bind_pure
  | @some ty₀ ty' hb =>
    simp only [Report.yields_bind, Report.yields_pure, Prod.mk.injEq] at h
    obtain ⟨_, hc, rfl, rfl⟩ := h
    have hm := Source.Expr.check_mirrors hΓ hT.right hs
      (Demand.proper_ofType (Source.Decl.stated_proper hΓ hst ty rfl)) (Demand.blurs_ofType hb)
      (fun hne => by cases hsame hne; rfl) hc
    refine ⟨hshows.bind_after ?_, hb⟩
    rw [hstated']
    exact hm.shows_value.bind_pure

theorem numericStep_shows (hΓ : Γ.Proper false) {step step' : Option Source.Expr} {ty ty' : Ty}
    {t : Typed.Expr} (hT : Γ.Tracks ρ N u Γ') (he : EditsOption (Source.Expr.Edits N) u step step')
    (hp : ty.proper false = true) (hb : ty.Blurs ρ ty') (hx : u ≠ [] → ty' = ty)
    (h : (Γ.numericStep ty step loc).Yields t) :
    (Γ'.numericStep ty' step' loc).Shows N u (Γ'.numericStep ty' step' loc).value.quiet := by
  cases he with
  | none =>
    have hq : (Typed.Expr.one ty' loc).quiet = true := by
      unfold Typed.Expr.one
      split <;> simp only [Typed.Expr.quiet, Typed.ExprKind.quiet]
    rw [numericStep, Report.value_pure, hq]
    exact .of_faults_eq_nil rfl
  | some he =>
    exact (Source.Expr.check_mirrors hΓ hT he (Demand.proper_ofType hp) (Demand.blurs_ofType hb)
      (fun hne => by rw [hx hne]) h).shows_value

/-- **The header of a numeric loop** with blurred types. -/
theorem numericHeader_shows (hΓ : Γ.Proper false) {decl decl' : Source.Decl}
    {start start' limit limit' : Source.Expr} {step step' : Option Source.Expr}
    {header : NumericHeader} (hT : Γ.Tracks ρ N (u ++ v ++ (w ++ x)) Γ') (hd : decl.Edits N u decl')
    (hs : start.Edits N v start') (hl : limit.Edits N w limit')
    (hst : EditsOption (Source.Expr.Edits N) x step step')
    (h : (Γ.numericHeader decl start limit step loc).Yields header) :
    (Γ'.numericHeader decl' start' limit' step' loc).Shows N (u ++ v ++ (w ++ x))
        ((Γ'.numericHeader decl' start' limit' step' loc).value.start.quiet &&
          ((Γ'.numericHeader decl' start' limit' step' loc).value.limit.quiet &&
            (Γ'.numericHeader decl' start' limit' step' loc).value.step.quiet)) ∧
      header.decl.Blurs ρ (Γ'.numericHeader decl' start' limit' step' loc).value.decl := by
  obtain ⟨ty, hstart, hn, hlimit, hstep, hdecl⟩ := numericHeader_yields hΓ h
  obtain ⟨hshows, hb⟩ := numericStart_shows hΓ hT.left hd hs hstart
  have hsame : w ++ x ≠ [] → (Γ'.numericStart decl' start').value.2 = ty := by
    intro hne
    have hnil := eq_nil_of_once hT.once hne
    rw [hd.eq_of_nil (append_eq_nil_left hnil), hs.eq_of_nil (append_eq_nil_right hnil),
      hT.right.same hne, hstart.value_eq]
  generalize hty' : (Γ'.numericStart decl' start').value.2 = ty' at hb hsame
  have hp : ty.proper false = true := Ty.proper_of_isNumeric hn
  have hlM := Source.Expr.check_mirrors hΓ hT.right.left hl (Demand.proper_ofType hp)
    (Demand.blurs_ofType hb) (fun hne => by rw [hsame (by simp [hne])]) hlimit
  have hstS := numericStep_shows hΓ hT.right.right hst hp hb (fun hne => hsame (by simp [hne])) hstep
  have hcontrol : (ty'.control decl'.name decl'.loc).Yields ty' := hb.control hn
  have hvalue : (Γ'.numericHeader decl' start' limit' step' loc).value =
      ⟨.plain decl'.name ty' decl'.loc, (Γ'.numericStart decl' start').value.1,
        (limit'.check Γ' (.ofType ⟨ty', .forLimit⟩)).value,
          (Γ'.numericStep ty' step' loc).value⟩ := by
    simp only [numericHeader, Report.value_bind, Report.value_pure, hty', hcontrol.value_eq]
  rw [hvalue, hdecl]
  refine ⟨?_, hd.name_eq, hb⟩
  refine hshows.bind ?_
  simp only [hty', hcontrol.bind_eq]
  exact hlM.shows_value.bind hstS.bind_pure

/-! ### Loops over what an iterator gives -/

/-- What a blurred loop produces: blurred types, or it is not known. -/
def ProducedBlurs (ρ : String → NameMap Ty) (produced produced' : Option (List Ty)) : Prop :=
  produced' = none ∨ ∃ types types', produced = some types ∧ produced' = some types' ∧
    List.Forall₂ (Ty.Blurs ρ) types types'

/-- A call of `ipairs` stays one, and nothing else becomes one. -/
theorem Blurs.ipairsCall? (hB : Γ.Blurs ρ N Γ') {exprs exprs' : List Source.Expr}
    (he : EditsEach (Source.Expr.Edits N) u exprs exprs') :
    Γ.ipairsCall? exprs = none ∧ Γ'.ipairsCall? exprs' = none ∨
      ∃ args args' callLoc, Γ.ipairsCall? exprs = some (args, callLoc) ∧
        Γ'.ipairsCall? exprs' = some (args', callLoc) ∧
          EditsEach (Source.Expr.Edits N) u args args' := by
  cases hip : Γ.ipairsCall? exprs with
  | some found =>
    obtain ⟨args, callLoc⟩ := found
    obtain ⟨site, ty, rfl, hl⟩ := ipairsCall?_eq_some_iff.mp hip
    cases he with
    | cons hcall hnil =>
      cases hnil
      cases hcall with
      | atom ha => cases ha
      | call hname hargs =>
        cases hname
        rw [List.append_nil, List.nil_append]
        exact Or.inr ⟨_, _, _, rfl, ipairsCall?_eq_some_iff.mpr ⟨_, _, rfl, hB.builtin_iff.mpr hl⟩,
          hargs⟩
  | none =>
    refine Or.inl ⟨rfl, ?_⟩
    cases hip' : Γ'.ipairsCall? exprs' with
    | none => rfl
    | some found =>
      obtain ⟨args, callLoc⟩ := found
      obtain ⟨site, ty, rfl, hl⟩ := ipairsCall?_eq_some_iff.mp hip'
      cases he with
      | cons hcall hnil =>
        cases hnil
        cases hcall with
        | atom ha => cases ha
        | call hname hargs =>
          cases hname
          rw [ipairsCall?_eq_some_iff.mpr ⟨_, _, rfl, hB.builtin_iff.mp hl⟩] at hip
          cases hip

theorem ipairsLoop_shows (hΓ : Γ.Proper false) {args args' : List Source.Expr}
    {iterated : Iterated} (hT : Γ.Tracks ρ N u Γ')
    (he : EditsEach (Source.Expr.Edits N) u args args')
    (h : (Γ.ipairsLoop args loc).Yields iterated) :
    (Γ'.ipairsLoop args' loc).Shows N u (Γ'.ipairsLoop args' loc).value.iteration.quiet ∧
      ProducedBlurs ρ iterated.produced (Γ'.ipairsLoop args' loc).value.produced := by
  obtain ⟨expr, array, elem, rfl, hc, hty, rfl⟩ := ipairsLoop_yields hΓ h
  cases he with
  | @cons _ _ _ expr' _ _ he hnil =>
    cases hnil
    rw [List.append_nil] at hT ⊢
    have hf := (Source.Expr.check_mirrors hΓ hT he Demand.proper_value .value (fun _ => rfl)
      hc).follows_value
    have hb := hf.shadows.ty
    rw [hty] at hb
    obtain ⟨types, htypes, hproduced⟩ : ∃ types,
        (expr'.check Γ' .value).value.ipairsTypes.Yields types ∧
          ProducedBlurs ρ (some [.integer, elem]) types := by
      unfold Typed.Expr.ipairsTypes
      generalize (expr'.check Γ' .value).value.ty = ty' at hb
      cases hb with
      | unknown => exact ⟨none, rfl, Or.inl rfl⟩
      | array hb => exact ⟨_, rfl, Or.inr ⟨_, _, rfl, rfl, .cons .integer (.cons hb .nil)⟩⟩
    have hvalue : (Γ'.ipairsLoop [expr'] loc).value =
        ⟨.ipairs (expr'.check Γ' .value).value, types⟩ := by
      simp only [ipairsLoop, List.mapM_cons, List.mapM_nil, Report.value_bind, Report.value_pure,
        htypes.value_eq]
    rw [hvalue]
    refine ⟨?_, hproduced⟩
    simp only [ipairsLoop, List.mapM_cons, List.mapM_nil, bind_assoc, pure_bind]
    refine hf.shows.bind_shown ?_
    rw [htypes.bind_eq]
    exact .bind_pure (.of_require rfl)

/-! ### Loops over an iterator function -/

theorem loopValues_shows (hΓ : Γ.Proper false) : ∀ {exprs exprs' : List Source.Expr}
    {u : List Location} {values : List Typed.Expr}, Γ.Tracks ρ N u Γ' →
      EditsEach (Source.Expr.Edits N) u exprs exprs' → (Γ.loopValues exprs).Yields values →
        (Γ'.loopValues exprs').Shows N u (Typed.Expr.quietList (Γ'.loopValues exprs').value) ∧
          List.Forall₂ (Typed.Expr.Shadows ρ) values (Γ'.loopValues exprs').value
  | _, _, _, values, _, .nil, h => by
    rw [loopValues, Report.yields_pure] at h
    simp only [h, loopValues, Report.value_pure, Typed.Expr.quietList]
    exact ⟨.of_faults_eq_nil rfl, .nil⟩
  | expr :: rest, _, _, values, hT, he, h => by
    cases he with
    | @cons u v _ expr' _ rest' he hes =>
      simp only [loopValues, Report.yields_bind, Report.yields_pure] at h
      obtain ⟨value, hv, values, hvs, rfl⟩ := h
      obtain ⟨hrest, hss⟩ := loopValues_shows hΓ hT.right hes hvs
      simp only [loopValues, Report.value_bind, Report.value_pure, Typed.Expr.quietList,
        hes.isEmpty_eq, he.isCall_eq]
      have hf : (expr'.check Γ' (if rest.isEmpty && expr.isCall then .results else .value)).Follows
          ρ N u value := by
        split_ifs at hv ⊢ with hlast
        · exact (Source.Expr.check_mirrors hΓ hT.left he Demand.proper_results .results
            (fun _ => rfl) hv).follows_results
        · exact (Source.Expr.check_mirrors hΓ hT.left he Demand.proper_value .value (fun _ => rfl)
            hv).follows_value
      exact ⟨hf.shows.bind hrest.bind_pure, .cons hf.shadows hss⟩

end Context

/-- The number of values is the same, or in doubt. -/
theorem LoopValues.count_blurs : ∀ {values values' : List Typed.Expr},
    List.Forall₂ (Typed.Expr.Shadows ρ) values values' →
      LoopValues.uncertain values' = true ∨
        (Typed.flatTypes values').length = (Typed.flatTypes values).length
  | _, _, .nil => Or.inr rfl
  | _, _, .cons hs .nil => by
    rw [Typed.flatTypes, Typed.flatTypes, LoopValues.uncertain]
    rcases hs.results with hr | ⟨hc, hr, -⟩
    · exact Or.inr hr.length_eq.symm
    · exact Or.inl (by simp [hc, hr, Ty.isUnknown])
  | _, _, .cons _ (.cons hs hss) => by
    rcases LoopValues.count_blurs (.cons hs hss) with hu | hlen
    · exact Or.inl (by simpa [LoopValues.uncertain] using hu)
    · exact Or.inr (by simpa [Typed.flatTypes] using hlen)

/-- The first value is of a blurred type. -/
theorem Typed.flatTypes_blurs {values values' : List Typed.Expr}
    (h : List.Forall₂ (Typed.Expr.Shadows ρ) values values') :
    ((Typed.flatTypes values).headD .nil).Blurs ρ ((Typed.flatTypes values').headD .nil) := by
  cases h with
  | nil => exact .nil
  | cons hs hss =>
    cases hss with
    | nil =>
      simp only [Typed.flatTypes]
      rcases hs.results with hr | ⟨-, hr, -⟩
      · exact Ty.blurs_headD hr
      · rw [hr]
        exact .unknown
    | cons _ _ => exact hs.ty

theorem LoopValues.want_blurs {state state' control control' : Ty} (hs : state.Blurs ρ state')
    (hc : control.Blurs ρ control') (j : Nat) :
    Want.Blurs ρ false (LoopValues.want state control j) (LoopValues.want state' control' j) := by
  unfold LoopValues.want
  split
  · exact .some hs
  · exact .some hc
  · exact .none

/-- Coerced loop values: those with blurred types meet the blurred wants. -/
theorem LoopValues.coerce_blurs {want want' : Nat → Option Want}
    (hw : ∀ j, Want.Blurs ρ false (want j) (want' j))
    (hpw : ∀ j, ∀ w ∈ want j, w.ty.proper true = true) : ∀ {values values' : List Typed.Expr}
      {position : Nat} {result : List Typed.Expr},
      List.Forall₂ (Typed.Expr.Shadows ρ) values values' →
        (∀ value ∈ values, ∀ ty ∈ value.ownTypes, ty.proper true = true) →
          (LoopValues.coerce want position values).Yields result →
            ∃ result', (LoopValues.coerce want' position values').Yields result' ∧
              Typed.Expr.quietList result' = Typed.Expr.quietList values'
  | _, _, _, _, .nil, _, _ => ⟨[], rfl, rfl⟩
  | last :: _, last' :: _, position, result, .cons hs .nil, hp, h => by
    have hpl := hp last (by simp)
    have hpv : ∀ ty ∈ last.valueTypes, ty.proper true = true :=
      fun ty hty => hpl ty (List.mem_cons_of_mem _ hty)
    simp only [LoopValues.coerce] at h ⊢
    rcases hs.results with hr | ⟨-, hr, hty⟩
    · generalize hv : last.valueTypes = tys at hr h hpv
      generalize hv' : last'.valueTypes = tys' at hr
      cases hr with
      | nil => exact ⟨[last'], rfl, rfl⟩
      | cons hb hrest =>
        cases hrest with
        | nil =>
          simp only [Report.yields_bind, Report.yields_pure] at h ⊢
          obtain ⟨value, hval, rfl⟩ := h
          obtain ⟨value', hval', hq, -, -⟩ := Typed.Expr.coerce?_blurs hs.ty (hw position)
            (hpl _ List.mem_cons_self) (hpw position) hval
          exact ⟨_, ⟨value', hval', rfl⟩, by simp [Typed.Expr.quietList, hq]⟩
        | cons hb₂ hrest =>
          simp only [Typed.Expr.spread, hv, hv', Report.yields_bind, Report.yields_pure] at h ⊢
          obtain ⟨_, ⟨results, hres, rfl⟩, rfl⟩ := h
          obtain ⟨results', hres', -, -⟩ := Typed.Expr.results_blurs last'.loc
            (fun j => hw (position + j)) (fun j => hpw (position + j)) (.cons hb (.cons hb₂ hrest))
            hpv hres
          refine ⟨_, ⟨_, ⟨results', hres', rfl⟩, rfl⟩, ?_⟩
          simp only [Typed.Expr.quietList, Typed.Expr.quiet, Typed.ExprKind.quiet]
    · simp only [hr, Report.yields_bind, Report.yields_pure]
      exact ⟨_, ⟨last', Typed.Expr.coerce?_unknown hty, rfl⟩, rfl⟩
  | first :: _, first' :: _, position, result, .cons hs (.cons hs₂ hss), hp, h => by
    rw [List.forall_mem_cons] at hp
    simp only [LoopValues.coerce, Report.yields_bind, Report.yields_pure] at h ⊢
    obtain ⟨value, hv, values, hvs, rfl⟩ := h
    obtain ⟨value', hv', hq, -, -⟩ := Typed.Expr.coerce?_blurs hs.ty (hw position)
      (hp.1 _ List.mem_cons_self) (hpw position) hv
    obtain ⟨rest', hrest, hqs⟩ := LoopValues.coerce_blurs hw hpw (.cons hs₂ hss) hp.2 hvs
    refine ⟨_, ⟨value', hv', rest', hrest, rfl⟩, ?_⟩
    rw [Typed.Expr.quietList, Typed.Expr.quietList, hq, hqs]

namespace Context

theorem iteratorLoop_shows (hΓ : Γ.Proper false) {exprs exprs' : List Source.Expr}
    {iterated : Iterated} (hT : Γ.Tracks ρ N u Γ')
    (he : EditsEach (Source.Expr.Edits N) u exprs exprs')
    (h : (Γ.iteratorLoop exprs loc).Yields iterated) :
    (Γ'.iteratorLoop exprs' loc).Shows N u (Γ'.iteratorLoop exprs' loc).value.iteration.quiet ∧
      ProducedBlurs ρ iterated.produced (Γ'.iteratorLoop exprs' loc).value.produced := by
  obtain ⟨values, state, control, returns, result, hv, hlen, hhead, hp, hc, rfl⟩ :=
    iteratorLoop_yields hΓ h
  obtain ⟨hshows, hrel⟩ := loopValues_shows hΓ hT he hv
  have hb := Typed.flatTypes_blurs hrel
  rw [List.headD_eq_head?_getD, hhead, Option.getD_some] at hb
  generalize hhead' : (Typed.flatTypes (Γ'.loopValues exprs').value).headD .nil = head' at hb
  cases hb with
  | unknown =>
    have hvalue : (Γ'.iteratorLoop exprs' loc).value =
        ⟨.generic (Γ'.loopValues exprs').value, none⟩ := by
      simp only [iteratorLoop, Report.value_bind, hhead', Report.value_pure]
    rw [hvalue]
    refine ⟨hshows.bind_shown ?_, Or.inl rfl⟩
    simp only [hhead']
    exact .of_faults_eq_nil rfl
  | @function _ params' _ returns' hparams hreturns =>
    obtain ⟨state', rest, hs, hrest, rfl⟩ := List.forall₂_cons_left_iff.mp hparams
    obtain ⟨control', rest, hctl, hnil, rfl⟩ := List.forall₂_cons_left_iff.mp hrest
    rw [List.forall₂_nil_left_iff] at hnil
    subst hnil
    have hpw := LoopValues.want_proper (Ty.proper_true hp)
    obtain ⟨result', hc', hq⟩ := LoopValues.coerce_blurs (LoopValues.want_blurs hs hctl) hpw hrel
      (loopValues_proper_true hΓ hv) hc
    have hthree : ∀ next : Report Iterated,
        (if LoopValues.uncertain (Γ'.loopValues exprs').value then next else do
          LoopValues.requireThree (Typed.flatTypes (Γ'.loopValues exprs').value).length loc
          next) = next := by
      intro next
      split_ifs with hu
      · rfl
      · rw [(LoopValues.count_blurs hrel).resolve_left hu, hlen]
        rfl
    have hvalue : (Γ'.iteratorLoop exprs' loc).value = ⟨.generic result', some returns'⟩ := by
      simp only [iteratorLoop, Report.value_bind, hhead', hthree, hc'.bind_eq, Report.value_pure]
    rw [hvalue]
    refine ⟨?_, Or.inr ⟨_, _, rfl, rfl, hreturns⟩⟩
    rw [show (Typed.Iteration.generic result').quiet = _ from hq]
    refine hshows.bind_shown ?_
    simp only [hhead', hthree, hc'.bind_eq]
    exact .of_faults_eq_nil rfl

/-- **What a loop goes through**, with blurred types. -/
theorem iterate_shows (hΓ : Γ.Proper false) {exprs exprs' : List Source.Expr}
    {iterated : Iterated} (hT : Γ.Tracks ρ N u Γ')
    (he : EditsEach (Source.Expr.Edits N) u exprs exprs')
    (h : (Γ.iterate exprs loc).Yields iterated) :
    (Γ'.iterate exprs' loc).Shows N u (Γ'.iterate exprs' loc).value.iteration.quiet ∧
      ProducedBlurs ρ iterated.produced (Γ'.iterate exprs' loc).value.produced := by
  unfold iterate at h ⊢
  rcases hT.blurs.ipairsCall? he with ⟨hnone, hnone'⟩ | ⟨args, args', callLoc, hsome, hsome', hargs⟩
  · rw [hnone] at h
    rw [hnone']
    exact iteratorLoop_shows hΓ hT he h
  · rw [hsome] at h
    rw [hsome']
    exact ipairsLoop_shows hΓ hT hargs h

/-! ### Loop variables -/

theorem loopVar_shows (hΓ : Γ.Proper false) {decl decl' : Source.Decl} {found found' : Ty}
    {var : Typed.Decl} (hT : Γ.Tracks ρ N u Γ') (hd : decl.Edits N u decl')
    (hp : found.proper false = true) (hb : found.Blurs ρ found')
    (h : (Γ.loopVar decl found).Yields var) :
    (Γ'.loopVar decl' found').Shows N u true ∧ var.Blurs ρ (Γ'.loopVar decl' found').value := by
  obtain ⟨stated, hst, hcases⟩ := loopVar_yields h
  obtain ⟨hshows, hrel⟩ := hd.stated hT.blurs hst
  unfold loopVar
  simp only [Report.value_bind]
  generalize hstated' : (decl'.stated Γ').value = stated' at hrel
  cases hrel with
  | none =>
    rcases hcases with ⟨-, rfl⟩ | ⟨_, hs, -⟩ | ⟨_, hs, -⟩
    · refine ⟨hshows.bind_shown ?_, hd.name_eq, hb⟩
      rw [hstated']
      exact .of_faults_eq_nil rfl
    · cases hs
    · cases hs
  | @some ty ty' hbty =>
    have hvar : found.castable ty = true ∧ var.name = decl.name ∧ var.ty = ty := by
      rcases hcases with ⟨hs, -⟩ | ⟨_, hs, hc, rfl⟩ | ⟨_, hs, -, hany, rfl⟩ <;> cases hs
      · exact ⟨by simp [Ty.castable, hc], rfl, rfl⟩
      · refine ⟨?_, rfl, rfl⟩
        rcases hany with rfl | rfl <;> simp [Ty.castable, Ty.isAny]
    obtain ⟨hcast, hname, hty⟩ := hvar
    have hpty := Source.Decl.stated_proper hΓ hst ty rfl
    have hcast' := hb.castable hbty (Ty.proper_true hp) (Ty.proper_true hpty) hcast
    simp only [Ty.castable, Bool.or_eq_true, or_assoc] at hcast'
    refine ⟨hshows.bind_shown ?_, ?_⟩
    · rw [hstated']
      simp only []
      split_ifs with hc hany
      · exact .of_faults_eq_nil rfl
      · exact .of_faults_eq_nil rfl
      · rw [Bool.or_eq_true] at hany
        exact absurd (hcast'.resolve_left hc) hany
    · simp only [Typed.Decl.Blurs, hname, hty]
      split_ifs <;> exact ⟨hd.name_eq, hbty⟩

theorem loopVarList_shows (hΓ : Γ.Proper false) : ∀ {decls decls' : List Source.Decl}
    {u : List Location} {types types' : List Ty} {vars : List Typed.Decl}, Γ.Tracks ρ N u Γ' →
      EditsEach (Source.Decl.Edits N) u decls decls' → types.length = decls.length →
        (∀ ty ∈ types, ty.proper false = true) →
          (types' = [] ∨ List.Forall₂ (Ty.Blurs ρ) types types') →
            (Γ.loopVarList decls types).Yields vars →
              (Γ'.loopVarList decls' types').Shows N u true ∧
                List.Forall₂ (Typed.Decl.Blurs ρ) vars (Γ'.loopVarList decls' types').value
  | _, _, _, types, types', vars, _, .nil, _, _, _, h => by
    rw [loopVarList, Report.yields_pure] at h
    rw [h]
    exact ⟨.of_faults_eq_nil rfl, .nil⟩
  | _ :: _, _, _, [], _, _, _, .cons _ _, hlen, _, _, _ => by simp at hlen
  | _ :: _, _ :: _, _, ty :: types, types', vars, hT, .cons hd hds, hlen, hp, hb, h => by
    rw [List.forall_mem_cons] at hp
    simp only [loopVarList, Report.yields_bind, Report.yields_pure, List.headD_cons,
      List.tail_cons] at h
    obtain ⟨var, hv, vars, hvs, rfl⟩ := h
    have hhead : ty.Blurs ρ (types'.headD .unknown) := by
      rcases hb with rfl | hb
      · exact .unknown
      · cases hb with
        | cons hb _ => exact hb
    have htail : types'.tail = [] ∨ List.Forall₂ (Ty.Blurs ρ) types types'.tail := by
      rcases hb with rfl | hb
      · exact Or.inl rfl
      · cases hb with
        | cons _ hb => exact Or.inr hb
    obtain ⟨hfirst, hvar⟩ := loopVar_shows hΓ hT.left hd hp.1 hhead hv
    obtain ⟨hrest, hvars⟩ := loopVarList_shows hΓ hT.right hds (by simpa using hlen) hp.2 htail hvs
    simp only [loopVarList]
    exact ⟨hfirst.bind_after hrest.bind_pure, .cons hvar hvars⟩

/-- **The variables of a loop** have blurred types. -/
theorem loopVars_shows (hΓ : Γ.Proper false) {decls decls' : List Source.Decl} {types : List Ty}
    {produced' : Option (List Ty)} {vars : List Typed.Decl} (hT : Γ.Tracks ρ N u Γ')
    (hd : EditsEach (Source.Decl.Edits N) u decls decls')
    (hp : ∀ ty ∈ types, ty.proper false = true) (hb : ProducedBlurs ρ (some types) produced')
    (h : (Γ.loopVars decls (some types) loc).Yields vars) :
    (Γ'.loopVars decls' produced' loc).Shows N u true ∧
      List.Forall₂ (Typed.Decl.Blurs ρ) vars (Γ'.loopVars decls' produced' loc).value := by
  obtain ⟨hlen, hl⟩ := loopVars_yields h
  rcases hb with rfl | ⟨_, types', hsome, rfl, hb⟩
  · exact loopVarList_shows hΓ hT hd hlen hp (Or.inl rfl) hl
  · cases hsome
    have hlen' : (types'.length == decls'.length) = true := by
      rw [hd.length_eq, ← hb.length_eq, hlen, beq_self_eq_true]
    have hreq : ∀ cause, (Report.require (types'.length == decls'.length) cause loc).Yields () :=
      fun cause => Report.yields_require.mpr hlen'
    rw [loopVars, (hreq _).bind_eq]
    exact loopVarList_shows hΓ hT hd hlen hp (Or.inr hb) hl

end Context

end LuaTyping
