import LuaTyping.Checking.Loop
import LuaTyping.Proofs.Proper.Assignment

/-!
# Loop headers

What is known of the header of a loop when nothing wrong is found: the control variable of a numeric
loop is a number (`numericHeader_yields`), a `for … in` loop goes through an array or follows the
iteration protocol (`ipairsLoop_yields`, `iteratorLoop_yields`), and its variables have proper types
(`genericHeader_proper`).
-/

namespace LuaTyping

variable {modules : Bool} {Γ Δ : Context} {loc : Location}

/-! ### Numeric loops -/

theorem Ty.control_yields {ty ty' : Ty} {name : String} (hk : ty.isUnknown = false)
    (h : (ty.control name loc).Yields ty') : ty' = ty ∧ ty.isNumeric = true := by
  unfold Ty.control at h
  split_ifs at h with hc
  · rw [hk, Bool.or_false] at hc
    exact ⟨Report.yields_pure.mp h, hc⟩
  · simp at h

theorem Ty.proper_of_isNumeric {ty : Ty} (h : ty.isNumeric = true) : ty.proper modules = true := by
  rcases Ty.isNumeric_iff.mp h with rfl | rfl <;> rfl

namespace Context

variable {decl : Source.Decl} {exprs : List Source.Expr}

theorem numericStart_not_isUnknown (hΓ : Γ.Proper modules) {start : Source.Expr} {t : Typed.Expr}
    {ty : Ty} (h : (Γ.numericStart decl start).Yields (t, ty)) : ty.isUnknown = false := by
  simp only [numericStart, Report.yields_bind] at h
  obtain ⟨stated, hs, h⟩ := h
  split at h
  · next ty' =>
    simp only [Report.yields_bind, Report.yields_pure, Prod.mk.injEq] at h
    obtain ⟨_, -, -, rfl⟩ := h
    exact Ty.not_isUnknown_of_proper (Source.Decl.stated_proper hΓ hs ty rfl)
  · simp only [Report.yields_bind, Report.yields_pure, Prod.mk.injEq] at h
    obtain ⟨_, hc, -, rfl⟩ := h
    exact Ty.not_isUnknown_of_properAt
      (Source.Expr.check_proper hΓ Demand.proper_value hc _ List.mem_cons_self)

/-- **The header of a numeric loop**: its parts, and that its variable is a number. -/
theorem numericHeader_yields (hΓ : Γ.Proper modules) {start limit : Source.Expr}
    {step : Option Source.Expr} {header : NumericHeader}
    (h : (Γ.numericHeader decl start limit step loc).Yields header) :
    ∃ ty, (Γ.numericStart decl start).Yields (header.start, ty) ∧ ty.isNumeric = true ∧
      (limit.check Γ (.ofType ⟨ty, .forLimit⟩)).Yields header.limit ∧
        (Γ.numericStep ty step loc).Yields header.step ∧
          header.decl = .plain decl.name ty decl.loc := by
  simp only [numericHeader, Report.yields_bind, Report.yields_pure] at h
  obtain ⟨⟨start', ty⟩, hs, ty', hc, limit', hl, step', hst, rfl⟩ := h
  obtain ⟨rfl, hn⟩ := Ty.control_yields (numericStart_not_isUnknown hΓ hs) hc
  exact ⟨ty', hs, hn, hl, hst, rfl⟩

/-! ### Loops over what an iterator gives -/

/-- Each value of a loop comes from the check of an expression, for its value or its results. -/
theorem exists_of_mem_loopValues {values : List Typed.Expr} (h : (Γ.loopValues exprs).Yields values)
    {value : Typed.Expr} (hmem : value ∈ values) :
    ∃ (expr : Source.Expr) (demand : Demand), (∀ modules, demand.Proper modules) ∧
      (expr.check Γ demand).Yields value := by
  induction exprs generalizing values with
  | nil =>
    rw [loopValues, Report.yields_pure] at h
    simp [h] at hmem
  | cons expr rest ih =>
    simp only [loopValues, Report.yields_bind, Report.yields_pure] at h
    obtain ⟨first, hf, others, hos, rfl⟩ := h
    rcases List.mem_cons.mp hmem with rfl | hmem
    · refine ⟨expr, _, fun modules => ?_, hf⟩
      split_ifs
      · exact Demand.proper_results
      · exact Demand.proper_value
    · exact ih hos hmem

theorem loopValues_proper (hΓ : Γ.Proper modules) {values : List Typed.Expr}
    (h : (Γ.loopValues exprs).Yields values) :
    ∀ value ∈ values, ∀ ty ∈ value.ownTypes, ty.proper modules = true ∨ ty = .module [] := by
  intro value hmem ty hty
  obtain ⟨expr, demand, hd, hc⟩ := exists_of_mem_loopValues h hmem
  rcases Source.Expr.check_proper hΓ (hd modules) hc ty hty with hp | ⟨hm, -⟩
  · exact Or.inl hp
  · exact Or.inr hm

theorem loopValues_proper_true (hΓ : Γ.Proper modules) {values : List Typed.Expr}
    (h : (Γ.loopValues exprs).Yields values) :
    ∀ value ∈ values, ∀ ty ∈ value.ownTypes, ty.proper true = true := by
  intro value hmem ty hty
  rcases loopValues_proper hΓ h value hmem ty hty with hp | rfl
  · exact Ty.proper_true hp
  · rfl

theorem ipairsLoop_yields (hΓ : Γ.Proper modules) {iterated : Iterated}
    (h : (Γ.ipairsLoop exprs loc).Yields iterated) :
    ∃ expr array elem, exprs = [expr] ∧ (expr.check Γ .value).Yields array ∧
      array.ty = .array elem ∧ iterated = ⟨.ipairs array, some [.integer, elem]⟩ := by
  simp only [ipairsLoop, Report.yields_bind, Report.yields_require, Report.yields_mapM,
    beq_iff_eq] at h
  obtain ⟨args, ha, _, hlen, h⟩ := h
  obtain ⟨array, rfl⟩ := List.length_eq_one_iff.mp hlen
  obtain ⟨expr, _, hc, hnil, rfl⟩ := List.forall₂_cons_right_iff.mp ha
  rw [List.forall₂_nil_right_iff] at hnil
  simp only [Report.yields_bind, Report.yields_pure] at h
  obtain ⟨types, ht, rfl⟩ := h
  have hk := Ty.not_isUnknown_of_properAt
    (Source.Expr.check_proper hΓ Demand.proper_value hc _ List.mem_cons_self)
  unfold Typed.Expr.ipairsTypes at ht
  split at ht
  · next elem hty =>
    rw [Report.yields_pure] at ht
    exact ⟨expr, array, elem, by rw [hnil], hc, hty, by rw [ht]⟩
  · next hty => simp [hty, Ty.isUnknown] at hk
  · simp at ht

theorem requireThree_yields {count : Nat} {u : Unit}
    (h : (LoopValues.requireThree count loc).Yields u) : count = 3 := by
  unfold LoopValues.requireThree at h
  split at h <;> simp at h
  rfl

end Context

theorem Typed.mem_ownTypes_of_mem_flatTypes : ∀ {values : List Typed.Expr} {ty : Ty},
    ty ∈ Typed.flatTypes values → ∃ value ∈ values, ty ∈ value.ownTypes
  | [], ty, h => by simp [Typed.flatTypes] at h
  | [last], ty, h => ⟨last, by simp, List.mem_cons_of_mem _ h⟩
  | expr :: next :: rest, ty, h => by
    rw [Typed.flatTypes, List.mem_cons] at h
    · rcases h with rfl | h
      · exact ⟨expr, by simp, List.mem_cons_self⟩
      · obtain ⟨value, hv, hty⟩ := Typed.mem_ownTypes_of_mem_flatTypes h
        exact ⟨value, List.mem_cons_of_mem _ hv, hty⟩
    · simp

/-- An iterator function with a proper type wants values of proper types. -/
theorem LoopValues.want_proper {state control : Ty} {returns : List Ty}
    (hp : (Ty.function [state, control] returns).proper modules = true) (j : Nat) (w : Want)
    (h : LoopValues.want state control j = some w) : w.ty.proper modules = true := by
  rw [Ty.proper_function_iff] at hp
  unfold LoopValues.want at h
  split at h <;> cases h
  · exact hp.1 state (by simp)
  · exact hp.1 control (by simp)

theorem LoopValues.uncertain_eq_false : ∀ {values : List Typed.Expr},
    (∀ value ∈ values, ∀ ty ∈ value.ownTypes, ty.isUnknown = false) →
      LoopValues.uncertain values = false
  | [], _ => rfl
  | [last], h => by
    rw [LoopValues.uncertain, Bool.and_eq_false_iff, List.any_eq_false]
    refine Or.inr fun ty hty => ?_
    simp [h last (by simp) ty (List.mem_cons_of_mem _ hty)]
  | _ :: next :: rest, h => by
    rw [LoopValues.uncertain]
    · exact LoopValues.uncertain_eq_false fun value hv => h value (List.mem_cons_of_mem _ hv)
    · simp

namespace Context

variable {exprs : List Source.Expr}

/-- **The iteration protocol**: three values, of which the first is a function of the other two. -/
theorem iteratorLoop_yields (hΓ : Γ.Proper modules) {iterated : Iterated}
    (h : (Γ.iteratorLoop exprs loc).Yields iterated) :
    ∃ values state control returns values', (Γ.loopValues exprs).Yields values ∧
      (Typed.flatTypes values).length = 3 ∧
        (Typed.flatTypes values).head? = some (.function [state, control] returns) ∧
          (Ty.function [state, control] returns).proper modules = true ∧
            (LoopValues.coerce (LoopValues.want state control) 0 values).Yields values' ∧
              iterated = ⟨.generic values', some returns⟩ := by
  simp only [iteratorLoop, Report.yields_bind] at h
  obtain ⟨values, hv, h⟩ := h
  have hp := loopValues_proper hΓ hv
  have hflat : ∀ ty ∈ Typed.flatTypes values, ty.proper modules = true ∨ ty = .module [] := by
    intro ty hty
    obtain ⟨value, hmem, hown⟩ := Typed.mem_ownTypes_of_mem_flatTypes hty
    exact hp value hmem ty hown
  have hunc : LoopValues.uncertain values = false := by
    refine LoopValues.uncertain_eq_false fun value hmem ty hty => ?_
    rcases hp value hmem ty hty with hp | rfl
    · exact Ty.not_isUnknown_of_proper hp
    · rfl
  cases htypes : Typed.flatTypes values with
  | nil => simp [htypes] at h
  | cons first rest =>
    have hfirst := hflat first (by simp [htypes])
    rw [htypes, List.headD_cons] at h
    split at h
    · next state control returns =>
      simp only [hunc, Bool.false_eq_true, if_false, Report.yields_bind, Report.yields_pure] at h
      obtain ⟨_, hthree, values', hc, rfl⟩ := h
      refine ⟨values, state, control, returns, values', hv, ?_, ?_, ?_, hc, rfl⟩
      · rw [htypes]
        exact requireThree_yields hthree
      · rw [htypes, List.head?_cons]
      · exact hfirst.resolve_right (by simp)
    · simp at h
    · rcases hfirst with hf | hf <;> simp [Ty.proper] at hf
    · simp at h

theorem ipairsCall?_eq_some_iff {args : List Source.Expr} :
    Γ.ipairsCall? exprs = some (args, loc) ↔
      ∃ site ty, exprs = [.call (.name Builtins.ipairs site) args loc] ∧
        Γ.scopes.lookup Builtins.ipairs = some (.builtin ty) := by
  constructor
  · intro h
    unfold ipairsCall? at h
    split at h
    · next name site args' loc' =>
      split at h
      · next ty hl =>
        split_ifs at h with hname
        cases h
        subst hname
        exact ⟨site, ty, rfl, hl⟩
      · cases h
    · cases h
  · rintro ⟨site, ty, rfl, hl⟩
    simp [ipairsCall?, hl]

/-- What a loop goes through gives values of proper types, of a number that is known. -/
theorem iterate_proper (hΓ : Γ.Proper modules) {iterated : Iterated}
    (h : (Γ.iterate exprs loc).Yields iterated) :
    ∃ types, iterated.produced = some types ∧ ∀ ty ∈ types, ty.proper modules = true := by
  unfold iterate at h
  split at h
  · obtain ⟨expr, array, elem, -, hc, hty, rfl⟩ := ipairsLoop_yields hΓ h
    refine ⟨_, rfl, ?_⟩
    have hat := Source.Expr.check_proper hΓ Demand.proper_value hc _ List.mem_cons_self
    rw [hty] at hat
    rcases hat with hp | ⟨hm, -⟩
    · simpa [Ty.proper] using hp
    · cases hm
  · obtain ⟨_, _, _, returns, _, -, -, -, hp, -, rfl⟩ := iteratorLoop_yields hΓ h
    refine ⟨returns, rfl, ?_⟩
    exact (Ty.proper_function_iff.mp hp).2

/-- A loop variable has the type that it states, or else the one that is found. -/
theorem loopVar_yields {decl : Source.Decl} {found : Ty} {typed : Typed.Decl}
    (h : (Γ.loopVar decl found).Yields typed) :
    ∃ stated, (decl.stated Γ).Yields stated ∧
      (stated = none ∧ typed = .plain decl.name found decl.loc ∨
        (∃ ty, stated = some ty ∧ found.compatible ty = true ∧
          typed = .plain decl.name ty decl.loc) ∨
        ∃ ty, stated = some ty ∧ found.compatible ty = false ∧ (found = .any ∨ ty = .any) ∧
          typed = ⟨decl.name, ty, decl.loc, true⟩) := by
  simp only [loopVar, Report.yields_bind] at h
  obtain ⟨stated, hs, h⟩ := h
  refine ⟨stated, hs, ?_⟩
  split at h
  · exact Or.inl ⟨rfl, Report.yields_pure.mp h⟩
  · next ty =>
    split_ifs at h with hc hany
    · exact Or.inr (Or.inl ⟨ty, rfl, hc, Report.yields_pure.mp h⟩)
    · rw [Bool.or_eq_true, Ty.isAny_iff, Ty.isAny_iff] at hany
      exact Or.inr (Or.inr ⟨ty, rfl, Bool.eq_false_iff.mpr hc, hany, Report.yields_pure.mp h⟩)
    · simp at h

theorem loopVar_proper (hΓ : Γ.Proper modules) {decl : Source.Decl} {found : Ty}
    {typed : Typed.Decl} (hf : found.proper modules = true)
    (h : (Γ.loopVar decl found).Yields typed) : typed.ty.proper modules = true := by
  obtain ⟨stated, hs, ⟨-, rfl⟩ | ⟨ty, rfl, -, rfl⟩ | ⟨ty, rfl, -, -, rfl⟩⟩ := loopVar_yields h
  · exact hf
  · exact Source.Decl.stated_proper hΓ hs ty rfl
  · exact Source.Decl.stated_proper hΓ hs ty rfl

/-- Loop variables stand for the values that the loop gives, one for each. -/
theorem loopVars_yields {decls : List Source.Decl} {types : List Ty} {typed : List Typed.Decl}
    (h : (Γ.loopVars decls (some types) loc).Yields typed) :
    types.length = decls.length ∧ (Γ.loopVarList decls types).Yields typed := by
  simp only [loopVars, Report.yields_bind, Report.yields_require, beq_iff_eq] at h
  obtain ⟨_, hlen, hl⟩ := h
  exact ⟨hlen, hl⟩

theorem loopVarList_proper (hΓ : Γ.Proper modules) : ∀ {decls : List Source.Decl}
    {types : List Ty} {typed : List Typed.Decl}, types.length = decls.length →
      (∀ ty ∈ types, ty.proper modules = true) → (Γ.loopVarList decls types).Yields typed →
        ∀ decl ∈ typed, decl.ty.proper modules = true
  | [], _, typed, _, _, h => by
    rw [loopVarList, Report.yields_pure] at h
    simp [h]
  | decl :: rest, [], _, hlen, _, _ => by simp at hlen
  | decl :: rest, ty :: types, typed, hlen, hp, h => by
    simp only [loopVarList, Report.yields_bind, Report.yields_pure, List.headD_cons,
      List.tail_cons] at h
    obtain ⟨var, hv, vars, hvs, rfl⟩ := h
    rw [List.forall_mem_cons] at hp ⊢
    exact ⟨loopVar_proper hΓ hp.1 hv, loopVarList_proper hΓ (by simpa using hlen) hp.2 hvs⟩

/-- **The variables of a loop** have proper types. -/
theorem loopVars_proper (hΓ : Γ.Proper modules) {decls : List Source.Decl} {types : List Ty}
    {typed : List Typed.Decl} (hp : ∀ ty ∈ types, ty.proper modules = true)
    (h : (Γ.loopVars decls (some types) loc).Yields typed) :
    ∀ decl ∈ typed, decl.ty.proper modules = true := by
  obtain ⟨hlen, hl⟩ := loopVars_yields h
  exact loopVarList_proper hΓ hlen hp hl

/-- **The header of a numeric loop** declares a variable of a proper type. -/
theorem numericHeader_proper (hΓ : Γ.Proper modules) {decl : Source.Decl}
    {start limit : Source.Expr} {step : Option Source.Expr} {header : NumericHeader}
    (h : (Γ.numericHeader decl start limit step loc).Yields header) :
    ∀ decl ∈ [header.decl], decl.ty.proper modules = true := by
  obtain ⟨ty, -, hn, -, -, hd⟩ := numericHeader_yields hΓ h
  simpa [hd, Typed.Decl.plain] using Ty.proper_of_isNumeric hn

/-- **The header of a `for … in` loop** declares variables of proper types. -/
theorem genericHeader_proper (hΓ : Γ.Proper modules) {iterated : Iterated}
    {decls : List Source.Decl} {typed : List Typed.Decl}
    (hi : (Γ.iterate exprs loc).Yields iterated)
    (hv : (Γ.loopVars decls iterated.produced loc).Yields typed) :
    ∀ decl ∈ typed, decl.ty.proper modules = true := by
  obtain ⟨types, htypes, hp⟩ := iterate_proper hΓ hi
  rw [htypes] at hv
  exact loopVars_proper hΓ hp hv

end Context

end LuaTyping
