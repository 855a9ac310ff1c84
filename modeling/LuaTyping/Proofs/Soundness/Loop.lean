import LuaTyping.Proofs.Soundness.Assignment

/-!
# Checked loop headers are well typed

The parts of a numeric header are numbers of one type (`numericHeader_typed`).  A `for … in` loop goes
through an array or follows the iteration protocol (`iterate_iterates`), and its variables bind what
it gives (`loopVars_binds`).
-/

namespace LuaTyping

open Typed (Env flatTypes)

variable {Γ : Context} {E : Env} {loc : Location}

namespace Context

/-! ### Numeric loops -/

/-- **The header of a numeric loop is well typed.** -/
theorem numericHeader_typed (hΓ : Γ.Proper false) {decl : Source.Decl} {start limit : Source.Expr}
    {step : Option Source.Expr} {header : NumericHeader}
    (h : (Γ.numericHeader decl start limit step loc).Yields header) :
    header.decl.ty.isNumeric = true ∧ header.decl.implicitCast = false ∧
      (Γ.env.Value header.start ∧ header.start.ty = header.decl.ty) ∧
        (Γ.env.Value header.limit ∧ header.limit.ty = header.decl.ty) ∧
          (Γ.env.Value header.step ∧ header.step.ty = header.decl.ty) := by
  obtain ⟨ty, hs, hn, hl, hst, hd⟩ := numericHeader_yields hΓ h
  rw [hd]
  have hty : ty.proper false = true := Ty.proper_of_isNumeric hn
  have hsub : ∀ {expr : Source.Expr} {site : Site} {t : Typed.Expr},
      (expr.check Γ (.ofType ⟨ty, site⟩)).Yields t → Γ.env.Value t ∧ t.ty = ty := by
    intro expr site t hc
    exact ⟨Source.Expr.check_ofType_value hΓ hty hc,
      (Source.Expr.check_agrees hΓ hty hc).eq_of_isNumeric hn⟩
  refine ⟨hn, rfl, ?_, hsub hl, ?_⟩
  · simp only [numericStart, Report.yields_bind] at hs
    obtain ⟨stated, hstated, hs⟩ := hs
    split at hs <;> simp only [Report.yields_bind, Report.yields_pure, Prod.mk.injEq] at hs
    · obtain ⟨_, hc, rfl, rfl⟩ := hs
      exact hsub hc
    · obtain ⟨_, hc, rfl, rfl⟩ := hs
      exact ⟨Source.Expr.check_value hΓ hc, rfl⟩
  · cases step with
    | some step => exact hsub hst
    | none =>
      simp only [numericStep, Report.yields_pure] at hst
      rw [hst, Typed.Expr.one]
      rcases Ty.isNumeric_iff.mp hn with rfl | rfl
      · exact ⟨.integer, rfl⟩
      · exact ⟨.float, rfl⟩

end Context

/-! ### Loop values -/

/-- The types of loop values after their coercion: as before where nothing is wanted, and agreeing
with what is wanted elsewhere. -/
def Ty.Coerce (want : Nat → Option Want) : Nat → List Ty → List Ty → Prop
  | _, [], [] => True
  | position, ty :: tys, ty' :: tys' =>
    (want position = none → ty' = ty) ∧ (∀ w ∈ want position, ty'.Agrees w.ty) ∧
      Coerce want (position + 1) tys tys'
  | _, _, _ => False

theorem Ty.Coerce.shift {want : Nat → Option Want} {base : Nat} : ∀ {position : Nat}
    {tys tys' : List Ty}, Coerce (fun j => want (base + j)) position tys tys' →
      Coerce want (base + position) tys tys'
  | _, [], [], h => h
  | _, _ :: _, _ :: _, h => by
    obtain ⟨hnone, hsome, hrest⟩ := h
    have hrest' := Coerce.shift hrest
    exact ⟨hnone, hsome, hrest'⟩

theorem Ty.Coerce.length_eq {want : Nat → Option Want} {position : Nat} {tys tys' : List Ty}
    (h : Coerce want position tys tys') : tys.length = tys'.length := by
  induction tys generalizing position tys' with
  | nil =>
    cases tys' with
    | nil => rfl
    | cons => exact h.elim
  | cons ty tys ih =>
    cases tys' with
    | nil => exact h.elim
    | cons ty' tys' => exact congrArg (· + 1) (ih h.2.2)

/-- Of three loop values the first is left alone, and the others agree with the parameters. -/
theorem Ty.Coerce.three {state control first second third : Ty} {tys : List Ty}
    (h : Coerce (LoopValues.want state control) 0 [first, second, third] tys) :
    ∃ second' third', tys = [first, second', third'] ∧ second'.Agrees state ∧
      third'.Agrees control := by
  obtain ⟨first', second', third', rfl⟩ := List.length_eq_three.mp h.length_eq.symm
  obtain ⟨hfirst, -, -, hsecond, -, hthird, -⟩ := h
  rw [hfirst rfl]
  exact ⟨second', third', rfl, hsecond _ rfl, hthird _ rfl⟩

namespace Typed.Expr

variable {want : Nat → Option Want}

theorem coerce?_coerce {expr t : Expr} {position : Nat} (he : expr.ty.proper true = true)
    (hw : ∀ j w, want j = some w → w.ty.proper true = true)
    (h : (expr.coerce? (want position)).Yields t) :
    (want position = none → t.ty = expr.ty) ∧ ∀ w ∈ want position, t.ty.Agrees w.ty := by
  refine ⟨fun hnone => ?_, coerce?_agrees he (hw position) h⟩
  rw [hnone, coerce?, Report.yields_pure] at h
  rw [h]

theorem results_coerce {loc : Location}
    (hw : ∀ j w, want j = some w → w.ty.proper true = true) : ∀ {tys : List Ty} {position : Nat}
      {values : List Expr}, (∀ ty ∈ tys, ty.proper true = true) →
        (results loc want position tys).Yields values →
          Ty.Coerce want position tys (values.map (·.ty))
  | [], position, values, _, h => by
    rw [results, Report.yields_pure] at h
    rw [h]
    trivial
  | ty :: rest, position, values, ht, h => by
    simp only [results, Report.yields_bind, Report.yields_pure] at h
    obtain ⟨value, hv, values, hvs, rfl⟩ := h
    rw [List.forall_mem_cons] at ht
    obtain ⟨hnone, hsome⟩ := coerce?_coerce ht.1 hw hv
    exact ⟨hnone, hsome, results_coerce hw ht.2 hvs⟩

end Typed.Expr

namespace LoopValues

theorem length_coerce (want : Nat → Option Want) (position : Nat) (values : List Typed.Expr) :
    (coerce want position values).value.length = values.length := by
  induction values generalizing position with
  | nil => rfl
  | cons expr rest ih =>
    cases rest with
    | nil =>
      rw [coerce]
      split <;> rfl
    | cons next rest =>
      simp only [coerce, Report.value_bind, Report.value_pure, List.length_cons] at ih ⊢
      rw [ih]

/-- **The types of coerced values** are as before where nothing is wanted, and agree with what is
wanted elsewhere. -/
theorem flatTypes_coerce {want : Nat → Option Want}
    (hw : ∀ j w, want j = some w → w.ty.proper true = true) {values values' : List Typed.Expr}
    {position : Nat} (hh : ∀ value ∈ values, value.Headed) (hk : ∀ ty ∈ flatTypes values, ty.proper true = true)
    (h : (coerce want position values).Yields values') :
    Ty.Coerce want position (flatTypes values) (flatTypes values') := by
  induction values generalizing position values' with
  | nil =>
    rw [coerce, Report.yields_pure] at h
    rw [h]
    trivial
  | cons expr rest ih =>
    rw [List.forall_mem_cons] at hh
    cases rest with
    | nil =>
      rw [coerce] at h
      rw [flatTypes] at hk ⊢
      split at h
      · next hnone =>
        rw [Report.yields_pure] at h
        rw [h, flatTypes, hnone]
        trivial
      · next ty hone =>
        simp only [Report.yields_bind, Report.yields_pure] at h
        obtain ⟨value, hc, rfl⟩ := h
        have hty := hh.1.ty_eq hone
        subst hty
        rw [hone, List.forall_mem_cons] at hk
        obtain ⟨hnone, hsome⟩ := Typed.Expr.coerce?_coerce hk.1 hw hc
        rw [hone, flatTypes, Typed.Expr.coerce?_valueTypes hone hc]
        exact ⟨hnone, hsome, trivial⟩
      · simp only [Typed.Expr.spread, Report.yields_bind, Report.yields_pure] at h
        obtain ⟨_, ⟨results, hr, rfl⟩, rfl⟩ := h
        have hw' : ∀ j w, want (position + j) = some w → w.ty.proper true = true :=
          fun j w hj => hw (position + j) w hj
        exact Ty.Coerce.shift (Typed.Expr.results_coerce hw' hk hr)
    | cons next rest =>
      rw [coerce] at h
      · simp only [Report.yields_bind, Report.yields_pure] at h
        obtain ⟨value, hc, values, hvs, rfl⟩ := h
        rw [flatTypes, List.forall_mem_cons] at hk
        · obtain ⟨hnone, hsome⟩ := Typed.Expr.coerce?_coerce hk.1 hw hc
          have hlen := length_coerce want (position + 1) (next :: rest)
          rw [hvs.value_eq] at hlen
          obtain ⟨first, others, rfl⟩ := List.exists_cons_of_length_eq_add_one hlen
          exact ⟨hnone, hsome, ih hh.2 hk.2 hvs⟩
        · simp
      · simp

end LoopValues

/-- The values of a loop before their coercion: the last may be a call that is not spread yet. -/
def Typed.Env.LoopList (E : Env) : List Typed.Expr → Prop
  | [] => True
  | [last] => (E.Value last ∧ last.valueTypes = [last.ty]) ∨ E.Call last
  | expr :: rest => E.Value expr ∧ E.LoopList rest

namespace Context

theorem loopValues_loopList (hΓ : Γ.Proper false) {exprs : List Source.Expr}
    {values : List Typed.Expr} (h : (Γ.loopValues exprs).Yields values) :
    Γ.env.LoopList values ∧ values.length = exprs.length := by
  induction exprs generalizing values with
  | nil =>
    rw [loopValues, Report.yields_pure] at h
    rw [h]
    exact ⟨trivial, rfl⟩
  | cons expr rest ih =>
    simp only [loopValues, Report.yields_bind, Report.yields_pure] at h
    obtain ⟨value, hv, values, hvs, rfl⟩ := h
    obtain ⟨hrest, hlen⟩ := ih hvs
    cases rest with
    -- only the last value may be a call that is not spread yet
    | nil =>
      obtain rfl := List.eq_nil_of_length_eq_zero hlen
      refine ⟨?_, rfl⟩
      split_ifs at hv with hcall
      · obtain ⟨_, _, _, _, rfl⟩ := Source.Expr.check_call_form hcall hv
        exact Or.inr ((Source.Expr.check_results hΓ Demand.proper_results hv).toCall rfl)
      · refine Or.inl ⟨Source.Expr.check_value hΓ hv, ?_⟩
        exact Source.Expr.valueTypes_of_not_isCall (by simpa using hcall) hv
    | cons next rest =>
      obtain ⟨first, others, rfl⟩ := List.exists_cons_of_length_eq_add_one hlen
      exact ⟨⟨Source.Expr.check_value hΓ hv, hrest⟩, by simpa using hlen⟩

theorem loopValues_headed {exprs : List Source.Expr} {values : List Typed.Expr}
    (h : (Γ.loopValues exprs).Yields values) : ∀ value ∈ values, value.Headed := by
  intro value hmem
  obtain ⟨_, _, -, hc⟩ := exists_of_mem_loopValues h hmem
  exact Source.Expr.check_headed hc

/-- A last value that is one value is one after its coercion. -/
theorem coerce_one_values {want : Nat → Option Want}
    (hw : ∀ j w, want j = some w → w.ty.proper true = true) {last : Typed.Expr}
    {values : List Typed.Expr} {position : Nat} (hv : E.Value last)
    (hone : last.valueTypes = [last.ty]) (hp : last.ty.proper true = true)
    (h : (LoopValues.coerce want position [last]).Yields values) : E.Values values := by
  simp only [LoopValues.coerce, hone, Report.yields_bind, Report.yields_pure] at h
  obtain ⟨value, hc, rfl⟩ := h
  exact .one (Typed.Expr.coerce?_value hp (hw position) hc hv)
    (Typed.Expr.coerce?_valueTypes hone hc)

/-- A last call gives what it returns, each of its results coerced on its own. -/
theorem coerce_call_values {want : Nat → Option Want}
    (hw : ∀ j w, want j = some w → w.ty.proper true = true) {last : Typed.Expr}
    {values : List Typed.Expr} {position : Nat} (hcall : E.Call last)
    (hp : ∀ ty ∈ last.ownTypes, ty.proper true = true)
    (h : (LoopValues.coerce want position [last]).Yields values) : E.Values values := by
  obtain @⟨callee, args, params, returns, site, _, _, _, _⟩ := id hcall
  rcases returns with _ | ⟨ty, _ | ⟨ty', rest⟩⟩
  · simp only [LoopValues.coerce, Typed.Expr.valueTypes, Report.yields_pure] at h
    rw [h]
    exact .void hcall rfl
  · have hv : E.Value ⟨.call callee args [ty], ty, site⟩ :=
      .call hcall (by simp [Typed.Expr.valueTypes])
    exact coerce_one_values hw hv rfl (hp ty List.mem_cons_self) h
  · simp only [LoopValues.coerce, Typed.Expr.valueTypes, Typed.Expr.spread,
      Report.yields_bind, Report.yields_pure] at h
    obtain ⟨_, ⟨results, hr, rfl⟩, rfl⟩ := h
    exact .spread hcall (by simp [Typed.Expr.valueTypes])
      (Typed.Expr.results_spread (fun j w hj => hw (position + j) w hj)
        (fun t ht => hp t (List.mem_cons_of_mem _ ht)) hr)

/-- **Coerced loop values are a well typed list.** -/
theorem coerce_values {want : Nat → Option Want}
    (hw : ∀ j w, want j = some w → w.ty.proper true = true) {values values' : List Typed.Expr}
    {position : Nat} (hl : E.LoopList values)
    (hp : ∀ value ∈ values, ∀ ty ∈ value.ownTypes, ty.proper true = true)
    (h : (LoopValues.coerce want position values).Yields values') : E.Values values' := by
  induction values generalizing position values' with
  | nil =>
    rw [LoopValues.coerce, Report.yields_pure] at h
    rw [h]
    exact .nil
  | cons expr rest ih =>
    rw [List.forall_mem_cons] at hp
    cases rest with
    | nil =>
      rcases hl with ⟨hv, hone⟩ | hcall
      · exact coerce_one_values hw hv hone (hp.1 _ List.mem_cons_self) h
      · exact coerce_call_values hw hcall hp.1 h
    | cons next rest =>
      obtain ⟨hv, hl⟩ := hl
      rw [LoopValues.coerce] at h
      · simp only [Report.yields_bind, Report.yields_pure] at h
        obtain ⟨value, hc, values, hvs, rfl⟩ := h
        have hlen := LoopValues.length_coerce want (position + 1) (next :: rest)
        rw [hvs.value_eq] at hlen
        obtain ⟨first, others, rfl⟩ := List.exists_cons_of_length_eq_add_one hlen
        exact .cons (Typed.Expr.coerce?_value (hp.1 _ List.mem_cons_self) (hw position) hc hv)
          (ih hl hp.2 hvs)
      · simp

theorem loopVar_binds (hΓ : Γ.Proper false) {decl : Source.Decl} {found : Ty} {typed : Typed.Decl}
    (hf : found.proper false = true) (h : (Γ.loopVar decl found).Yields typed) :
    Env.Binds found typed := by
  obtain ⟨stated, hs, ⟨-, rfl⟩ | ⟨ty, rfl, hc, rfl⟩ | ⟨ty, rfl, hc, hany, rfl⟩⟩ := loopVar_yields h
  · exact Or.inl rfl
  · have hty := Source.Decl.stated_proper hΓ hs ty rfl
    exact Ty.agrees_of_compatible (Ty.proper_true hf) (Ty.proper_true hty) hc
  · have hty := Source.Decl.stated_proper hΓ hs ty rfl
    exact Ty.converts_of_not_compatible (Ty.proper_true hf) (Ty.proper_true hty) hc hany

theorem loopVarList_binds (hΓ : Γ.Proper false) : ∀ {decls : List Source.Decl} {types : List Ty}
    {typed : List Typed.Decl}, types.length = decls.length →
      (∀ ty ∈ types, ty.proper false = true) → (Γ.loopVarList decls types).Yields typed →
        List.Forall₂ Env.Binds types typed
  | [], [], typed, _, _, h => by
    rw [loopVarList, Report.yields_pure] at h
    rw [h]
    exact .nil
  | decl :: rest, ty :: types, typed, hlen, hp, h => by
    simp only [loopVarList, Report.yields_bind, Report.yields_pure, List.headD_cons,
      List.tail_cons] at h
    obtain ⟨var, hv, vars, hvs, rfl⟩ := h
    rw [List.forall_mem_cons] at hp
    exact .cons (loopVar_binds hΓ hp.1 hv) (loopVarList_binds hΓ (by simpa using hlen) hp.2 hvs)

/-- **What a loop goes through is well typed.** -/
theorem iterate_iterates (hΓ : Γ.Proper false) {exprs : List Source.Expr} {iterated : Iterated}
    (h : (Γ.iterate exprs loc).Yields iterated) :
    ∃ types, iterated.produced = some types ∧ Γ.env.Iterates iterated.iteration types := by
  unfold iterate at h
  split at h
  · next args callLoc hip =>
    obtain ⟨expr, array, elem, rfl, hc, hty, rfl⟩ := ipairsLoop_yields hΓ h
    obtain ⟨_, ty, -, hl⟩ := ipairsCall?_eq_some_iff.mp hip
    obtain ⟨hv, hb⟩ := env_vars_of_builtin hl
    exact ⟨_, rfl, .ipairs hv hb (Source.Expr.check_value hΓ hc) hty⟩
  · obtain ⟨values, state, control, returns, values', hv, hlen, hhead, hp, hc, rfl⟩ :=
      iteratorLoop_yields hΓ h
    refine ⟨returns, rfl, ?_⟩
    have hw := LoopValues.want_proper (Ty.proper_true hp)
    have hown := loopValues_proper_true hΓ hv
    have hflat : ∀ ty ∈ flatTypes values, ty.proper true = true := by
      intro ty hty
      obtain ⟨value, hvalue, hmem⟩ := Typed.mem_ownTypes_of_mem_flatTypes hty
      exact hown value hvalue ty hmem
    have hvalues := coerce_values hw (loopValues_loopList hΓ hv).1 hown hc
    have hco := LoopValues.flatTypes_coerce hw (loopValues_headed hv) hflat hc
    obtain ⟨first, second, third, hthree⟩ := List.length_eq_three.mp hlen
    rw [hthree, List.head?_cons, Option.some.injEq] at hhead
    rw [hthree, hhead] at hco
    obtain ⟨second', third', hthree', hsecond, hthird⟩ := hco.three
    exact .generic hvalues hthree' hsecond hthird

/-- **Loop variables bind the values that the loop gives.** -/
theorem loopVars_binds (hΓ : Γ.Proper false) {decls : List Source.Decl} {types : List Ty}
    {typed : List Typed.Decl} (hp : ∀ ty ∈ types, ty.proper false = true)
    (h : (Γ.loopVars decls (some types) loc).Yields typed) : List.Forall₂ Env.Binds types typed := by
  obtain ⟨hlen, hl⟩ := loopVars_yields h
  exact loopVarList_binds hΓ hlen hp hl

end Context

end LuaTyping
