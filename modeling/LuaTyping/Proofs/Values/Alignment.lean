import LuaTyping.Proofs.Iteration.Protocol
import LuaTyping.Proofs.Sameness.Equivalence

/-!
# The values of a list and their types

A list of expressions is typed from left to right, and a call at its end stands for all of its
results.  The values and their types stay aligned, whatever is in sight and whatever is wrong
(`Source.Expr.checkValues_aligned`): there is one typed expression for each expression, and the
types are those of the values in order, of which the last expression can have any number.

What the list itself reports is told apart from what its expressions report (`placeFaults`): an
expression is first typed alone, and then its values are compared with what is expected from its
place on, each at its own position.
-/

namespace LuaTyping

open Typed (flatTypes)

/-! ### Types of values -/

/-- The types of values are those of all expressions but the last and all types of the last. -/
theorem Typed.flatTypes_eq (exprs : List Typed.Expr) :
    flatTypes exprs =
      exprs.dropLast.map (·.ty) ++ (exprs.getLast?.map (·.valueTypes)).getD [] := by
  induction exprs with
  | nil => rfl
  | cons expr rest ih =>
    cases rest with
    | nil => rfl
    | cons next rest =>
      rw [flatTypes, ih, List.dropLast_cons_cons, List.map_cons, List.getLast?_cons_cons,
        List.cons_append]
      simp

theorem Ty.isUnknown_iff {ty : Ty} : ty.isUnknown = true ↔ ty = .unknown := by
  cases ty <;> simp [isUnknown]

/-- Neither of two types that are not compatible is unknown. -/
theorem Ty.not_isUnknown_of_not_compatible {found wanted : Ty}
    (h : ¬found.compatible wanted = true) :
    found.isUnknown = false ∧ wanted.isUnknown = false := by
  constructor
  · cases found with
    | unknown => exact absurd (by rw [Ty.compatible]) h
    | _ => rfl
  · cases wanted with
    | unknown => exact absurd (by cases found <;> rfl) h
    | _ => rfl

/-! ### Wanted types -/

namespace Want

variable {expected : List (Option Ty)} {site : Nat → Site} {position j : Nat}

/-- What is wanted behind the first place. -/
theorem at?_tail :
    at? expected.tail site (position + 1) j = at? expected site position (j + 1) := by
  cases expected with
  | nil => simp [at?]
  | cons first rest => simp [at?, Nat.add_assoc, Nat.add_comm 1 j]

end Want

namespace Typed.Expr

variable {expr : Expr}

/-- A value that is coerced without a fault has a type that is compatible with the wanted one. -/
theorem coerce_compatible {want : Want} (hw : want.ty.Distinct)
    (h : (expr.coerce want).faults = []) :
    (expr.coerce want).value.ty.compatible want.ty = true := by
  unfold coerce at h ⊢
  split_ifs at h ⊢ with hc hany
  · exact hc
  · exact Ty.compatible_refl hw
  · cases h

theorem coerce?_compatible {want : Option Want} (h : (expr.coerce? want).faults = []) :
    ∀ w ∈ want, w.ty.Distinct → (expr.coerce? want).value.ty.compatible w.ty = true := by
  rintro w rfl hw
  exact coerce_compatible hw h

theorem coerce?_faults (expr : Expr) (want : Option Want) :
    (expr.coerce? want).faults = (expr.ty.misfit want).map (⟨·, expr.loc⟩) := by
  cases want with
  | none => rfl
  | some want =>
    simp only [coerce?, coerce, Ty.misfit, Bool.or_assoc]
    by_cases hc : expr.ty.compatible want.ty = true
    · simp [hc]
    · by_cases hany : (expr.ty.isAny || want.ty.isAny) = true
      · simp [hc, hany]
      · simp [hc, hany]

theorem results_faults (loc : Location) (want : Nat → Option Want) (position : Nat)
    (tys : List Ty) :
    (results loc want position tys).faults = (Ty.misfits want position tys).map (⟨·, loc⟩) := by
  induction tys generalizing position with
  | nil => rfl
  | cons ty rest ih =>
    simp only [results, Report.faults_bind, Report.faults_pure, List.append_nil, coerce?_faults, ih,
      Ty.misfits, List.map_append]

theorem results_compatible {loc : Location} {want : Nat → Option Want} {position : Nat}
    {tys : List Ty} (h : (results loc want position tys).faults = []) (j : Nat) (found : Ty)
    (hfound : ((results loc want position tys).value.map (·.ty))[j]? = some found) :
    ∀ w ∈ want (position + j), w.ty.Distinct → found.compatible w.ty = true := by
  induction tys generalizing position j with
  | nil => simp [results] at hfound
  | cons ty rest ih =>
    simp only [results, Report.faults_bind, Report.faults_pure, List.append_nil,
      List.append_eq_nil_iff] at h
    simp only [results, Report.value_bind, Report.value_pure, List.map_cons] at hfound
    cases j with
    | zero =>
      cases hfound
      exact coerce?_compatible h.1
    | succ j =>
      have hrest := ih h.2 j hfound
      rwa [Nat.add_right_comm, Nat.add_assoc] at hrest

theorem coerce?_one (want : Option Want) (h : expr.valueTypes = [expr.ty]) :
    (expr.coerce? want).value.valueTypes = [(expr.coerce? want).value.ty] := by
  cases want with
  | none => exact h
  | some want =>
    simp only [coerce?, coerce]
    split_ifs
    · exact h
    · rfl
    · exact h

/-- A value is of an unknown type behind a coercion only if it was so before. -/
theorem coerce?_isUnknown (expr : Expr) (want : Option Want) :
    (expr.coerce? want).value.ty.isUnknown = expr.ty.isUnknown := by
  cases want with
  | none => rfl
  | some want =>
    simp only [coerce?, coerce]
    split_ifs with hc hany
    · rfl
    · obtain ⟨hfound, hwanted⟩ := Ty.not_isUnknown_of_not_compatible hc
      exact hwanted.trans hfound.symm
    · rfl

end Typed.Expr

/-! ### A call at the end of a list -/

namespace Values

variable {call : Typed.Expr} {expected : List (Option Ty)} {site : Nat → Site} {position : Nat}

/-- The fault of a call without results of which something is expected. -/
def voidFaults (call : Typed.Expr) (expected : List (Option Ty)) : List Fault :=
  if call.valueTypes.isEmpty && !expected.isEmpty then [⟨.voidValue, call.loc⟩] else []

/-- A call at the end of a list is left alone if it has no results, coerced if it has one, and
spread if it has more. -/
theorem ofCall_eq (hh : call.Headed) :
    (call.valueTypes = [] ∧ ofCall call expected site position =
        ⟨⟨[call], [], position == 0 && !expected.isEmpty⟩,
          if position = 0 then voidFaults call expected else []⟩) ∨
      (call.valueTypes = [call.ty] ∧ ofCall call expected site position =
        (fun value => ⟨[value], [value.ty], value.ty.isUnknown⟩) <$>
          call.coerce? (Want.at? expected site position 0)) ∨
      call.valueTypes.isEmpty = false ∧ ofCall call expected site position =
        (fun value => ⟨[value], value.valueTypes, call.valueTypes.any Ty.isUnknown⟩) <$>
          call.spread (Want.at? expected site position) := by
  unfold ofCall
  split
  · next hnone =>
    refine .inl ⟨hnone, ?_⟩
    simp only [voidFaults, hnone, List.isEmpty_nil, Bool.true_and]
    cases position <;> cases expected <;> rfl
  · next ty hone =>
    refine .inr (.inl ⟨by rw [hone, hh.ty_eq hone], ?_⟩)
    rw [map_eq_pure_bind]
  · next hnone hone =>
    refine .inr (.inr ⟨?_, by rw [map_eq_pure_bind]⟩)
    rw [List.isEmpty_eq_false_iff]
    exact hnone

section
variable (hh : call.Headed)
include hh

theorem ofCall_value_length : (ofCall call expected site position).value.exprs.length = 1 := by
  rcases ofCall_eq hh with ⟨-, heq⟩ | ⟨-, heq⟩ | ⟨-, heq⟩ <;> rw [heq] <;> rfl

theorem ofCall_value_types : (ofCall call expected site position).value.types =
    flatTypes (ofCall call expected site position).value.exprs := by
  rcases ofCall_eq hh with ⟨hnone, heq⟩ | ⟨hone, heq⟩ | ⟨-, heq⟩ <;> rw [heq]
  · exact hnone.symm
  · exact (Typed.Expr.coerce?_one _ hone).symm
  · rfl

/-- A call compares each of its results with what is expected at its position. -/
theorem ofCall_faults : (ofCall call expected site position).faults =
    (Ty.misfits (Want.at? expected site position) 0 call.valueTypes).map (⟨·, call.loc⟩) ++
      if position = 0 then voidFaults call expected else [] := by
  rcases ofCall_eq hh with ⟨hnone, heq⟩ | ⟨hone, heq⟩ | ⟨hmany, heq⟩ <;> rw [heq]
  · simp [hnone, Ty.misfits]
  · simp [hone, Ty.misfits, Typed.Expr.coerce?_faults, voidFaults]
  · simp [Typed.Expr.spread, Typed.Expr.results_faults, voidFaults, hmany]

theorem ofCall_uncertain : (ofCall call expected site position).value.uncertain =
    (call.valueTypes.any Ty.isUnknown ||
      (position == 0 && call.valueTypes.isEmpty && !expected.isEmpty)) := by
  rcases ofCall_eq hh with ⟨hnone, heq⟩ | ⟨hone, heq⟩ | ⟨hmany, heq⟩ <;> rw [heq]
  · simp [hnone]
  · simp [hone, Typed.Expr.coerce?_isUnknown]
  · simp [hmany]

theorem ofCall_compatible (h : (ofCall call expected site position).faults = []) {j : Nat}
    {found wanted : Ty} (hw : wanted.Distinct)
    (hfound : (ofCall call expected site position).value.types[j]? = some found)
    (hwanted : expected[j]? = some (some wanted)) : found.compatible wanted = true := by
  rcases ofCall_eq hh with ⟨-, heq⟩ | ⟨-, heq⟩ | ⟨-, heq⟩ <;> rw [heq] at h hfound
  · simp at hfound
  · cases j with
    | zero =>
      cases hfound
      rw [Report.faults_map] at h
      exact Typed.Expr.coerce?_compatible h _ (Want.at?_eq_some_of hwanted) hw
    | succ j => simp at hfound
  · rw [Report.faults_map, Typed.Expr.spread, Report.faults_bind, Report.faults_pure,
      List.append_nil] at h
    refine Typed.Expr.results_compatible h j found hfound ⟨wanted, site (position + j)⟩ ?_ hw
    rw [Nat.zero_add]
    exact Want.at?_eq_some_of hwanted

end

end Values

/-! ### The places of a list -/

namespace Source.Expr

variable {Γ : Context} {site : Nat → Site}

/-- The expression at a place of a list before its values are compared with what is expected there.
A call at the end keeps all its results, a table constructor is made for the type that is wanted,
and everything else is one value. -/
def alone (Γ : Context) (last : Bool) (want : Option Want) (expr : Source.Expr) :
    Report Typed.Expr :=
  if last && expr.isCall then check Γ expr .results
  else if expr.isInit then check Γ expr (.ofWant want)
  else check Γ expr .value

/-- The types of the values that are then compared, from the place on. -/
def compared (last : Bool) (expr : Source.Expr) (typed : Typed.Expr) : List Ty :=
  if last && expr.isCall then typed.valueTypes else if expr.isInit then [] else [typed.ty]

/-- The faults at the `i`-th place of a list with `count` expressions: those of the expression, and
a mismatch for each value that does not fit at its position. -/
def placeFaults (Γ : Context) (want : Nat → Option Want) (count : Nat) (expr : Source.Expr)
    (i : Nat) : List Fault :=
  let last := i + 1 == count
  let typed := alone Γ last (want i) expr
  typed.faults ++ (Ty.misfits want i (compared last expr typed.value)).map (⟨·, typed.value.loc⟩)

/-- The fault of a list that is a call without results. -/
def voidListFaults (Γ : Context) (exprs : List Source.Expr) (expected : List (Option Ty)) :
    List Fault :=
  match exprs with
  | [expr] => if expr.isCall then Values.voidFaults (check Γ expr .results).value expected else []
  | _ => []

theorem check_ofWant (Γ : Context) {expr : Source.Expr} (want : Option Want)
    (h : expr.isInit = false) :
    check Γ expr (.ofWant want) = check Γ expr .value >>= (·.coerce? want) := by
  rw [check_eq_bind Γ (.ofWant want) h, check_eq_bind Γ .value h, bind_assoc]
  cases want with
  | none =>
    simp only [Typed.Expr.coerce?, bind_pure]
    rfl
  | some want => rfl

theorem faults_place {expr : Source.Expr} {want : Nat → Option Want} {i count : Nat}
    (h : (i + 1 == count && expr.isCall) = false) :
    (check Γ expr (.ofWant (want i))).faults = placeFaults Γ want count expr i := by
  simp only [placeFaults, alone, compared, h, Bool.false_eq_true, if_false]
  cases hi : expr.isInit with
  | true => simp [Ty.misfits]
  | false => simp [check_ofWant Γ _ hi, Typed.Expr.coerce?_faults, Ty.misfits]

/-- A table constructor that is made for a type without a fault has that type. -/
theorem check_init_compatible {entries : List Entry} {loc : Location} {want : Want}
    (hw : want.ty.Distinct) (h : (check Γ (.init entries loc) (.ofType want)).faults = []) :
    (check Γ (.init entries loc) (.ofType want)).value.ty.compatible want.ty = true := by
  obtain ⟨target, site⟩ := want
  have hself : target.compatible target = true := Ty.compatible_refl hw
  cases target with
  | array | table | record | module | unknown =>
    simp only [check]
    exact hself
  | _ => simp [check] at h

/-- A value that is checked for a type without a fault fits it. -/
theorem check_compatible {expr : Source.Expr} {want : Option Want}
    (h : (check Γ expr (.ofWant want)).faults = []) : ∀ w ∈ want, w.ty.Distinct →
      (check Γ expr (.ofWant want)).value.ty.compatible w.ty = true := by
  cases hi : expr.isInit with
  | true =>
    cases expr <;> simp only [isInit, Bool.false_eq_true] at hi
    rintro w rfl hw
    exact check_init_compatible hw h
  | false =>
    rw [check_ofWant Γ want hi] at h ⊢
    rw [Report.faults_bind, List.append_eq_nil_iff] at h
    exact Typed.Expr.coerce?_compatible h.2

/-- Induction over a checked list of values: it is empty, or it is a call, or it starts with one
value. -/
theorem checkValues_induction (Γ : Context) (site : Nat → Site)
    {motive : List Source.Expr → List (Option Ty) → Nat → Prop}
    (nil : ∀ expected position, motive [] expected position)
    (call : ∀ expr expected position, expr.isCall = true →
      checkValues Γ site [expr] expected position = (do
        let call ← check Γ expr .results
        Values.ofCall call expected site position) →
      motive [expr] expected position)
    (cons : ∀ expr rest expected position, (rest.isEmpty && expr.isCall) = false →
      checkValues Γ site (expr :: rest) expected position = (do
        let value ← check Γ expr (.ofWant (Want.at? expected site position 0))
        let values ← checkValues Γ site rest expected.tail (position + 1)
        pure (values.cons value)) →
      motive rest expected.tail (position + 1) → motive (expr :: rest) expected position)
    (exprs : List Source.Expr) (expected : List (Option Ty)) (position : Nat) :
    motive exprs expected position := by
  induction exprs generalizing expected position with
  | nil => exact nil expected position
  | cons expr rest ih =>
    cases hlast : rest.isEmpty && expr.isCall with
    | true =>
      have heq := hlast
      rw [Bool.and_eq_true, List.isEmpty_iff] at heq
      obtain ⟨rfl, hcall⟩ := heq
      exact call expr expected position hcall (by rw [checkValues, if_pos hlast])
    | false =>
      exact cons expr rest expected position hlast (by rw [checkValues, hlast, if_neg (by simp)])
        (ih _ _)

/-- **Each expression gives one typed expression.** -/
theorem checkValues_value_length (exprs : List Source.Expr) (expected : List (Option Ty))
    (position : Nat) :
    (checkValues Γ site exprs expected position).value.exprs.length = exprs.length := by
  induction exprs, expected, position using checkValues_induction Γ site with
  | nil => rw [checkValues]; rfl
  | call expr expected position hcall heq =>
    rw [heq]
    exact Values.ofCall_value_length (check_call_headed Γ hcall)
  | cons expr rest expected position hlast heq ih => simp [heq, Values.cons, ih]

/-- **The types are those that the typed expressions show.** -/
theorem checkValues_value_types (exprs : List Source.Expr) (expected : List (Option Ty))
    (position : Nat) :
    (checkValues Γ site exprs expected position).value.types =
      flatTypes (checkValues Γ site exprs expected position).value.exprs := by
  induction exprs, expected, position using checkValues_induction Γ site with
  | nil => rw [checkValues]; rfl
  | call expr expected position hcall heq =>
    rw [heq]
    exact Values.ofCall_value_types (check_call_headed Γ hcall)
  | cons expr rest expected position hlast heq ih =>
    have hlen : (checkValues Γ site rest expected.tail (position + 1)).value.exprs.length =
        rest.length := checkValues_value_length rest expected.tail (position + 1)
    simp only [heq, Report.value_bind, Report.value_pure, Values.cons, ih]
    cases rest with
    | nil =>
      rw [List.length_nil, List.length_eq_zero_iff] at hlen
      rw [hlen]
      exact (check_valueTypes Γ _ (by simpa using hlast)).symm
    | cons next rest =>
      obtain ⟨first, others, hcons⟩ := List.exists_cons_of_length_eq_add_one hlen
      rw [hcons]
      rfl

theorem placeFaults_succ (want : Nat → Option Want) (count : Nat) (expr : Source.Expr) (i : Nat) :
    placeFaults Γ (fun j => want (j + 1)) count expr i =
      placeFaults Γ want (count + 1) expr (i + 1) := by
  have hlast : (i + 1 + 1 == count + 1) = (i + 1 == count) := by simp
  have hshift := fun tys => Ty.misfits_shift want 1 i tys
  simp only [Nat.add_comm 1] at hshift
  simp only [placeFaults, hlast, hshift]

/-- **What a list reports**: at each place what its expression reports, and then the mismatches of
the values at their positions. -/
theorem checkValues_faults (exprs : List Source.Expr) (expected : List (Option Ty))
    (position : Nat) :
    (checkValues Γ site exprs expected position).faults =
      exprs.zipIdx.flatMap (fun (expr, i) =>
          placeFaults Γ (Want.at? expected site position) exprs.length expr i) ++
        if position = 0 then voidListFaults Γ exprs expected else [] := by
  induction exprs, expected, position using checkValues_induction Γ site with
  | nil => simp [checkValues, voidListFaults]
  | call expr expected position hcall heq =>
    rw [heq, Report.faults_bind, Values.ofCall_faults (check_call_headed Γ hcall)]
    simp [placeFaults, alone, compared, voidListFaults, hcall]
  | cons expr rest expected position hlast heq ih =>
    have hlist : voidListFaults Γ (expr :: rest) expected = [] := by
      cases rest with
      | nil =>
        have hcall : expr.isCall = false := hlast
        simp [voidListFaults, hcall]
      | cons => rfl
    have hfirst : (0 + 1 == (expr :: rest).length && expr.isCall) = false := by
      cases rest with
      | nil => exact hlast
      | cons => simp
    have hwant : Want.at? expected.tail site (position + 1) =
        fun j => Want.at? expected site position (j + 1) := funext fun j => Want.at?_tail
    rw [heq, Report.faults_bind, Report.faults_bind, Report.faults_pure, List.append_nil, ih,
      hlist, List.zipIdx_cons, List.flatMap_cons, faults_place hfirst, hwant, List.zipIdx_succ]
    simp [placeFaults_succ, List.flatMap_map]

/-- **The number of values is in doubt** if a result of the call at the end is of an unknown type,
or if the list is a call without results of which something is expected. -/
theorem checkValues_uncertain_iff (exprs : List Source.Expr) (expected : List (Option Ty))
    (position : Nat) :
    (checkValues Γ site exprs expected position).value.uncertain = true ↔
      ∃ call, exprs.getLast? = some call ∧ call.isCall = true ∧
        (Ty.unknown ∈ (check Γ call .results).value.valueTypes ∨
          exprs = [call] ∧ position = 0 ∧ (check Γ call .results).value.valueTypes = [] ∧
            expected ≠ []) := by
  induction exprs, expected, position using checkValues_induction Γ site with
  | nil => simp [checkValues, Values.empty]
  | call expr expected position hcall heq =>
    rw [heq, Report.value_bind, Values.ofCall_uncertain (check_call_headed Γ hcall)]
    simp [hcall, Ty.isUnknown_iff, and_assoc]
  | cons expr rest expected position hlast heq ih =>
    simp only [heq, Report.value_bind, Report.value_pure, Values.cons, ih]
    cases rest with
    | nil =>
      have hcall : expr.isCall = false := hlast
      simp [hcall]
    | cons next rest =>
      simp

/-- **Where nothing is reported, the types fit** what is expected at their positions. -/
theorem checkValues_compatible {exprs : List Source.Expr} {expected : List (Option Ty)}
    {position : Nat} (h : (checkValues Γ site exprs expected position).faults = []) {j : Nat}
    {found wanted : Ty} (hw : wanted.Distinct)
    (hfound : (checkValues Γ site exprs expected position).value.types[j]? = some found)
    (hwanted : expected[j]? = some (some wanted)) : found.compatible wanted = true := by
  induction exprs, expected, position using checkValues_induction Γ site generalizing j with
  | nil => simp [checkValues, Values.empty] at hfound
  | call expr expected position hcall heq =>
    rw [heq, Report.faults_bind, List.append_eq_nil_iff] at h
    rw [heq] at hfound
    exact Values.ofCall_compatible (check_call_headed Γ hcall) h.2 hw hfound hwanted
  | cons expr rest expected position hlast heq ih =>
    simp only [heq, Report.faults_bind, List.append_eq_nil_iff] at h
    simp only [heq, Report.value_bind, Report.value_pure, Values.cons] at hfound
    cases j with
    | zero =>
      cases hfound
      exact check_compatible h.1 _ (Want.at?_eq_some_of hwanted) hw
    | succ j =>
      refine ih h.2.1 hfound ?_
      rw [List.getElem?_tail]
      exact hwanted

/-- **The values of a list and their types are aligned**, in every context and with any faults.
There is one typed expression for each expression, and the types are those of all of them but the
last, followed by all types of the last.  The list reports what its expressions report alone, a
mismatch with the site of its position for each value that does not fit there, and a call without
results where it is the whole list.  The number of values is in doubt only if a result of the call
at the end is unknown or it has been reported to have none.  Where nothing is reported, each type is
compatible with what is expected at its position. -/
theorem checkValues_aligned (Γ : Context) (site : Nat → Site) (exprs : List Source.Expr)
    (expected : List (Option Ty)) :
    let report := checkValues Γ site exprs expected 0
    let values := report.value
    values.exprs.length = exprs.length ∧
      values.types =
        values.exprs.dropLast.map (·.ty) ++ (values.exprs.getLast?.map (·.valueTypes)).getD [] ∧
      report.faults =
        exprs.zipIdx.flatMap (fun (expr, i) =>
          placeFaults Γ (Want.at? expected site 0) exprs.length expr i) ++
            voidListFaults Γ exprs expected ∧
      (values.uncertain = true ↔ ∃ call, exprs.getLast? = some call ∧ call.isCall = true ∧
        (Ty.unknown ∈ (check Γ call .results).value.valueTypes ∨
          exprs = [call] ∧ (check Γ call .results).value.valueTypes = [] ∧ expected ≠ [] ∧
            ⟨.voidValue, (check Γ call .results).value.loc⟩ ∈ report.faults)) ∧
      (report.faults = [] → ∀ (j : Nat) (found wanted : Ty), values.types[j]? = some found →
        expected[j]? = some (some wanted) → wanted.Distinct →
          found.compatible wanted = true) := by
  intro report values
  have hfaults : report.faults = _ ++ voidListFaults Γ exprs expected :=
    checkValues_faults exprs expected 0
  refine ⟨checkValues_value_length exprs expected 0, ?_, hfaults, ?_, ?_⟩
  · rw [← Typed.flatTypes_eq]
    exact checkValues_value_types exprs expected 0
  · rw [checkValues_uncertain_iff]
    refine exists_congr fun call => and_congr_right fun _ => and_congr_right fun hcall =>
      or_congr_right ⟨?_, ?_⟩
    · rintro ⟨hlist, -, hnone, hexpected⟩
      refine ⟨hlist, hnone, hexpected, ?_⟩
      rw [hfaults, List.mem_append]
      right
      simp [hlist, voidListFaults, hcall, Values.voidFaults, hnone, hexpected]
    · rintro ⟨hlist, hnone, hexpected, -⟩
      exact ⟨hlist, rfl, hnone, hexpected⟩
  · intro h j found wanted hfound hwanted hw
    exact checkValues_compatible h hw hfound hwanted

/-- A number and the two results of a call, of which the first is of type `any`. -/
def walked : List Source.Expr :=
  [.integer 1 .nowhere, .call (.name "begin" .nowhere) [] .nowhere]

/-- The result of type `any` is converted to the array that is expected at its position. -/
theorem walked_aligned :
    let expected := [some Ty.integer, some (.array .string), some .integer]
    let report := checkValues Context.walking (fun i => .argument (i + 1)) walked expected 0
    report.faults = [] ∧ report.value.exprs.length = 2 ∧
      report.value.types = [.integer, .array .string, .integer] ∧
        (Ty.array .string).compatible (.array .string) = true := by
  intro expected report
  obtain ⟨hlength, -, -, -, hfits⟩ :=
    checkValues_aligned Context.walking (fun i => .argument (i + 1)) walked expected
  exact ⟨rfl, hlength, rfl, hfits rfl 1 _ _ rfl rfl (by decide +kernel)⟩

/-- The second result of the call is the third value. -/
example (site : Nat → Site) :
    (checkValues Context.walking site walked [none, none, some .boolean] 0).faults =
      [⟨.typeMismatch .boolean .integer (site 2), .nowhere⟩] :=
  rfl

end Source.Expr

end LuaTyping
