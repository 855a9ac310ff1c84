import LuaTyping.Proofs.Soundness.Loop
import LuaTyping.Proofs.Known.Types
import LuaTyping.Proofs.Typing.Values

/-!
# The iteration protocol

A `for … in` loop wants three values: a function of two parameters, a state and a control value.  They
can come from separate expressions, from one call, or from some of each.  `LoopTypes.violations` is
the protocol in terms of the types of the values alone, and the checker follows it however the values
are split over expressions (`Context.iterate_protocol`): what it reports, and the types and marks of
the loop variables, depend on nothing else.
-/

namespace LuaTyping

open Typed (flatTypes)

/-! ### The protocol -/

/-- What is wrong with a value of the type in a place where something may be wanted. -/
def Ty.misfit (ty : Ty) : Option Want → List Violation
  | some want =>
    if ty.compatible want.ty || ty.isAny || want.ty.isAny then []
    else [.typeMismatch want.ty ty want.site]
  | none => []

namespace LoopTypes

/-- What is wrong with the number of the values behind an iterator function. -/
def count : List Ty → List Violation
  | [] => [.missingLoopState]
  | [_] => [.missingLoopControl]
  | [_, _] => []
  | slots => [.tooManyLoopValues (slots.length + 1)]

/-- What is wrong with loop values of the given types.  The first has to be a function of two
parameters, and two more values have to fit these. -/
def violations : List Ty → List Violation
  | .function [state, control] _ :: slots =>
    count slots ++ (slots[0]?.toList.flatMap (Ty.misfit · (some ⟨state, .forInState⟩)) ++
      slots[1]?.toList.flatMap (Ty.misfit · (some ⟨control, .forInControl⟩)))
  | .function params _ :: _ => [.iteratorArity params.length]
  | ty :: _ => [.notAnIterator ty]
  | [] => [.notAnIterator .nil]

/-- What the iterator gives in each round, where there is one. -/
def produced : List Ty → Option (List Ty)
  | .function _ returns :: _ => some returns
  | _ => none

end LoopTypes

namespace Context

/-- What is reported about the header of a loop over values of the given types. -/
def loopMessages (Γ : Context) (types : List Ty) (decls : List Source.Decl) : List String :=
  (LoopTypes.violations types ++
    (Γ.loopVars decls (LoopTypes.produced types) .nowhere).faults.map (·.cause)).map (·.message)

/-- The types and marks of the variables of a loop over values of the given types. -/
def loopTypes (Γ : Context) (types : List Ty) (decls : List Source.Decl) : List (Ty × Bool) :=
  (Γ.loopVars decls (LoopTypes.produced types) .nowhere).value.map fun decl =>
    (decl.ty, decl.implicitCast)

end Context

/-! ### Coercion of loop values -/

/-- What is wrong with values of the given types from a position on. -/
def Ty.misfits (want : Nat → Option Want) : Nat → List Ty → List Violation
  | _, [] => []
  | position, ty :: rest => ty.misfit (want position) ++ misfits want (position + 1) rest

theorem Ty.misfits_shift (want : Nat → Option Want) (base position : Nat) (tys : List Ty) :
    misfits (fun j => want (base + j)) position tys = misfits want (base + position) tys := by
  induction tys generalizing position with
  | nil => rfl
  | cons ty rest ih => rw [misfits, misfits, ih, Nat.add_assoc]

theorem Ty.misfits_eq_nil {want : Nat → Option Want} {position : Nat}
    (h : ∀ j, position ≤ j → want j = none) (tys : List Ty) : misfits want position tys = [] := by
  induction tys generalizing position with
  | nil => rfl
  | cons ty rest ih =>
    rw [misfits, h position (Nat.le_refl _), ih fun j hj => h j (by omega)]
    rfl

namespace Typed.Expr

theorem coerce?_causes (expr : Expr) (want : Option Want) :
    (expr.coerce? want).faults.map (·.cause) = expr.ty.misfit want := by
  cases want with
  | none => rfl
  | some want =>
    simp only [coerce?, coerce, Ty.misfit, Bool.or_assoc]
    by_cases hc : expr.ty.compatible want.ty = true
    · simp [hc]
    · by_cases hany : (expr.ty.isAny || want.ty.isAny) = true
      · simp [hc, hany]
      · simp [hc, hany]

theorem results_causes (loc : Location) (want : Nat → Option Want) (position : Nat)
    (tys : List Ty) :
    (results loc want position tys).faults.map (·.cause) = Ty.misfits want position tys := by
  induction tys generalizing position with
  | nil => rfl
  | cons ty rest ih =>
    simp only [results, Report.faults_bind, Report.faults_pure, List.append_nil, List.map_append,
      coerce?_causes, ih, Ty.misfits]

end Typed.Expr

namespace LoopValues

/-- **What coercion reports depends on the types of the values**, not on where they come from. -/
theorem coerce_causes (want : Nat → Option Want) {values : List Typed.Expr} (position : Nat)
    (h : ∀ value ∈ values, value.Headed) :
    (coerce want position values).faults.map (·.cause) =
      Ty.misfits want position (flatTypes values) := by
  induction values generalizing position with
  | nil => rfl
  | cons expr rest ih =>
    rw [List.forall_mem_cons] at h
    cases rest with
    | nil =>
      rw [coerce, flatTypes]
      split
      · next hnone => rw [hnone]; rfl
      · next ty hone =>
        simp [hone, Typed.Expr.coerce?_causes, h.1.ty_eq hone, Ty.misfits]
      -- a call that is spread begins at the position where it stands
      · simp [Typed.Expr.spread, Typed.Expr.results_causes, Ty.misfits_shift]
    | cons next rest =>
      simp only [coerce, flatTypes, Report.faults_bind, Report.faults_pure, List.append_nil,
        List.map_append, Typed.Expr.coerce?_causes, ih (position + 1) h.2, Ty.misfits]

/-- Only two positions are looked at. -/
theorem misfits_want (state control : Ty) (first : Ty) (slots : List Ty) :
    Ty.misfits (want state control) 0 (first :: slots) =
      slots[0]?.toList.flatMap (Ty.misfit · (some ⟨state, .forInState⟩)) ++
        slots[1]?.toList.flatMap (Ty.misfit · (some ⟨control, .forInControl⟩)) := by
  have hrest : ∀ tys, Ty.misfits (want state control) 3 tys = [] := by
    refine Ty.misfits_eq_nil fun j hj => ?_
    match j, hj with
    | _ + 3, _ => rfl
  cases slots with
  | nil => rfl
  | cons found slots =>
    cases slots with
    | nil => simp [Ty.misfits, Ty.misfit, want]
    | cons found' slots => simp [Ty.misfits, hrest, want, Ty.misfit]

theorem requireThree_causes (slots : List Ty) (loc : Location) :
    (requireThree (slots.length + 1) loc).faults.map (·.cause) = LoopTypes.count slots := by
  cases slots with
  | nil => rfl
  | cons found slots =>
    cases slots with
    | nil => rfl
    | cons found' slots => cases slots <;> rfl

/-- The number of the values is in doubt only where one of them is of an unknown type. -/
theorem uncertain_eq_false_of_flatTypes {values : List Typed.Expr}
    (h : ∀ ty ∈ flatTypes values, ty.isUnknown = false) : uncertain values = false := by
  induction values with
  | nil => rfl
  | cons expr rest ih =>
    cases rest with
    | nil =>
      rw [uncertain, Bool.and_eq_false_iff, List.any_eq_false]
      refine Or.inr fun ty hty => ?_
      simp [h ty hty]
    | cons next rest =>
      rw [flatTypes, List.forall_mem_cons] at h
      · rw [uncertain]
        · exact ih h.2
        · simp
      · simp

end LoopValues

/-! ### Loops over an iterator -/

theorem LoopTypes.three_of_violations_eq_nil {types : List Ty} (h : violations types = []) :
    ∃ state control returns found found',
      types = [.function [state, control] returns, found, found'] := by
  unfold violations at h
  split at h
  · next state control returns slots =>
    obtain ⟨hcount, -⟩ := List.append_eq_nil_iff.mp h
    unfold count at hcount
    split at hcount <;> cases hcount
    exact ⟨state, control, returns, _, _, rfl⟩
  all_goals cases h

namespace Context

variable {Γ : Context}

/-- **An iterator is checked by the protocol.** -/
theorem iteratorLoop_protocol {exprs : List Source.Expr} {values : List Typed.Expr} (loc : Location)
    (h : (Γ.loopValues exprs).Yields values)
    (hu : ∀ ty ∈ flatTypes values, ty.isUnknown = false) :
    (Γ.iteratorLoop exprs loc).faults.map (·.cause) = LoopTypes.violations (flatTypes values) ∧
      (Γ.iteratorLoop exprs loc).value.produced = LoopTypes.produced (flatTypes values) := by
  have hcauses := fun want => LoopValues.coerce_causes want 0 (loopValues_headed h)
  rw [iteratorLoop, h.bind_eq, LoopValues.uncertain_eq_false_of_flatTypes hu]
  generalize flatTypes values = types at hu hcauses
  cases types with
  | nil => exact ⟨rfl, rfl⟩
  | cons ty slots =>
    cases ty with
    | unknown => cases hu .unknown List.mem_cons_self
    | function params returns =>
      rcases params with _ | ⟨state, _ | ⟨control, _ | ⟨more, rest⟩⟩⟩
      · exact ⟨rfl, rfl⟩
      · exact ⟨rfl, rfl⟩
      · simp [LoopTypes.violations, LoopTypes.produced, hcauses, LoopValues.misfits_want,
          LoopValues.requireThree_causes]
      · exact ⟨rfl, rfl⟩
    | _ => exact ⟨rfl, rfl⟩

/-- Where a loop stands does not matter for its variables. -/
theorem loopVars_nowhere (decls : List Source.Decl) (produced : Option (List Ty)) (loc : Location) :
    (Γ.loopVars decls produced loc).value = (Γ.loopVars decls produced .nowhere).value ∧
      (Γ.loopVars decls produced loc).faults.map (·.cause) =
        (Γ.loopVars decls produced .nowhere).faults.map (·.cause) := by
  cases produced with
  | none => exact ⟨rfl, rfl⟩
  | some types =>
    simp only [loopVars, Report.require]
    split <;> exact ⟨rfl, rfl⟩

/-- **The values of an accepted iterator** are the function and two values of its parameter types. -/
theorem iteratorLoop_flatTypes {exprs : List Source.Expr} {values : List Typed.Expr}
    {loc : Location} {state control found found' : Ty} {returns : List Ty}
    (h : (Γ.loopValues exprs).Yields values)
    (htypes : flatTypes values = [.function [state, control] returns, found, found'])
    (hk : Known (flatTypes values)) (hf : (Γ.iteratorLoop exprs loc).faults = []) :
    ∃ values' state' control', (Γ.iteratorLoop exprs loc).value.iteration = .generic values' ∧
      flatTypes values' = [.function [state, control] returns, state', control'] ∧
        state'.Agrees state ∧ control'.Agrees control := by
  have hy := Report.yields_value hf
  have hcertain : LoopValues.uncertain values = false :=
    LoopValues.uncertain_eq_false_of_flatTypes fun ty hty => Ty.not_isUnknown_of_proper (hk ty hty)
  have hfirst := hk (.function [state, control] returns) (by simp [htypes])
  generalize (Γ.iteratorLoop exprs loc).value = iterated at hy
  rw [iteratorLoop, h.bind_eq, htypes, hcertain] at hy
  simp only [List.headD_cons, Bool.false_eq_true, if_false, Report.yields_bind,
    Report.yields_pure] at hy
  obtain ⟨_, -, values', hc, rfl⟩ := hy
  have hco := LoopValues.flatTypes_coerce (LoopValues.want_proper hfirst) (loopValues_headed h) hk
    hc
  rw [htypes] at hco
  obtain ⟨state', control', hflat, hstate, hcontrol⟩ := hco.three
  exact ⟨values', state', control', rfl, hflat, hstate, hcontrol⟩

/-- **The `for … in` protocol depends only on the types of the values.**  Where the expressions are
in order and no value is of an unknown type, the messages and the types and marks of the variables
are functions of these types.  Where nothing is reported about the values, there are three of them,
the first is a function of two parameters, and the others are given the types of these. -/
theorem iterate_protocol (Γ : Context) (decls : List Source.Decl) {exprs : List Source.Expr}
    {values : List Typed.Expr} (loc : Location) (hip : Γ.ipairsCall? exprs = none)
    (h : (Γ.loopValues exprs).Yields values)
    (hu : ∀ ty ∈ flatTypes values, ty.isUnknown = false) :
    let types := flatTypes values
    let iterated := Γ.iterate exprs loc
    let vars := Γ.loopVars decls iterated.value.produced loc
    (iterated.faults ++ vars.faults).map (·.cause.message) = Γ.loopMessages types decls ∧
      vars.value.map (fun decl => (decl.ty, decl.implicitCast)) = Γ.loopTypes types decls ∧
        (iterated.faults = [] → ∃ state control returns found found',
          types = [.function [state, control] returns, found, found'] ∧
            (Known types → ∃ values' state' control',
              iterated.value.iteration = .generic values' ∧
                flatTypes values' = [.function [state, control] returns, state', control'] ∧
                  state'.Agrees state ∧ control'.Agrees control)) := by
  intro types iterated vars
  have hiter : iterated = Γ.iteratorLoop exprs loc := by
    simp only [iterated, iterate, hip]
  obtain ⟨hcauses, hproduced⟩ := iteratorLoop_protocol loc h hu
  rw [← hiter] at hcauses hproduced
  obtain ⟨hvars, hvarCauses⟩ :=
    loopVars_nowhere (Γ := Γ) decls (LoopTypes.produced types) loc
  refine ⟨?_, ?_, fun hf => ?_⟩
  · calc (iterated.faults ++ vars.faults).map (·.cause.message)
      _ = (iterated.faults.map (·.cause) ++ vars.faults.map (·.cause)).map (·.message) := by
        simp only [List.map_append, List.map_map, Function.comp_def]
      _ = Γ.loopMessages types decls := by
        rw [hcauses, loopMessages, ← hvarCauses, ← hproduced]
  · rw [loopTypes, ← hvars, ← hproduced]
  · rw [hf] at hcauses
    obtain ⟨state, control, returns, found, found', htypes⟩ :=
      LoopTypes.three_of_violations_eq_nil hcauses.symm
    refine ⟨state, control, returns, found, found', htypes, fun hk => ?_⟩
    rw [hiter] at hf ⊢
    exact iteratorLoop_flatTypes h htypes hk hf

/-- Inside a function, with an iterator in sight and a function that gives its state and its first
control value. -/
def walking : Context :=
  let var (ty : Ty) : Binding := ⟨ty, .nowhere, .inner⟩
  let step := Ty.function [.string, .integer] [.integer, .string]
  { start .standard with
    scopes := ⟨.standard,
      [[("step", var step), ("begin", var (.function [] [.any, .integer]))]], [], []⟩ }

/-- The state comes from the call, where it is of type `any`, and so does the control value. -/
theorem walking_protocol :
    let here := Location.nowhere
    let exprs := [Source.Expr.name "step" here, .call (.name "begin" here) [] here]
    let decls := [⟨"i", none, here⟩, ⟨"part", some .any, here⟩]
    let iterated := walking.iterate exprs here
    let vars := walking.loopVars decls iterated.value.produced here
    (iterated.faults ++ vars.faults).map (·.cause.message) = [] ∧
      vars.value.map (fun decl => (decl.ty, decl.implicitCast)) =
        [(.integer, false), (.any, true)] ∧
      ∃ values' state' control', iterated.value.iteration = .generic values' ∧
        flatTypes values' =
          [.function [.string, .integer] [.integer, .string], state', control'] ∧
            state'.Agrees .string ∧ control'.Agrees .integer := by
  intro here exprs decls iterated vars
  have hip : walking.ipairsCall? exprs = none := rfl
  obtain ⟨hmessages, htypes, hvalues⟩ := iterate_protocol walking decls here hip rfl (by decide)
  obtain ⟨state, control, returns, found, found', hthree, hgiven⟩ := hvalues rfl
  cases hthree
  exact ⟨hmessages, htypes, hgiven (by unfold Known; decide)⟩

end Context

end LuaTyping
