import LuaTyping.Proofs.Stack.Machine
import LuaTyping.Proofs.Typing.Values

/-!
# Loop headers by index

With a state, the values after `in` are gathered in a list that is changed in place.  A second list
says of each of the flattened values which type it has, and at which index its expression stands if
that yields this one value; a call that yields several is remembered by its index and by the number
of values before it.  The values for the state and the control are then looked up by these indices,
and so are the two parameters of the iterator function.

All the indices are in range, and what comes out is what the checks on contexts give
(`Does.iterate`).
-/

namespace LuaTyping

namespace Source.Expr

/-- An expression other than a call is not typed as one. -/
theorem check_not_isCall (Γ : Context) {expr : Source.Expr} (h : expr.isCall = false) :
    (check Γ expr .value).value.isCall = false := by
  have hsettle : ∀ found : Typed.Expr, found.isCall = false →
      (Demand.settle .value found).value.isCall = false := by
    intro found hfound
    rw [Demand.settle, Typed.Expr.single]
    split
    · next hkind => simp [Typed.Expr.isCall, hkind] at hfound
    · exact hfound
  cases expr with
  | call => cases h
  | init entries loc => simp only [check]; rfl
  | name text loc =>
    simp only [check, Report.value_bind]
    refine hsettle _ ?_
    unfold Context.nameExpr
    split <;> rfl
  | field object key loc =>
    simp only [check]
    split <;> simp only [Report.value_bind]
    · exact hsettle _ rfl
    · refine hsettle _ ?_
      unfold Context.fieldExpr
      split <;> rfl
  | unary op operand loc =>
    simp only [check, Report.value_bind]
    refine hsettle _ ?_
    rw [Typed.Expr.isCall, Typed.Expr.unary_kind]
  | binary left op right loc =>
    simp only [check, Report.value_bind]
    refine hsettle _ ?_
    obtain ⟨_, _, hkind, -⟩ := Typed.Expr.binary_kind op _ _ loc
    rw [Typed.Expr.isCall, hkind]
  | _ =>
    simp only [check, Report.value_bind]
    exact hsettle _ rfl

theorem check_isCall (Γ : Context) {expr : Source.Expr} (h : expr.isCall = true) :
    (check Γ expr .results).value.isCall = true := by
  cases expr <;> simp only [isCall, Bool.false_eq_true] at h
  simp only [check, Report.value_bind]
  split <;> rfl

end Source.Expr

namespace Stack

/-! ### The loop values -/

/-- The values after `in` as far as they have been gathered: the expressions, the type of each
flattened value with the index of its expression, a call of several values with the number of values
before it, and whether the number of values is in doubt. -/
structure Gathered where
  typed : List Typed.Expr
  flat : List (Ty × Option Nat)
  expanded : Option (Nat × Nat)
  uncertain : Bool

namespace Gathered

/-- No values. -/
def empty : Gathered :=
  ⟨[], [], none, false⟩

/-- An expression with one value behind the others. -/
def addValue (found : Gathered) (value : Typed.Expr) : Gathered :=
  { found with
    typed := found.typed ++ [value]
    flat := found.flat ++ [(value.ty, some found.typed.length)] }

/-- A call with all its values behind the others. -/
def addCall (found : Gathered) (call : Typed.Expr) : Run Gathered := do
  let returns := call.valueTypes
  let uncertain := found.uncertain || returns.any Ty.isUnknown
  if returns.length = 1 then
    let first ← item returns 0
    pure ⟨found.typed ++ [call], found.flat ++ [(first, some found.typed.length)], found.expanded,
      uncertain⟩
  else
    let expanded :=
      if 1 < returns.length then some (found.typed.length, found.flat.length) else found.expanded
    pure ⟨found.typed ++ [call], found.flat ++ returns.map (·, none), expanded, uncertain⟩

end Gathered

/-- Types the expressions after `in`, behind those that have been gathered. -/
def gather : List Source.Expr → Gathered → Run Gathered
  | [], found => pure found
  | expr :: rest, found =>
    if rest.isEmpty && expr.isCall then do
      let call ← look (expr.check · .results)
      let found ← found.addCall call
      gather rest found
    else do
      let value ← look (expr.check · .value)
      gather rest (found.addValue value)

/-- The types of the values from an index on, each with its index. -/
def slots : Nat → List Typed.Expr → List (Ty × Option Nat)
  | _, [] => []
  | index, [last] =>
    match last.valueTypes with
    | [ty] => [(ty, some index)]
    | types => types.map (·, none)
  | index, value :: rest => (value.ty, some index) :: slots (index + 1) rest

/-- The index of a call of several values at the end, and the number of values before it. -/
def spreadAt : Nat → Nat → List Typed.Expr → Option (Nat × Nat)
  | _, _, [] => none
  | index, count, [last] => if 1 < last.valueTypes.length then some (index, count) else none
  | index, count, _ :: rest => spreadAt (index + 1) (count + 1) rest

/-- The gathered values with more behind them. -/
def Gathered.extend (found : Gathered) (values : List Typed.Expr) : Gathered where
  typed := found.typed ++ values
  flat := found.flat ++ slots found.typed.length values
  expanded := (spreadAt found.typed.length found.flat.length values).or found.expanded
  uncertain := found.uncertain || LoopValues.uncertain values

theorem Gathered.addCall_eq (found : Gathered) {call : Typed.Expr} (h : call.isCall = true) :
    found.addCall call = pure (found.extend [call]) := by
  unfold addCall extend slots spreadAt LoopValues.uncertain
  rw [h, Bool.true_and]
  rcases call.valueTypes with _ | ⟨ty, _ | ⟨ty', tys⟩⟩ <;> rfl

theorem Gathered.extend_addValue (found : Gathered) {value : Typed.Expr} {values : List Typed.Expr}
    (h : values = [] → value.valueTypes = [value.ty] ∧ value.isCall = false) :
    (found.addValue value).extend values = found.extend (value :: values) := by
  cases values with
  | nil =>
    obtain ⟨htypes, hcall⟩ := h rfl
    simp [addValue, extend, slots, spreadAt, LoopValues.uncertain, htypes, hcall]
  | cons next rest =>
    simp [addValue, extend, slots, spreadAt, LoopValues.uncertain]

variable {Γ : Context}

theorem Does.gather (exprs : List Source.Expr) (found : Gathered) :
    Does (gather exprs found) Γ (found.extend (Γ.loopValues exprs).value) Γ
      (Γ.loopValues exprs).faults [] := by
  induction exprs generalizing found with
  | nil =>
    have hnil : found.extend [] = found := by
      simp [Gathered.extend, slots, spreadAt, LoopValues.uncertain]
    rw [Context.loopValues, Report.value_pure, hnil]
    exact .pure
  | cons expr rest ih =>
    simp only [Stack.gather, Context.loopValues, Report.value_bind, Report.value_pure,
      Report.faults_bind, Report.faults_pure, List.append_nil]
    cases hlast : rest.isEmpty && expr.isCall with
    | true =>
      rw [Bool.and_eq_true, List.isEmpty_iff] at hlast
      obtain ⟨rfl, hcall⟩ := hlast
      refine (look _).bind_nil ?_
      rw [Gathered.addCall_eq found (Source.Expr.check_isCall Γ hcall), pure_bind]
      exact .pure
    | false =>
      have hone : (Γ.loopValues rest).value = [] → expr.isCall = false := by
        intro hnil
        cases rest with
        | nil => simpa using hlast
        | cons => simp [Context.loopValues] at hnil
      simp only [Bool.false_eq_true, if_false]
      rw [← found.extend_addValue fun hnil => ⟨Source.Expr.check_valueTypes Γ .value (hone hnil),
        Source.Expr.check_not_isCall Γ (hone hnil)⟩]
      exact (look _).bind_nil (ih _)

/-! ### Coercion by index -/

/-- What the iterator function wants of the value in a slot: its first parameter is the state, and
its second the control. -/
def slotWant (params : List Ty) : Nat → Run (Option Want)
  | 1 => do
    let state ← item params 0
    pure (some ⟨state, .forInState⟩)
  | 2 => do
    let control ← item params 1
    pure (some ⟨control, .forInControl⟩)
  | _ => pure none

/-- Coerces the expression of a slot, if there is one that yields just this value. -/
def coerceSlot (params : List Ty) (flat : List (Ty × Option Nat)) (slot : Nat)
    (typed : List Typed.Expr) : Run (List Typed.Expr) := do
  let want ← slotWant params slot
  match flat[slot]? with
  | some (_, some index) =>
    let value ← item typed index
    let value ← emit (value.coerce? want)
    replace typed index value
  | _ => pure typed

/-- The results of a call from the given position on, each as the value wanted there. -/
def results (loc : Location) (want : Nat → Run (Option Want)) :
    Nat → List Ty → Run (List Typed.Expr)
  | _, [] => pure []
  | position, ty :: rest => do
    let wanted ← want position
    let value ← emit (Typed.Expr.coerce? ⟨.callResult position, ty, loc⟩ wanted)
    let values ← results loc want (position + 1) rest
    pure (value :: values)

/-- Spreads the call of several values over the slots from its first on. -/
def coerceExpanded (params : List Ty) (typed : List Typed.Expr) :
    Option (Nat × Nat) → Run (List Typed.Expr)
  | none => pure typed
  | some (index, first) => do
    let call ← item typed index
    let values ← results call.loc (fun j => slotWant params (first + j)) 0 call.valueTypes
    replace typed index ⟨.expand call values, (values.map (·.ty)).headD .nil, call.loc⟩

/-- Coerces the expressions of several slots, from left to right. -/
def coerceSlots (params : List Ty) (flat : List (Ty × Option Nat)) :
    List Nat → List Typed.Expr → Run (List Typed.Expr)
  | [], typed => pure typed
  | slot :: rest, typed => do
    let typed ← coerceSlot params flat slot typed
    coerceSlots params flat rest typed

/-- Coerces the gathered values for an iterator function. -/
def Gathered.coerce (found : Gathered) (params : List Ty) : Run (List Typed.Expr) := do
  let typed ← coerceSlots params found.flat [1, 2] found.typed
  coerceExpanded params typed found.expanded

theorem item_eq {α : Type} {elems : List α} {index : Nat} {elem : α}
    (h : elems[index]? = some elem) : item elems index = pure elem := by
  funext s
  rw [item, h]
  rfl

theorem replace_eq {α : Type} {elems : List α} {index : Nat} {elem : α}
    (h : index < elems.length) : replace elems index elem = pure (elems.set index elem) := by
  funext s
  rw [replace, if_pos h]
  rfl

section Iterator

variable (state control : Ty)

open LoopValues (want)

/-- **An iterator function of two parameters has both.** -/
theorem slotWant_eq (slot : Nat) :
    slotWant [state, control] slot = pure (want state control slot) := by
  rcases slot with _ | _ | _ | slot <;> rfl

theorem coerceSlot_eq {flat : List (Ty × Option Nat)} {slot index : Nat} {ty : Ty}
    {typed : List Typed.Expr} {value : Typed.Expr} (hflat : flat[slot]? = some (ty, some index))
    (htyped : typed[index]? = some value) :
    coerceSlot [state, control] flat slot typed =
      (typed.set index ·) <$> emit (value.coerce? (want state control slot)) := by
  have hlt : index < typed.length := (List.getElem?_eq_some_iff.mp htyped).1
  simp [coerceSlot, slotWant_eq, hflat, item_eq htyped, replace_eq hlt]

theorem coerceSlot_eq_pure {flat : List (Ty × Option Nat)} {slot : Nat} {typed : List Typed.Expr}
    (h : ∀ ty index, flat[slot]? ≠ some (ty, some index)) :
    coerceSlot [state, control] flat slot typed = pure typed := by
  simp only [coerceSlot, slotWant_eq, pure_bind]

theorem results_eq (loc : Location) (wanted : Nat → Option Want) (position : Nat) (tys : List Ty) :
    results loc (fun j => pure (wanted j)) position tys =
      emit (Typed.Expr.results loc wanted position tys) := by
  induction tys generalizing position with
  | nil => exact (emit_pure []).symm
  | cons ty rest ih =>
    simp [results, Typed.Expr.results, ih]

theorem coerceExpanded_eq {typed : List Typed.Expr} {index first : Nat} {call : Typed.Expr}
    (h : typed[index]? = some call) :
    coerceExpanded [state, control] typed (some (index, first)) =
      (typed.set index ·) <$> emit (call.spread fun j => want state control (first + j)) := by
  have hlt : index < typed.length := (List.getElem?_eq_some_iff.mp h).1
  simp [coerceExpanded, item_eq h, slotWant_eq, results_eq, replace_eq hlt, Typed.Expr.spread]

/-- The slots from a position on whose values are coerced. -/
def pending (position : Nat) : List Nat :=
  [1, 2].filter (position ≤ ·)

theorem pending_of_want {position : Nat} {wanted : Want}
    (h : want state control position = some wanted) :
    pending position = position :: pending (position + 1) := by
  rcases position with _ | _ | _ | position
  · cases h
  · rfl
  · rfl
  · cases h

theorem pending_of_not_want {position : Nat} (h : want state control position = none) :
    pending position = pending (position + 1) := by
  rcases position with _ | _ | _ | position
  · rfl
  · cases h
  · cases h
  · simp [pending]

/-- Where no value has an expression of its own, nothing is coerced by slot. -/
theorem coerceSlots_eq_pure {flat more : List (Ty × Option Nat)} {position : Nat}
    {typed : List Typed.Expr} (hflat : flat.length = position)
    (hmore : ∀ value ∈ more, value.2 = none) :
    coerceSlots [state, control] (flat ++ more) (pending position) typed = pure typed := by
  have hpending : ∀ slot ∈ pending position, ∀ ty index,
      (flat ++ more)[slot]? ≠ some (ty, some index) := by
    intro slot hslot ty index hvalue
    have hle : flat.length ≤ slot := by simpa [hflat] using (List.mem_filter.mp hslot).2
    rw [List.getElem?_append_right hle] at hvalue
    cases hmore _ (List.mem_of_getElem? hvalue)
  generalize pending position = slots at hpending
  induction slots with
  | nil => rfl
  | cons slot rest ih =>
    rw [List.forall_mem_cons] at hpending
    rw [coerceSlots, coerceSlot_eq_pure state control hpending.1, pure_bind, ih hpending.2]

/-- A value of its own is coerced in place, before those behind it. -/
theorem coerceSlots_step {flat : List (Ty × Option Nat)} {ty : Ty} (front rest : List Typed.Expr)
    (value : Typed.Expr) (h : flat[front.length]? = some (ty, some front.length)) :
    coerceSlots [state, control] flat (pending front.length) (front ++ value :: rest) =
      emit (value.coerce? (want state control front.length)) >>= fun value' =>
        coerceSlots [state, control] flat (pending (front.length + 1))
          (front ++ value' :: rest) := by
  cases hwant : want state control front.length with
  | none =>
    rw [pending_of_not_want state control hwant, Typed.Expr.coerce?, emit_pure, pure_bind]
  | some wanted =>
    have htyped : (front ++ value :: rest)[front.length]? = some value := by simp
    rw [pending_of_want state control hwant, coerceSlots, coerceSlot_eq state control h htyped,
      hwant]
    simp

/-- The last expression is coerced like one in front if it has one value, and spread if it has
several. -/
theorem coerceSlots_last (flat : List (Ty × Option Nat)) (front : List Typed.Expr)
    (last : Typed.Expr) (h : flat.length = front.length) :
    (coerceSlots [state, control] (flat ++ slots front.length [last]) (pending front.length)
        (front ++ [last]) >>= fun typed =>
      coerceExpanded [state, control] typed (spreadAt front.length front.length [last])) =
      emit ((front ++ ·) <$> LoopValues.coerce (want state control) front.length [last]) := by
  unfold slots spreadAt LoopValues.coerce
  rcases last.valueTypes with _ | ⟨ty, _ | ⟨ty', tys⟩⟩
  · simp only [List.map_nil]
    rw [coerceSlots_eq_pure state control h (List.forall_mem_nil _), pure_bind]
    exact (emit_pure _).symm
  · have hslot : (flat ++ [(ty, some front.length)])[front.length]? =
        some (ty, some front.length) := by
      simp [← h]
    simp only [bind_pure_comp, emit_map, Functor.map_map]
    rw [coerceSlots_step state control front [] last hslot, bind_assoc, map_eq_pure_bind]
    refine bind_congr fun value => ?_
    rw [← List.append_nil (flat ++ [(ty, some front.length)]),
      coerceSlots_eq_pure state control (by simp [h]) (List.forall_mem_nil _), pure_bind]
    rfl
  · have hcall : (front ++ [last])[front.length]? = some last := by simp
    rw [coerceSlots_eq_pure state control h (by simp), pure_bind, if_pos (by simp),
      coerceExpanded_eq state control hcall]
    simp

/-- **Every index is in range**, and the values are coerced as if one after another: those in front
of a position are done, and those behind it are still to do. -/
theorem coerceSlots_eq_coerce (flat : List (Ty × Option Nat)) (front values : List Typed.Expr)
    (h : flat.length = front.length) :
    (coerceSlots [state, control] (flat ++ slots front.length values) (pending front.length)
        (front ++ values) >>= fun typed =>
      coerceExpanded [state, control] typed (spreadAt front.length front.length values)) =
      emit ((front ++ ·) <$> LoopValues.coerce (want state control) front.length values) := by
  induction values generalizing flat front with
  | nil =>
    rw [slots, coerceSlots_eq_pure state control h (List.forall_mem_nil _), pure_bind]
    exact (emit_pure _).symm
  | cons value rest ih =>
    cases rest with
    | nil => exact coerceSlots_last state control flat front value h
    | cons next rest =>
      have hslot : (flat ++ slots front.length (value :: next :: rest))[front.length]? =
          some (value.ty, some front.length) := by
        simp [slots, ← h]
      -- a coerced value goes over to those in front
      have hrest := fun coerced => ih (flat ++ [(value.ty, some front.length)])
        (front ++ [coerced]) (by simp [h])
      simp only [List.length_append, List.length_singleton, List.append_assoc,
        List.singleton_append] at hrest
      have hcoerce : LoopValues.coerce (want state control) front.length (value :: next :: rest) =
          (do
            let value ← value.coerce? (want state control front.length)
            let values ← LoopValues.coerce (want state control) (front.length + 1) (next :: rest)
            pure (value :: values)) := rfl
      rw [coerceSlots_step state control front (next :: rest) value hslot, hcoerce, bind_assoc,
        map_eq_pure_bind, bind_assoc, emit_bind]
      exact bind_congr fun coerced => (hrest coerced).trans (by simp)

theorem coerce_extend (values : List Typed.Expr) :
    (Gathered.empty.extend values).coerce [state, control] =
      emit (LoopValues.coerce (want state control) 0 values) := by
  have hcoerce := coerceSlots_eq_coerce state control [] [] values rfl
  have hpending : pending 0 = [1, 2] := rfl
  simpa [hpending, Gathered.coerce, Gathered.extend, Gathered.empty] using hcoerce

end Iterator

/-! ### Loop headers -/

/-- Types a call of `ipairs` as the source of a loop. -/
def ipairsLoop (args : List Source.Expr) (loc : Location) : Run Iterated := do
  let args ← look fun Γ => args.mapM fun arg => arg.check Γ .value
  emit (Report.require (args.length == 1) (.callArity 1 args.length) loc)
  if args.isEmpty then
    pure ⟨.generic args, none⟩
  else
    let array ← item args 0
    let types ← emit array.ipairsTypes
    pure ⟨.ipairs array, types⟩

/-- Types the expressions after `in` as an iterator function with a state and a control value. -/
def iteratorLoop (exprs : List Source.Expr) (loc : Location) : Run Iterated := do
  let found ← gather exprs .empty
  match (found.flat.head?.map Prod.fst).getD .nil with
  | .function params returns =>
    if params.length = 2 then
      if found.uncertain then pure () else emit (LoopValues.requireThree found.flat.length loc)
      let typed ← found.coerce params
      pure ⟨.generic typed, some returns⟩
    else
      emit (Report.fault (.iteratorArity params.length) loc)
      pure ⟨.generic found.typed, some returns⟩
  | .unknown => pure ⟨.generic found.typed, none⟩
  | ty =>
    emit (Report.fault (.notAnIterator ty) loc)
    pure ⟨.generic found.typed, none⟩

/-- Types the expressions after `in`. -/
def iterate (exprs : List Source.Expr) (loc : Location) : Run Iterated := do
  let Γ ← view
  match Γ.ipairsCall? exprs with
  | some (args, loc) => ipairsLoop args loc
  | none => iteratorLoop exprs loc

theorem map_fst_slots (index : Nat) (values : List Typed.Expr) :
    (slots index values).map Prod.fst = Typed.flatTypes values := by
  induction values generalizing index with
  | nil => rfl
  | cons value rest ih =>
    cases rest with
    | nil =>
      rw [slots, Typed.flatTypes]
      split
      · next ty htypes => rw [htypes]; rfl
      · simp [Function.comp_def]
    | cons next rest => exact congrArg (value.ty :: ·) (ih (index + 1))

namespace Does

theorem ipairsLoop (args : List Source.Expr) (loc : Location) :
    Does (ipairsLoop args loc) Γ (Γ.ipairsLoop args loc).value Γ
      (Γ.ipairsLoop args loc).faults [] := by
  rw [Context.ipairsLoop]
  refine (look _).bind_emit ?_
  generalize (List.mapM _ args : Report (List Typed.Expr)).value = typed
  rw [emit_bind]
  refine bind_congr fun _ => ?_
  cases typed with
  | nil => exact (emit_pure _).symm
  | cons array rest =>
    have harray : item (array :: rest) 0 = Pure.pure array := rfl
    simp [harray]

theorem iteratorLoop (exprs : List Source.Expr) (loc : Location) :
    Does (iteratorLoop exprs loc) Γ (Γ.iteratorLoop exprs loc).value Γ
      (Γ.iteratorLoop exprs loc).faults [] := by
  rw [Context.iteratorLoop]
  refine (gather exprs .empty).bind_emit ?_
  generalize (Γ.loopValues exprs).value = values
  have htypes : (Gathered.empty.extend values).flat.map Prod.fst = Typed.flatTypes values :=
    map_fst_slots 0 values
  have hcount : (Gathered.empty.extend values).flat.length = (Typed.flatTypes values).length := by
    rw [← htypes, List.length_map]
  have hhead : ((Gathered.empty.extend values).flat.head?.map Prod.fst).getD .nil =
      (Typed.flatTypes values).headD .nil := by
    rw [← htypes, List.headD_eq_head?_getD, List.head?_map]
  have huncertain : (Gathered.empty.extend values).uncertain = LoopValues.uncertain values := rfl
  have htyped : (Gathered.empty.extend values).typed = values := rfl
  simp only [hhead, hcount, huncertain, htyped]
  cases (Typed.flatTypes values).headD .nil with
  | function params returns =>
    rcases params with _ | ⟨state, _ | ⟨control, _ | ⟨more, rest⟩⟩⟩
    · simp
    · simp
    · cases LoopValues.uncertain values <;> simp [coerce_extend]
    · simp
  | unknown => exact (emit_pure _).symm
  | _ => simp

/-- **The header of a loop never gets stuck.** -/
theorem iterate (exprs : List Source.Expr) (loc : Location) :
    Does (iterate exprs loc) Γ (Γ.iterate exprs loc).value Γ (Γ.iterate exprs loc).faults [] := by
  refine view_bind ?_
  unfold Context.iterate
  cases Γ.ipairsCall? exprs with
  | some call => exact ipairsLoop _ _
  | none => exact iteratorLoop _ _

end Does

end Stack

end LuaTyping
