import LuaTyping.Checking.Coercion
import LuaTyping.Checking.Operator
import LuaTyping.Proofs.Revision.Tree
import LuaTyping.Proofs.Yields

/-!
# Two reports in step

`first.InStep strict ρ f second` says of two checks that the second makes `f a` of what the first
makes `a` of, and finds the same faults with their locations moved by `ρ`.  A strict statement holds
whatever the first check finds; any other only where it finds nothing.  Relocation is strict, since
it only moves what is found, and the unfolding of type names is not, since a name that is not
declared cannot be unfolded.

The rules below follow the form of a check.  Coercions and operators look at types only, so they are
in step strictly.
-/

namespace LuaTyping

/-- The violation with the earlier declaration that it refers to moved. -/
def Violation.relocate (ρ : Location → Location) : Violation → Violation
  | .duplicateToplevel name previous => .duplicateToplevel name (ρ previous)
  | .duplicateType name previous => .duplicateType name (ρ previous)
  | .duplicateModuleField field previous => .duplicateModuleField field (ρ previous)
  | .multipleModuleVariables previous => .multipleModuleVariables (ρ previous)
  | cause => cause

/-- The fault with its locations moved. -/
def Fault.relocate (ρ : Location → Location) (fault : Fault) : Fault :=
  ⟨fault.cause.relocate ρ, ρ fault.loc⟩

namespace Report

variable {α β γ δ : Type} {strict : Prop} {ρ : Location → Location} {f : α → β}

/-- The image of the value, with the locations of the faults moved. -/
def carry (ρ : Location → Location) (f : α → β) (report : Report α) : Report β :=
  ⟨f report.value, report.faults.map (Fault.relocate ρ)⟩

/-- The second check makes the image of what the first makes: always if the statement is strict, and
else where the first finds no fault. -/
def InStep (strict : Prop) (ρ : Location → Location) (f : α → β) (first : Report α)
    (second : Report β) : Prop :=
  strict ∨ first.faults = [] → second = first.carry ρ f

/-- Where the first check yields a value, the second yields its image. -/
theorem InStep.yields {first : Report α} {second : Report β} {a : α}
    (h : first.InStep strict ρ f second) (hfirst : first.Yields a) : second.Yields (f a) := by
  rw [h (Or.inr hfirst.faults_eq), hfirst]
  rfl

/-- A statement that is not strict is about values that are yielded. -/
theorem InStep.of_yields {first : Report α} {second : Report β}
    (h : ∀ a, first.Yields a → second.Yields (f a)) : first.InStep False ρ f second := by
  intro hs
  have hfaults := hs.resolve_left id
  rw [h first.value (yields_value hfaults), carry, hfaults]
  rfl

theorem InStep.pure {a : α} {b : β} (h : b = f a) :
    (Pure.pure a : Report α).InStep strict ρ f (Pure.pure b) := by
  intro _
  rw [h]
  rfl

theorem InStep.bind {g : γ → δ} {first : Report α} {second : Report β} {next : α → Report γ}
    {next' : β → Report δ} (h : first.InStep strict ρ f second)
    (hnext : ∀ a, first.value = a → (next a).InStep strict ρ g (next' (f a))) :
    (first >>= next).InStep strict ρ g (second >>= next') := by
  intro hs
  have hfirst : strict ∨ first.faults = [] :=
    hs.imp id fun hf => (List.append_eq_nil_iff.mp hf).1
  have hrest : strict ∨ (next first.value).faults = [] :=
    hs.imp id fun hf => (List.append_eq_nil_iff.mp hf).2
  have hvalue := hnext first.value rfl hrest
  rw [h hfirst]
  change Report.bind _ _ = carry ρ g (Report.bind _ _)
  simp [Report.bind, carry, hvalue]

/-- Only the image of the value that is made counts. -/
theorem InStep.congr {g : α → β} {first : Report α} {second : Report β}
    (h : first.InStep strict ρ f second) (hvalue : f first.value = g first.value) :
    first.InStep strict ρ g second := by
  intro hs
  rw [h hs, carry, carry, hvalue]

theorem InStep.fault {cause : Violation} {loc : Location} :
    (Report.fault cause loc).InStep strict ρ (fun u => u)
      (Report.fault (cause.relocate ρ) (ρ loc)) :=
  fun _ => rfl

theorem InStep.require {condition : Bool} {cause : Violation} {loc : Location} :
    (Report.require condition cause loc).InStep strict ρ (fun u => u)
      (Report.require condition (cause.relocate ρ) (ρ loc)) := by
  intro _
  cases condition <;> rfl

theorem InStep.orUnknown {found : Option Ty} {cause : Violation} {loc : Location} :
    (Report.orUnknown found cause loc).InStep strict ρ (fun ty => ty)
      (Report.orUnknown found (cause.relocate ρ) (ρ loc)) := by
  intro _
  cases found <;> rfl

theorem InStep.mapM {check : γ → Report α} {check' : δ → Report β} {g : γ → δ}
    {inputs : List γ} (h : ∀ input, (check input).InStep strict ρ f (check' (g input))) :
    (inputs.mapM check).InStep strict ρ (List.map f) ((inputs.map g).mapM check') := by
  induction inputs with
  | nil => exact .pure rfl
  | cons input rest ih =>
    simp only [List.map_cons, List.mapM_cons]
    exact .bind (h input) fun _ _ => .bind ih fun _ _ => .pure rfl

end Report

open Report (InStep)

variable {strict : Prop} {ρ : Location → Location}

/-! ### Coercion -/

namespace Typed.Expr

theorem single_inStep (expr : Expr) :
    expr.single.InStep strict ρ (relocate ρ) (expr.relocate ρ).single := by
  obtain ⟨kind, ty, loc⟩ := expr
  cases kind with
  | call callee args returns =>
    cases returns with
    | nil => exact .bind .fault fun _ _ => .pure rfl
    | cons ty rest => exact .pure rfl
  | _ => exact .pure rfl

theorem coerce_inStep (expr : Expr) (want : Want) :
    (expr.coerce want).InStep strict ρ (relocate ρ) ((expr.relocate ρ).coerce want) := by
  unfold coerce
  rw [ty_relocate, loc_relocate]
  split
  · exact .pure rfl
  · split
    · exact .pure (by simp only [relocate, ExprKind.relocate])
    · exact .bind .fault fun _ _ => .pure rfl

theorem coerce?_inStep (expr : Expr) (want : Option Want) :
    (expr.coerce? want).InStep strict ρ (relocate ρ) ((expr.relocate ρ).coerce? want) := by
  cases want with
  | none => exact .pure rfl
  | some want => exact coerce_inStep expr want

theorem results_inStep (loc : Location) (want : Nat → Option Want) (position : Nat)
    (tys : List Ty) :
    (results loc want position tys).InStep strict ρ (List.map (relocate ρ))
      (results (ρ loc) want position tys) := by
  induction tys generalizing position with
  | nil => exact .pure rfl
  | cons ty rest ih =>
    exact .bind (coerce?_inStep ⟨.callResult position, ty, loc⟩ (want position)) fun _ _ =>
      .bind (ih (position + 1)) fun _ _ => .pure rfl

theorem spread_inStep (call : Expr) (want : Nat → Option Want) :
    (call.spread want).InStep strict ρ (relocate ρ) ((call.relocate ρ).spread want) := by
  unfold spread
  rw [valueTypes_relocate, loc_relocate]
  refine .bind (results_inStep call.loc want 0 call.valueTypes) fun values _ => .pure ?_
  simp [relocate, ExprKind.relocate, relocateList_eq_map, Function.comp_def]

end Typed.Expr

theorem Demand.settle_inStep (demand : Demand) {expr image : Typed.Expr}
    (h : image = expr.relocate ρ) :
    (demand.settle expr).InStep strict ρ (Typed.Expr.relocate ρ) (demand.settle image) := by
  subst h
  cases demand with
  | results => exact .pure rfl
  | value => exact expr.single_inStep
  | ofType want => exact .bind expr.single_inStep fun value _ => value.coerce_inStep want

namespace Values

/-- The values with their locations moved. -/
def relocate (ρ : Location → Location) (values : Values) : Values :=
  { values with exprs := values.exprs.map (Typed.Expr.relocate ρ) }

theorem cons_relocate (expr : Typed.Expr) (values : Values) :
    (cons expr values).relocate ρ = cons (expr.relocate ρ) (values.relocate ρ) := by
  simp [cons, relocate]

theorem ofCall_inStep (call : Typed.Expr) (expected : List (Option Ty)) (site : Nat → Site)
    (position : Nat) :
    (ofCall call expected site position).InStep strict ρ (relocate ρ)
      (ofCall (call.relocate ρ) expected site position) := by
  unfold ofCall
  rw [Typed.Expr.valueTypes_relocate, Typed.Expr.loc_relocate]
  split
  · split
    · exact .bind .fault fun _ _ => .pure rfl
    · exact .pure rfl
  · refine .bind (call.coerce?_inStep _) fun value _ => .pure ?_
    simp [relocate]
  · refine .bind (call.spread_inStep _) fun value _ => .pure ?_
    simp [relocate]

end Values

/-! ### Operators -/

namespace Typed.Expr

theorem toFloat_relocate (expr : Expr) : (expr.relocate ρ).toFloat = expr.toFloat.relocate ρ := by
  unfold toFloat
  rw [ty_relocate, loc_relocate]
  split
  · simp only [relocate, ExprKind.relocate]
  · rfl

theorem unary_inStep (op : UnaryOp) (operand : Expr) (loc : Location) :
    (unary op operand loc).InStep strict ρ (relocate ρ)
      (unary op (operand.relocate ρ) (ρ loc)) := by
  unfold unary
  rw [ty_relocate]
  split
  · exact .pure (by simp only [relocate, ExprKind.relocate])
  · exact .bind .fault fun _ _ => .pure (by simp only [relocate, ExprKind.relocate])

theorem operation_relocate (op : BinaryOp) (left right : Expr) (loc : Location) :
    operation op (left.relocate ρ) (right.relocate ρ) (ρ loc) =
      (operation op left right loc).relocate ρ := by
  unfold operation
  rw [ty_relocate, ty_relocate, toFloat_relocate, toFloat_relocate]
  split
  · split <;> simp only [relocate, ExprKind.relocate]
  all_goals simp only [relocate, ExprKind.relocate]

theorem comparison_inStep (op : BinaryOp) (left right : Expr) (loc : Location) :
    (comparison op left right loc).InStep strict ρ (relocate ρ)
      (comparison op (left.relocate ρ) (right.relocate ρ) (ρ loc)) := by
  unfold comparison
  rw [ty_relocate, ty_relocate, toFloat_relocate, toFloat_relocate]
  refine .bind .require fun _ _ => ?_
  split
  all_goals exact .pure (by simp only [relocate, ExprKind.relocate])

theorem binary_inStep (op : BinaryOp) (left right : Expr) (loc : Location) :
    (binary op left right loc).InStep strict ρ (relocate ρ)
      (binary op (left.relocate ρ) (right.relocate ρ) (ρ loc)) := by
  unfold binary requireOperand isOperand
  rw [ty_relocate, ty_relocate, operation_relocate]
  refine .bind .require fun _ _ => .bind .require fun _ _ => ?_
  split
  · exact comparison_inStep op left right loc
  · split
    · exact .pure rfl
    · exact .pure (by simp only [relocate, ExprKind.relocate])

end Typed.Expr

end LuaTyping
