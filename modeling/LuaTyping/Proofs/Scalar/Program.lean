import LuaTyping.Proofs.Proper.Item
import LuaTyping.Proofs.Scalar.Body

/-!
# Scalar module fields

Whether module fields may be scalars is the caller's choice.  A field with a type that it may not
have is declared all the same, so the items after it are checked alike under both choices: the check
that forbids scalars gives the same value, and reports what the other does and the scalar fields in
between (`Report.Relaxes`, `Program.walk_relaxes`).
-/

namespace LuaTyping

/-- Whether the violation is a module field of a scalar type. -/
def Violation.isScalarField : Violation → Bool
  | .moduleFieldType _ .boolean | .moduleFieldType _ .integer | .moduleFieldType _ .float
  | .moduleFieldType _ .string => true
  | _ => false

open Violation (isScalarField)

/-- What is said of a module field of a scalar type. -/
theorem Violation.message_of_isScalarField {cause : Violation} (h : cause.isScalarField = true) :
    ∃ field, ∃ ty ∈ [Ty.boolean, .integer, .float, .string],
      cause.message = "module field " ++ quoted field ++ " cannot have type " ++ ty.display := by
  unfold Violation.isScalarField at h
  split at h
  · exact ⟨_, .boolean, by simp, rfl⟩
  · exact ⟨_, .integer, by simp, rfl⟩
  · exact ⟨_, .float, by simp, rfl⟩
  · exact ⟨_, .string, by simp, rfl⟩
  · cases h

theorem Violation.itemOnly_of_isScalarField (cause : Violation) (h : cause.isScalarField = true) :
    cause.itemOnly = true := by
  cases cause with
  | moduleFieldType field ty => rfl
  | _ => simp [isScalarField] at h

namespace Report

variable {α β : Type}

/-- The second report gives the same value, and every fault of the first but scalar fields. -/
def Relaxes (first second : Report α) : Prop :=
  second.value = first.value ∧
    second.faults = first.faults.filter fun fault => !fault.cause.isScalarField

theorem Relaxes.of_avoids {report : Report α} (h : report.Avoids isScalarField) :
    report.Relaxes report := by
  refine ⟨rfl, (List.filter_eq_self.mpr fun fault hfault => ?_).symm⟩
  rw [h fault hfault]
  rfl

/-- Function bodies, and whatever else no item-level rule applies to, are relaxed to themselves. -/
theorem Relaxes.of_body {report : Report α} (h : report.Avoids Violation.itemOnly) :
    report.Relaxes report :=
  .of_avoids (h.mono Violation.itemOnly_of_isScalarField)

theorem Relaxes.pure {a : α} : (Pure.pure a : Report α).Relaxes (Pure.pure a) :=
  .of_avoids .pure

theorem Relaxes.bind {first second : Report α} {next next' : α → Report β}
    (h : first.Relaxes second) (hnext : ∀ a, (next a).Relaxes (next' a)) :
    (first >>= next).Relaxes (second >>= next') := by
  obtain ⟨hvalue, hfaults⟩ := h
  obtain ⟨hvalue', hfaults'⟩ := hnext first.value
  constructor
  · rw [value_bind, value_bind, hvalue, hvalue']
  · rw [faults_bind, faults_bind, hvalue, hfaults, hfaults', List.filter_append]

end Report

open Report (Avoids Relaxes)

variable {filename : String}

/-! ### Module fields -/

namespace Context

/-- **One field.**  Its type is the only thing that the choice is about. -/
theorem declareField_relaxes (Γ : Context) (field : String) (ty : Ty) (loc : Location) :
    (Γ.declareField ⟨filename, false⟩ field ty loc).Relaxes
      (Γ.declareField ⟨filename, true⟩ field ty loc) := by
  unfold declareField
  refine .bind ?_ fun _ => ?_
  -- the two checks differ in what they say of a scalar, and both declare the field then
  · cases ty with
    | boolean | integer | float | string => exact ⟨rfl, rfl⟩
    | function params returns => exact .of_avoids .pure
    | unknown => exact .of_avoids .pure
    | _ => exact .of_avoids (.fault rfl)
  · split
    · exact .pure
    · exact .of_avoids (.bind (.fault rfl) fun _ => .pure)

theorem declareFields_relaxes (loc : Location) (targets : List ItemTarget) (types : List Ty)
    (Γ : Context) :
    (declareFields ⟨filename, false⟩ loc targets types Γ).Relaxes
      (declareFields ⟨filename, true⟩ loc targets types Γ) := by
  induction targets generalizing types Γ with
  | nil => exact .pure
  | cons target rest ih =>
    cases target with
    | existing target => exact .bind (ih _ Γ) fun _ => .pure
    | newField module field =>
      exact .bind (Γ.declareField_relaxes field _ loc) fun Δ => .bind (ih _ Δ) fun _ => .pure

/-! ### Functions and assignments -/

theorem declareFunction_relaxes (Γ : Context) (name : Source.FunctionName) (ty : Ty)
    (loc : Location) :
    (declareFunction ⟨filename, false⟩ Γ name ty loc).Relaxes
      (declareFunction ⟨filename, true⟩ Γ name ty loc) := by
  unfold declareFunction
  split
  · exact .of_avoids (Γ.declare_avoids _ _ fun _ _ => rfl)
  · split
    · exact Γ.declareField_relaxes _ ty loc
    · split <;> exact .of_avoids (.bind (.fault rfl) fun _ => .pure)

theorem function_relaxes (Γ : Context) (decl : Source.Function) :
    (function ⟨filename, false⟩ Γ decl).Relaxes (function ⟨filename, true⟩ Γ decl) := by
  refine .bind (.of_avoids (.mapM ?_)) fun params =>
    .bind (.of_body (TypeExpr.resolveList_avoids _ _ _)) fun returns =>
    .bind (Γ.declareFunction_relaxes decl.name _ decl.loc) fun Δ =>
    .bind (.of_avoids ?_) fun _ => .pure
  · exact Γ.param_avoids Violation.itemOnly_of_isScalarField fun _ => rfl
  · exact Δ.functionBody_avoids Violation.itemOnly_of_isScalarField rfl _ _ _ _

theorem itemAssign_relaxes (Γ : Context) (targets values : List Source.Expr) (loc : Location) :
    (itemAssign ⟨filename, false⟩ Γ targets values loc).Relaxes
      (itemAssign ⟨filename, true⟩ Γ targets values loc) := by
  have htarget : ∀ expr, (Γ.itemTarget expr).Avoids isScalarField := by
    intro expr
    unfold itemTarget
    split
    · split
      · exact .bind (.fault rfl) fun _ => .pure
      · exact .pure
    · exact .bind ((Γ.target_avoids expr).mono Violation.itemOnly_of_isScalarField) fun _ => .pure
  exact .bind (.of_avoids (.mapM htarget)) fun found =>
    .bind (.of_body (Source.Expr.checkValues_avoids _ _ _ _ _)) fun list =>
    .bind (.of_avoids (.require rfl)) fun _ =>
    .bind (declareFields_relaxes loc found list.types Γ) fun _ => .pure

/-! ### The module variable and type names -/

theorem moduleVar_avoids (Γ : Context) (decl : Source.Decl) (values : List Source.Expr)
    (loc : Location) : (Γ.moduleVar decl values loc).Avoids isScalarField := by
  have hdeclare : (Γ.declareModule decl.name decl.loc loc).Avoids isScalarField := by
    unfold declareModule
    split
    · exact .bind (.fault rfl) fun _ => .pure
    · exact declare_avoids _ _ _ fun _ _ => rfl
  exact .bind ((Γ.moduleInit_avoids _ _ _).mono Violation.itemOnly_of_isScalarField) fun _ =>
    .bind hdeclare fun _ => .pure

theorem declareType_avoids (Γ : Context) (name : String) (ty : Ty) (loc : Location) :
    (Γ.declareType name ty loc).Avoids isScalarField := by
  unfold declareType
  split
  · exact .pure
  · exact .bind (.fault rfl) fun _ => .pure

end Context

/-! ### Items and programs -/

namespace Source

/-- **One item.**  Both choices type it alike and leave the same context. -/
theorem Item.check_relaxes (Γ : Context) (item : Item) :
    (item.check ⟨filename, false⟩ Γ).Relaxes (item.check ⟨filename, true⟩ Γ) := by
  have hp := Violation.itemOnly_of_isScalarField
  unfold Item.check
  split
  · exact .bind (.of_avoids (Γ.moduleVar_avoids _ _ _)) fun _ => .pure
  · exact .bind (.of_avoids (Context.declareVars_avoids hp Γ _ _ _ fun _ _ _ => rfl)) fun _ => .pure
  · exact .bind (Γ.function_relaxes _) fun _ => .pure
  · exact .bind (Γ.itemAssign_relaxes _ _ _) fun _ => .pure
  · exact .bind (.of_avoids (Context.recordFields_avoids hp (fun _ => rfl) (fun _ _ => rfl) Γ _ _ _))
      fun _ => .bind (.of_avoids (Γ.declareType_avoids _ _ _)) fun _ => .pure
  · exact .bind (.of_body (TypeExpr.resolve_avoids _ _ _)) fun _ =>
      .bind (.of_avoids (Γ.declareType_avoids _ _ _)) fun _ => .pure
  · exact .bind (.of_avoids (Context.moduleReturn_avoids hp (fun _ => rfl) (fun _ => rfl) Γ _ _))
      fun _ => .pure

/-- **A run through items.** -/
theorem checkItems_relaxes (items : List Item) (Γ : Context) :
    (checkItems ⟨filename, false⟩ Γ items).Relaxes (checkItems ⟨filename, true⟩ Γ items) := by
  induction items generalizing Γ with
  | nil => exact .pure
  | cons item rest ih =>
    exact .bind (.of_avoids (.require rfl)) fun _ => .bind (item.check_relaxes Γ) fun checked =>
      .bind (ih checked.2) fun _ => .pure

namespace Program

variable {builtins : Builtins} {options : Options} {program : Program}

/-- **The walk through a program.** -/
theorem walk_relaxes :
    (program.walk builtins ⟨filename, false⟩).Relaxes (program.walk builtins ⟨filename, true⟩) := by
  unfold walk
  split
  · exact .of_avoids (.bind (.fault rfl) fun _ => .pure)
  · exact .bind (checkItems_relaxes _ _) fun _ => .bind (.of_avoids (.require rfl)) fun _ =>
      .bind (.of_avoids (.require rfl)) fun _ => .pure

/-- What is wrong with a program; nothing, where it is accepted. -/
def diagnostics (builtins : Builtins) (options : Options) (program : Program) : List Diagnostic :=
  match program.check builtins options with
  | .ok _ => []
  | .error diagnostics => diagnostics

theorem diagnostics_eq :
    program.diagnostics builtins options =
      (program.walk builtins options).faults.map (Fault.diagnostic options.filename) := by
  unfold diagnostics
  split
  · next checked h =>
    obtain ⟨items, Γ, name, hwalk, -, -⟩ := walk_yields_of_check h
    rw [hwalk.faults_eq]
    rfl
  · next diagnostics h => exact check_error h

/-- **The choice about scalar fields adds its own diagnostics and changes nothing else.**  Scalars
allowed, the diagnostics are those with scalars forbidden, in their order, without the ones that say
that a field cannot have its scalar type.  The typed items and the context that they leave are
equal, and what is accepted with scalars forbidden is accepted as the same module with scalars
allowed. -/
theorem check_scalarFields (builtins : Builtins) (filename : String) (program : Program) :
    let strict := program.walk builtins ⟨filename, false⟩
    program.diagnostics builtins ⟨filename, false⟩ = strict.faults.map (Fault.diagnostic filename) ∧
      program.diagnostics builtins ⟨filename, true⟩ =
        (strict.faults.filter fun fault => !fault.cause.isScalarField).map
          (Fault.diagnostic filename) ∧
      (∀ fault ∈ strict.faults, fault.cause.isScalarField = true →
        ∃ field, ∃ ty ∈ [Ty.boolean, .integer, .float, .string],
          (fault.diagnostic filename).message =
            "module field " ++ Violation.quoted field ++ " cannot have type " ++ ty.display) ∧
      (program.walk builtins ⟨filename, true⟩).value = strict.value ∧
      ∀ checked, program.check builtins ⟨filename, false⟩ = .ok checked →
        program.check builtins ⟨filename, true⟩ = .ok checked := by
  have hwalk : (program.walk builtins ⟨filename, false⟩).Relaxes
      (program.walk builtins ⟨filename, true⟩) := walk_relaxes
  obtain ⟨hvalue, hfaults⟩ := hwalk
  refine ⟨diagnostics_eq, ?_, ?_, hvalue, ?_⟩
  · rw [diagnostics_eq, hfaults]
  · intro fault _ hscalar
    exact Violation.message_of_isScalarField hscalar
  · intro checked h
    obtain ⟨items, Γ, name, hstrict, hname, rfl⟩ := walk_yields_of_check h
    -- nothing is reported, so there is nothing to delete
    rw [hstrict.faults_eq, List.filter_nil] at hfaults
    rw [hstrict.value_eq] at hvalue
    simp only [check, hfaults, hvalue, hname]

/-- A module that sets a field to a number, reads it back and sets it again. -/
def counter : Program :=
  let here := Location.nowhere
  let count := Expr.field (.name "m" here) "count" here
  .inModule [.assign [count] [.integer 0 here] here,
    .var [⟨"start", some .string, here⟩] [count] here,
    .assign [count] [.integer 1 here] here]

/-- A module that exports one function. -/
def greeter : Program :=
  let here := Location.nowhere
  .inModule [.function
    ⟨.member "m" "greet", [], [.string], [.ret [.string "hello" here] here], here⟩]

/-- The field is known with its type where it is read and set again, allowed or not. -/
theorem counter_scalarFields :
    (counter.diagnostics .standard ⟨"m.lua", false⟩).map (·.message) =
        ["module field 'count' cannot have type integer",
          "expected string but found integer in declaration of 'start'",
          "duplicate module field 'count', previous one at line 2"] ∧
      (counter.diagnostics .standard ⟨"m.lua", true⟩).map (·.message) =
        ["expected string but found integer in declaration of 'start'",
          "duplicate module field 'count', previous one at line 2"] ∧
      ∃ checked, greeter.check .standard ⟨"m.lua", false⟩ = .ok checked ∧
        greeter.check .standard ⟨"m.lua", true⟩ = .ok checked := by
  obtain ⟨hstrict, hlax, -⟩ := check_scalarFields .standard "m.lua" counter
  obtain ⟨checked, h⟩ : ∃ checked,
      greeter.check .standard ⟨"m.lua", false⟩ = .ok checked := ⟨_, rfl⟩
  refine ⟨?_, ?_, checked, h, (check_scalarFields .standard "m.lua" greeter).2.2.2.2 checked h⟩
  · rw [hstrict]
    decide +kernel
  · rw [hlax]
    decide +kernel

end Program

end Source

end LuaTyping
