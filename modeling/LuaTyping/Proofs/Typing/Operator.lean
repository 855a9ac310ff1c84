import LuaTyping.Checking.Operator
import LuaTyping.Proofs.Yields

/-!
# Typing rules for operators

`UnaryOp.Types` and `BinaryOp.Types` say which operands an operator takes and what comes out, once
integers beside floats have been converted.  An operation on operands of known types that finds
nothing wrong follows these rules (`unary_yields`, `binary_yields`).
-/

namespace LuaTyping

/-- An operator takes an operand of the first type to a result of the second. -/
inductive UnaryOp.Types : UnaryOp → Ty → Ty → Prop
  | negInteger : Types .neg .integer .integer
  | negFloat : Types .neg .float .float
  | bitNot : Types .bitNot .integer .integer
  | not : Types .not .boolean .boolean
  | lenArray {elem : Ty} : Types .len (.array elem) .integer
  | lenString : Types .len .string .integer

/-- An operator takes a left and a right operand of the first two types to a result of the third. -/
inductive BinaryOp.Types (op : BinaryOp) : Ty → Ty → Ty → Prop
  | integers : op.family = .arithmetic → Types op .integer .integer .integer
  | floats : op.family = .arithmetic ∨ op.family = .floatArithmetic → Types op .float .float .float
  | bitwise : op.family = .bitwise → Types op .integer .integer .integer
  | logical : op.family = .logical → Types op .boolean .boolean .boolean
  | concat {left right : Ty} : op.family = .concat → left = .string ∨ left.isNumeric = true →
      right = .string ∨ right.isNumeric = true → Types op left right .string
  | equality {left right : Ty} : op.family = .equality → left.same right = true →
      Types op left right .boolean
  | ordering {ty : Ty} : op.family = .ordering → ty = .string ∨ ty.isNumeric = true →
      Types op ty ty .boolean

namespace Ty

theorem isInteger_iff {ty : Ty} : ty.isInteger = true ↔ ty = .integer := by
  cases ty <;> simp [isInteger]

theorem isFloat_iff {ty : Ty} : ty.isFloat = true ↔ ty = .float := by
  cases ty <;> simp [isFloat]

theorem isBoolean_iff {ty : Ty} : ty.isBoolean = true ↔ ty = .boolean := by
  cases ty <;> simp [isBoolean]

theorem isString_iff {ty : Ty} : ty.isString = true ↔ ty = .string := by
  cases ty <;> simp [isString]

theorem isAny_iff {ty : Ty} : ty.isAny = true ↔ ty = .any := by
  cases ty <;> simp [isAny]

theorem isNumeric_iff {ty : Ty} : ty.isNumeric = true ↔ ty = .integer ∨ ty = .float := by
  cases ty <;> simp [isNumeric]

theorem isNumeric_of_mixed {left right : Ty} (h : left.mixed right = true) :
    left.isNumeric = true ∧ right.isNumeric = true := by
  simp only [mixed, Bool.or_eq_true, Bool.and_eq_true, isInteger_iff, isFloat_iff] at h
  rcases h with ⟨rfl, rfl⟩ | ⟨rfl, rfl⟩ <;> exact ⟨rfl, rfl⟩

end Ty

theorem UnaryOp.result?_eq_some_iff {op : UnaryOp} {operand ty : Ty}
    (hk : operand.isUnknown = false) : op.result? operand = some ty ↔ op.Types operand ty := by
  constructor
  · intro h
    cases op <;> cases operand <;> simp [UnaryOp.result?, Ty.isUnknown] at hk h <;> subst h <;>
      constructor
  · intro h
    cases h <;> rfl

namespace Typed.Expr

variable {left right operand t : Expr} {loc : Location}

/-- The expression itself, or its conversion from an integer to a float. -/
def Floated (expr result : Expr) : Prop :=
  result = expr ∨ expr.ty = .integer ∧ result = ⟨.toFloat expr, .float, expr.loc⟩

theorem floated_toFloat (expr : Expr) : Floated expr expr.toFloat := by
  unfold Expr.toFloat
  split
  · next h => exact Or.inr ⟨Ty.isInteger_iff.mp h, rfl⟩
  · exact Or.inl rfl

theorem toFloat_ty_of_isNumeric {expr : Expr} (h : expr.ty.isNumeric = true) :
    expr.toFloat.ty = .float := by
  rcases Ty.isNumeric_iff.mp h with h | h <;> simp [Expr.toFloat, h, Ty.isInteger]

/-! ### The form of an operation, whatever its types -/

theorem unary_kind (op : UnaryOp) (operand : Expr) (loc : Location) :
    (unary op operand loc).value.kind = .unary op operand := by
  unfold unary
  split <;> rfl

theorem comparison_kind (op : BinaryOp) (left right : Expr) (loc : Location) :
    ∃ left' right', (comparison op left right loc).value.kind = .binary op left' right' ∧
      Floated left left' ∧ Floated right right' := by
  simp only [comparison, Report.value_bind]
  split
  · exact ⟨_, _, rfl, floated_toFloat _, floated_toFloat _⟩
  · exact ⟨_, _, rfl, Or.inl rfl, Or.inl rfl⟩

theorem operation_kind (op : BinaryOp) (left right : Expr) (loc : Location) :
    ∃ left' right', (operation op left right loc).kind = .binary op left' right' ∧
      Floated left left' ∧ Floated right right' := by
  unfold operation
  split
  · split
    · exact ⟨_, _, rfl, Or.inl rfl, Or.inl rfl⟩
    · exact ⟨_, _, rfl, floated_toFloat _, floated_toFloat _⟩
  · exact ⟨_, _, rfl, floated_toFloat _, floated_toFloat _⟩
  all_goals exact ⟨_, _, rfl, Or.inl rfl, Or.inl rfl⟩

theorem binary_kind (op : BinaryOp) (left right : Expr) (loc : Location) :
    ∃ left' right', (binary op left right loc).value.kind = .binary op left' right' ∧
      Floated left left' ∧ Floated right right' := by
  simp only [binary, Report.value_bind]
  split
  · exact comparison_kind op left right loc
  · split
    · exact operation_kind op left right loc
    · exact ⟨_, _, rfl, Or.inl rfl, Or.inl rfl⟩

/-! ### Operations on operands of known types -/

theorem unary_yields {op : UnaryOp} (hk : operand.ty.isUnknown = false)
    (h : (unary op operand loc).Yields t) :
    ∃ ty, t = ⟨.unary op operand, ty, loc⟩ ∧ op.Types operand.ty ty := by
  unfold unary at h
  cases hr : op.result? operand.ty with
  | none => simp [hr] at h
  | some ty =>
    simp only [hr, Report.yields_pure] at h
    exact ⟨ty, h, (UnaryOp.result?_eq_some_iff hk).mp hr⟩

/-- An operand that finds nothing wrong, of a type that is known. -/
theorem takes_of_requireOperand {side : Side} {op : BinaryOp} {expr : Expr} {u : Unit}
    (hk : expr.ty.isUnknown = false) (h : (requireOperand side op expr loc).Yields u) :
    op.family.takes expr.ty = true := by
  simpa [requireOperand, hk] using h

theorem comparison_yields {op : BinaryOp} (hop : op.family = .equality ∨ op.family = .ordering)
    (hl : left.ty.isUnknown = false) (hr : right.ty.isUnknown = false)
    (h : (comparison op left right loc).Yields t) :
    ∃ left' right', t = ⟨.binary op left' right', .boolean, loc⟩ ∧ Floated left left' ∧
      Floated right right' ∧ op.Types left'.ty right'.ty .boolean := by
  simp only [comparison, Report.yields_bind, Report.yields_require] at h
  obtain ⟨-, hc, h⟩ := h
  by_cases hm : left.ty.mixed right.ty = true
  · rw [if_pos hm, Report.yields_pure] at h
    refine ⟨_, _, h, floated_toFloat _, floated_toFloat _, ?_⟩
    have hnum := Ty.isNumeric_of_mixed hm
    rw [toFloat_ty_of_isNumeric hnum.1, toFloat_ty_of_isNumeric hnum.2]
    rcases hop with hop | hop
    · exact .equality hop rfl
    · exact .ordering hop (Or.inr rfl)
  · rw [if_neg hm, Report.yields_pure] at h
    refine ⟨_, _, h, Or.inl rfl, Or.inl rfl, ?_⟩
    simp only [Ty.comparable, hl, hr, Bool.eq_false_iff.mpr hm, Bool.false_or] at hc
    rcases hop with hop | hop
    · exact .equality hop (by simpa [hop] using hc)
    · simp only [hop, Bool.or_eq_true, Bool.and_eq_true, Ty.isString_iff] at hc
      rcases hc with ⟨hl, hr⟩ | ⟨hl, hr⟩
      · -- both are numbers and not mixed, so they are of one type
        have heq : left.ty = right.ty := by
          rcases Ty.isNumeric_iff.mp hl with h1 | h1 <;> rcases Ty.isNumeric_iff.mp hr with h2 | h2 <;>
            simp [h1, h2, Ty.mixed, Ty.isInteger, Ty.isFloat] at hm ⊢
        rw [heq]
        exact .ordering hop (Or.inr hr)
      · rw [hl, hr]
        exact .ordering hop (Or.inl rfl)

theorem operation_types {op : BinaryOp} (hop : ¬(op.family = .equality ∨ op.family = .ordering))
    (hl : op.family.takes left.ty = true) (hr : op.family.takes right.ty = true) :
    ∃ left' right' ty, operation op left right loc = ⟨.binary op left' right', ty, loc⟩ ∧
      Floated left left' ∧ Floated right right' ∧ op.Types left'.ty right'.ty ty := by
  unfold operation
  cases hf : op.family with
  | arithmetic =>
    rw [hf] at hl hr
    by_cases hi : (left.ty.isInteger && right.ty.isInteger) = true
    · simp only [hi, if_true]
      simp only [Bool.and_eq_true, Ty.isInteger_iff] at hi
      refine ⟨_, _, _, rfl, Or.inl rfl, Or.inl rfl, ?_⟩
      rw [hi.1, hi.2]
      exact .integers hf
    · simp only [hi, Bool.false_eq_true, if_false]
      refine ⟨_, _, _, rfl, floated_toFloat _, floated_toFloat _, ?_⟩
      rw [toFloat_ty_of_isNumeric hl, toFloat_ty_of_isNumeric hr]
      exact .floats (Or.inl hf)
  | floatArithmetic =>
    rw [hf] at hl hr
    refine ⟨_, _, _, rfl, floated_toFloat _, floated_toFloat _, ?_⟩
    rw [toFloat_ty_of_isNumeric hl, toFloat_ty_of_isNumeric hr]
    exact .floats (Or.inr hf)
  | bitwise =>
    rw [hf] at hl hr
    refine ⟨_, _, _, rfl, Or.inl rfl, Or.inl rfl, ?_⟩
    rw [Ty.isInteger_iff.mp hl, Ty.isInteger_iff.mp hr]
    exact .bitwise hf
  | logical =>
    rw [hf] at hl hr
    refine ⟨_, _, _, rfl, Or.inl rfl, Or.inl rfl, ?_⟩
    rw [Ty.isBoolean_iff.mp hl, Ty.isBoolean_iff.mp hr]
    exact .logical hf
  | concat =>
    rw [hf] at hl hr
    simp only [BinaryOp.Family.takes, Bool.or_eq_true, Ty.isString_iff] at hl hr
    exact ⟨_, _, _, rfl, Or.inl rfl, Or.inl rfl, .concat hf hl hr⟩
  | equality => exact absurd (Or.inl hf) hop
  | ordering => exact absurd (Or.inr hf) hop

/-- A binary operation on operands of known types follows the rules for its operator. -/
theorem binary_yields {op : BinaryOp} (hl : left.ty.isUnknown = false)
    (hr : right.ty.isUnknown = false) (h : (binary op left right loc).Yields t) :
    ∃ left' right' ty, t = ⟨.binary op left' right', ty, loc⟩ ∧ Floated left left' ∧
      Floated right right' ∧ op.Types left'.ty right'.ty ty := by
  simp only [binary, Report.yields_bind] at h
  obtain ⟨_, hl', _, hr', h⟩ := h
  have htl := takes_of_requireOperand hl hl'
  have htr := takes_of_requireOperand hr hr'
  by_cases hop : op.family = .equality ∨ op.family = .ordering
  · rw [if_pos hop] at h
    obtain ⟨left', right', rfl, hrest⟩ := comparison_yields hop hl hr h
    exact ⟨left', right', _, rfl, hrest⟩
  · rw [if_neg hop, if_pos (by simp [isOperand, hl, hr, htl, htr]), Report.yields_pure] at h
    rw [h]
    exact operation_types hop htl htr

end Typed.Expr

end LuaTyping
