import LuaTyping.Proofs.Undeclared.Coercion

/-!
# Operators on types that are unknown in part

An operator that takes its operands takes operands of blurred types as well.  A test for equality is
the exception: it needs the same type on both sides, and blurred types need not be the same even if
the types are.  So a binary operation shows a fault exactly if its operands are not quiet
(`Typed.Expr.binary_blurs`).
-/

namespace LuaTyping

variable {ρ : String → NameMap Ty} {N : String}

/-! ### Types of operands -/

/-- A type that has no parts is blurred to itself or to `unknown`. -/
theorem Ty.Blurs.scalar {ty ty' : Ty} (h : ty.Blurs ρ ty')
    (hs : ty.isNumeric = true ∨ ty.isBoolean = true ∨ ty.isString = true) :
    ty' = .unknown ∨ ty' = ty := by
  cases h with
  | unknown => exact Or.inl rfl
  | array | table | record | function => simp [isNumeric, isBoolean, isString] at hs
  | _ => exact Or.inr rfl

theorem UnaryOp.result?_blurs {op : UnaryOp} {ty ty' result : Ty} (hb : ty.Blurs ρ ty')
    (h : op.result? ty = some result) : ∃ result', op.result? ty' = some result' ∧
      result.Blurs ρ result' := by
  cases hb with
  | unknown => exact ⟨.unknown, by cases op <;> rfl, .unknown⟩
  | integer | float | boolean | string | array =>
    cases op <;> simp only [result?, reduceCtorEq, Option.some.injEq] at h <;> subst h <;>
      exact ⟨_, rfl, by constructor⟩
  | _ => cases op <;> simp [result?] at h

theorem BinaryOp.Family.scalar_of_takes {family : BinaryOp.Family} {ty : Ty}
    (hop : ¬(family = .equality ∨ family = .ordering)) (h : family.takes ty = true) :
    ty.isNumeric = true ∨ ty.isBoolean = true ∨ ty.isString = true := by
  cases family <;> simp only [takes, Bool.or_eq_true] at h
  case arithmetic | floatArithmetic => exact Or.inl h
  case bitwise => exact Or.inl (by rw [Ty.isInteger_iff.mp h]; rfl)
  case logical => exact Or.inr (Or.inl h)
  case concat => exact h.symm.imp_right Or.inr
  case equality => exact absurd (Or.inl rfl) hop
  case ordering => exact absurd (Or.inr rfl) hop

theorem BinaryOp.Family.takes_blurs {family : BinaryOp.Family} {ty ty' : Ty} (hb : ty.Blurs ρ ty')
    (h : family.takes ty = true) : (ty'.isUnknown || family.takes ty') = true := by
  by_cases hop : family = .equality ∨ family = .ordering
  · rcases hop with rfl | rfl <;> simp [takes]
  · rcases hb.scalar (scalar_of_takes hop h) with rfl | rfl
    · rfl
    · simp [h]

/-- Operands that can be compared can still be compared unless they are tested for equality. -/
theorem Ty.comparable_blurs {op : BinaryOp} {left right left' right' : Ty}
    (hop : op.family = .equality ∨ op.family = .ordering) (hl : left.Blurs ρ left')
    (hr : right.Blurs ρ right') (hkl : left.isUnknown = false) (hkr : right.isUnknown = false)
    (hm : left'.mixed right' = false) (h : Ty.comparable op.family left right = true) :
    Ty.comparable op.family left' right' = Typed.quietOperands op left' right' := by
  rcases hop with hop | hop
  · simp [Ty.comparable, Typed.quietOperands, hop, hm]
  · have hquiet : Typed.quietOperands op left' right' = true := by
      simp [Typed.quietOperands, hop]
    have hscalar : (left.isNumeric = true ∨ left.isBoolean = true ∨ left.isString = true) ∧
        (right.isNumeric = true ∨ right.isBoolean = true ∨ right.isString = true) := by
      simp only [Ty.comparable, hkl, hkr, hop, Ty.mixed, Bool.false_or, Bool.or_eq_true,
        Bool.and_eq_true, isInteger_iff, isFloat_iff] at h
      rcases h with (⟨rfl, rfl⟩ | ⟨rfl, rfl⟩) | ⟨hl, hr⟩ | ⟨hl, hr⟩
      · exact ⟨Or.inl rfl, Or.inl rfl⟩
      · exact ⟨Or.inl rfl, Or.inl rfl⟩
      · exact ⟨Or.inl hl, Or.inl hr⟩
      · exact ⟨Or.inr (Or.inr hl), Or.inr (Or.inr hr)⟩
    rw [hquiet]
    rcases hl.scalar hscalar.1 with rfl | rfl
    · simp [Ty.comparable, Ty.isUnknown]
    · rcases hr.scalar hscalar.2 with rfl | rfl
      · simp [Ty.comparable, Ty.isUnknown]
      · exact h

namespace Typed

/-- Whether the form is one of an expression with a single value that is neither a table constructor
nor a toplevel name. -/
def ExprKind.isPlain : ExprKind → Bool
  | .call .. | .expand .. | .arrayInit _ | .tableInit _ | .toplevel _ => false
  | _ => true

namespace Expr

variable {left right left' right' operand operand' t t' : Expr} {loc : Location}

theorem Shadows.of_plain (h : t.kind.isPlain = true) (h' : t'.kind.isPlain = true)
    (hty : t.ty.Blurs ρ t'.ty) : t.Shadows ρ t' := by
  obtain ⟨kind, ty, loc⟩ := t
  obtain ⟨kind', ty', loc'⟩ := t'
  have hv : ∀ {kind : ExprKind} {ty : Ty} {loc : Location}, kind.isPlain = true →
      (⟨kind, ty, loc⟩ : Expr).valueTypes = [ty] ∧ (⟨kind, ty, loc⟩ : Expr).isCall = false ∧
        (⟨kind, ty, loc⟩ : Expr).isInit = false := by
    intro kind ty loc hk
    cases kind <;> first | exact ⟨rfl, rfl, rfl⟩ | cases hk
  obtain ⟨hv₁, hc₁, -⟩ := hv h
  obtain ⟨hv₂, hc₂, hi₂⟩ := hv h'
  refine ⟨hty, Or.inl ?_, hc₂.trans hc₁.symm, hi₂, ?_⟩
  · rw [hv₁, hv₂]
    exact .cons hty .nil
  · rintro name rfl
    cases h

@[simp]
theorem quiet_toFloat (expr : Expr) : expr.toFloat.quiet = expr.quiet := by
  unfold Expr.toFloat
  split
  · simp only [Expr.quiet, ExprKind.quiet]
  · rfl

/-! ### Operations -/

theorem unary_blurs {op : UnaryOp} (hty : operand.ty.Blurs ρ operand'.ty)
    (h : (unary op operand loc).Yields t) :
    ∃ t', (unary op operand' loc).Yields t' ∧ t.Shadows ρ t' ∧ t'.quiet = operand'.quiet := by
  unfold unary at h ⊢
  cases hr : op.result? operand.ty with
  | none => simp [hr] at h
  | some ty =>
    simp only [hr, Report.yields_pure] at h
    obtain ⟨ty', hr', hb⟩ := op.result?_blurs hty hr
    rw [hr', h]
    refine ⟨_, rfl, .of_plain rfl rfl hb, ?_⟩
    simp only [Expr.quiet, ExprKind.quiet]

theorem comparison_blurs {op : BinaryOp} (hop : op.family = .equality ∨ op.family = .ordering)
    (hl : left.ty.Blurs ρ left'.ty) (hr : right.ty.Blurs ρ right'.ty)
    (hkl : left.ty.isUnknown = false) (hkr : right.ty.isUnknown = false)
    (h : (comparison op left right loc).Yields t) :
    ∃ quiet, (comparison op left' right' loc).Shows N [] quiet ∧
      (comparison op left' right' loc).value.quiet = (left'.quiet && (right'.quiet && quiet)) ∧
        t.Shadows ρ (comparison op left' right' loc).value := by
  obtain ⟨_, _, rfl, -⟩ := comparison_yields hop hkl hkr h
  simp only [comparison, Report.yields_bind, Report.yields_require] at h
  obtain ⟨-, hc, -⟩ := h
  unfold comparison
  by_cases hm : left'.ty.mixed right'.ty = true
  · -- both sides are floats in the end
    have hnum : left'.ty.isNumeric = true ∧ right'.ty.isNumeric = true := by
      simp only [Ty.mixed, Bool.or_eq_true, Bool.and_eq_true, Ty.isInteger_iff, Ty.isFloat_iff] at hm
      rcases hm with ⟨hl, hr⟩ | ⟨hl, hr⟩ <;> simp [hl, hr, Ty.isNumeric]
    have hc' : Ty.comparable op.family left'.ty right'.ty = true := by simp [Ty.comparable, hm]
    simp only [hm, if_true, hc']
    refine ⟨true, .of_faults_eq_nil rfl, ?_, .of_plain rfl rfl .boolean⟩
    simp [Expr.quiet, ExprKind.quiet, quietOperands, toFloat_ty_of_isNumeric hnum.1,
      toFloat_ty_of_isNumeric hnum.2, Ty.same]
  · rw [Bool.not_eq_true] at hm
    simp only [hm, Bool.false_eq_true, if_false, Ty.comparable_blurs hop hl hr hkl hkr hm hc]
    refine ⟨_, (Report.Shows.require rfl).bind_pure, ?_, .of_plain rfl rfl .boolean⟩
    simp only [Report.value_bind, Report.value_pure, Expr.quiet, ExprKind.quiet]

theorem quietOperands_of_not_comparison {op : BinaryOp} {l r : Ty}
    (hop : ¬(op.family = .equality ∨ op.family = .ordering)) : quietOperands op l r = true := by
  simp only [not_or] at hop
  simp [quietOperands, hop.1]

theorem operation_ty_blurs {op : BinaryOp} :
    (operation op left right loc).ty.Blurs ρ (operation op left right loc).ty := by
  unfold operation
  cases op.family <;> simp only []
  case arithmetic => split <;> constructor
  all_goals constructor

/-- An operation on the same types has the same type. -/
theorem operation_ty_eq {op : BinaryOp} (hl : left'.ty = left.ty) (hr : right'.ty = right.ty) :
    (operation op left' right' loc).ty = (operation op left right loc).ty := by
  unfold operation
  rw [hl, hr]
  cases op.family <;> first | rfl | (simp only []; split <;> rfl)

theorem operation_form {op : BinaryOp} (hop : ¬(op.family = .equality ∨ op.family = .ordering)) :
    (operation op left right loc).kind.isPlain = true ∧
      (operation op left right loc).quiet = (left.quiet && (right.quiet && true)) := by
  unfold operation
  cases op.family <;> simp only []
  case arithmetic =>
    split <;> exact ⟨rfl, by simp [Expr.quiet, ExprKind.quiet, quietOperands_of_not_comparison hop]⟩
  all_goals exact ⟨rfl, by simp [Expr.quiet, ExprKind.quiet, quietOperands_of_not_comparison hop]⟩

/-- **A binary operation with blurred operands** shows a fault exactly if its operands are not
quiet. -/
theorem binary_blurs {op : BinaryOp} (hl : left.ty.Blurs ρ left'.ty)
    (hr : right.ty.Blurs ρ right'.ty) (hkl : left.ty.isUnknown = false)
    (hkr : right.ty.isUnknown = false) (h : (binary op left right loc).Yields t) :
    ∃ quiet, (binary op left' right' loc).Shows N [] quiet ∧
      (binary op left' right' loc).value.quiet = (left'.quiet && (right'.quiet && quiet)) ∧
        t.Shadows ρ (binary op left' right' loc).value := by
  simp only [binary, Report.yields_bind] at h
  obtain ⟨_, hrl, _, hrr, h⟩ := h
  have htl := takes_of_requireOperand hkl hrl
  have htr := takes_of_requireOperand hkr hrr
  have hl' : (requireOperand .left op left' loc).Yields () :=
    Report.yields_require.mpr (op.family.takes_blurs hl htl)
  have hr' : (requireOperand .right op right' loc).Yields () :=
    Report.yields_require.mpr (op.family.takes_blurs hr htr)
  rw [binary, hl'.bind_eq, hr'.bind_eq]
  by_cases hop : op.family = .equality ∨ op.family = .ordering
  · rw [if_pos hop] at h ⊢
    exact comparison_blurs hop hl hr hkl hkr h
  · rw [if_neg hop, if_pos (by simp [isOperand, hkl, hkr, htl, htr]), Report.yields_pure] at h
    rw [if_neg hop, h]
    split
    · next hop' =>
      -- both operands have kept their types
      simp only [isOperand, Bool.and_eq_true, Bool.not_eq_true'] at hop'
      have hsl : left'.ty = left.ty := by
        rcases hl.scalar (BinaryOp.Family.scalar_of_takes hop htl) with hu | he
        · simp [hu, Ty.isUnknown] at hop'
        · exact he
      have hsr : right'.ty = right.ty := by
        rcases hr.scalar (BinaryOp.Family.scalar_of_takes hop htr) with hu | he
        · simp [hu, Ty.isUnknown] at hop'
        · exact he
      refine ⟨true, .of_faults_eq_nil rfl, (operation_form hop).2, ?_⟩
      refine .of_plain (operation_form hop).1 (operation_form hop).1 ?_
      rw [Report.value_pure, operation_ty_eq hsl hsr]
      exact operation_ty_blurs
    · refine ⟨true, .of_faults_eq_nil rfl, ?_, .of_plain (operation_form hop).1 rfl .unknown⟩
      simp [Expr.quiet, ExprKind.quiet, quietOperands_of_not_comparison hop]

end Expr

end Typed

end LuaTyping
