import LuaTyping.Checking.Coercion
import LuaTyping.Proofs.Proper.Ty
import LuaTyping.Proofs.Typing.Operator

/-!
# Settled demands

What becomes of a typed expression that meets the demand of its surroundings: it stays as it is, or
it goes below an implicit cast at a boundary of `any` (`Coerced`).  Only a call without results is
no value (`isVoid`).  Every rule for expressions ends in `Demand.settle`, so `settle_yields_iff` is
the one lemma about it that the others need.
-/

namespace LuaTyping

namespace Typed.Expr

/-- Whether the expression is a call without results. -/
def isVoid (expr : Expr) : Bool :=
  match expr.kind with
  | .call _ _ [] => true
  | _ => false

theorem single_yields_iff {expr t : Expr} :
    expr.single.Yields t ↔ t = expr ∧ expr.isVoid = false := by
  unfold single isVoid
  split
  · next h => simp [h]
  · simp

/-- The expression as a value of the wanted type. -/
inductive Coerced (want : Ty) (expr : Expr) : Expr → Prop
  | fits (h : expr.ty.compatible want = true) : Coerced want expr expr
  | cast (h : expr.ty.compatible want = false) (hany : expr.ty = .any ∨ want = .any) :
      Coerced want expr ⟨.cast expr true, want, expr.loc⟩

theorem coerce_yields_iff {expr t : Expr} {want : Want} :
    (expr.coerce want).Yields t ↔ Coerced want.ty expr t := by
  unfold coerce
  by_cases hc : expr.ty.compatible want.ty = true
  · rw [if_pos hc, Report.yields_pure]
    constructor
    · rintro rfl
      exact .fits hc
    · intro h
      cases h with
      | fits => rfl
      | cast hn _ => rw [hc] at hn; cases hn
  · have hc' : expr.ty.compatible want.ty = false := Bool.eq_false_iff.mpr hc
    rw [if_neg hc]
    by_cases hany : (expr.ty.isAny || want.ty.isAny) = true
    · rw [if_pos hany, Report.yields_pure]
      rw [Bool.or_eq_true, Ty.isAny_iff, Ty.isAny_iff] at hany
      constructor
      · rintro rfl
        exact .cast hc' hany
      · intro h
        cases h with
        | fits hn => exact absurd hn hc
        | cast _ _ => rfl
    · rw [if_neg hany]
      simp only [Report.yields_bind, Report.yields_fault, false_and, exists_false, false_iff]
      intro h
      cases h with
      | fits hn => exact hc hn
      | cast _ ha =>
        rw [← Ty.isAny_iff, ← Ty.isAny_iff, ← Bool.or_eq_true] at ha
        exact hany ha

end Typed.Expr

namespace Demand

/-- The typed expression in the form that is asked for. -/
def Settles : Demand → Typed.Expr → Typed.Expr → Prop
  | .results, expr, t => t = expr
  | .value, expr, t => t = expr ∧ expr.isVoid = false
  | .ofType want, expr, t => expr.isVoid = false ∧ expr.Coerced want.ty t

theorem settle_yields_iff {demand : Demand} {expr t : Typed.Expr} :
    (demand.settle expr).Yields t ↔ demand.Settles expr t := by
  cases demand with
  | results => simp [settle, Settles]
  | value => simp [settle, Settles, Typed.Expr.single_yields_iff]
  | ofType want =>
    simp only [settle, Settles, Report.yields_bind, Typed.Expr.single_yields_iff,
      Typed.Expr.coerce_yields_iff]
    constructor
    · rintro ⟨_, ⟨rfl, hv⟩, hc⟩
      exact ⟨hv, hc⟩
    · rintro ⟨hv, hc⟩
      exact ⟨_, ⟨rfl, hv⟩, hc⟩

/-- Settling keeps the expression or puts it below an implicit cast to the wanted type. -/
theorem Settles.eq_or_cast {demand : Demand} {expr t : Typed.Expr} (h : demand.Settles expr t) :
    t = expr ∨ ∃ want, demand = .ofType want ∧ t = ⟨.cast expr true, want.ty, expr.loc⟩ := by
  cases demand with
  | results => exact Or.inl h
  | value => exact Or.inl h.1
  | ofType want =>
    obtain ⟨-, hc⟩ := h
    cases hc with
    | fits _ => exact Or.inl rfl
    | cast _ _ => exact Or.inr ⟨want, rfl, rfl⟩

end Demand

end LuaTyping
