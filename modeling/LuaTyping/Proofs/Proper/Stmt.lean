import LuaTyping.Checking.Stmt
import LuaTyping.Proofs.Proper.Loop

/-!
# The contexts after statements

Statements keep a proper context proper: only a declaration changes it (`check_context`).
-/

namespace LuaTyping

variable {modules : Bool} {Γ Δ : Context}

namespace Source.Stmt

/-- Only a declaration changes the context. -/
theorem check_context {stmt : Source.Stmt} {t : Typed.Stmt} (h : (check Γ stmt).Yields (t, Δ)) :
    Δ = Γ ∨ ∃ decls exprs loc typed, (Γ.declareVars decls exprs loc).Yields (typed, Δ) := by
  have hΔ : (check Γ stmt).value.2 = Δ := by rw [h.value_eq]
  cases stmt with
  | declare decls values loc =>
    simp only [check, Report.yields_bind, Report.yields_pure, Prod.mk.injEq] at h
    obtain ⟨⟨typed, Δ'⟩, hd, -, rfl⟩ := h
    exact Or.inr ⟨decls, values, loc, typed, hd⟩
  | _ => exact Or.inl (hΔ.symm.trans (by rw [check]; rfl))

/-- **Statements keep a context proper.** -/
theorem check_context_proper (hΓ : Γ.Proper modules) {stmt : Source.Stmt} {t : Typed.Stmt}
    (h : (check Γ stmt).Yields (t, Δ)) : Δ.Proper modules ∧ Δ.varKind = Γ.varKind := by
  rcases check_context h with rfl | ⟨decls, exprs, loc, ⟨typed, values⟩, hd⟩
  · exact ⟨hΓ, rfl⟩
  · exact (Context.declareVars_proper hΓ hd).2

theorem checkBlock_context_proper : ∀ {stmts : List Source.Stmt} {Γ Δ : Context}
    {typed : List Typed.Stmt}, Γ.Proper modules → (checkBlock Γ stmts).Yields (typed, Δ) →
      Δ.Proper modules ∧ Δ.varKind = Γ.varKind
  | [], Γ, Δ, typed, hΓ, h => by
    simp only [checkBlock, Report.yields_pure, Prod.mk.injEq] at h
    obtain ⟨rfl, rfl⟩ := h
    exact ⟨hΓ, rfl⟩
  | stmt :: rest, Γ, Δ, typed, hΓ, h => by
    simp only [checkBlock, Report.yields_bind, Report.yields_pure, Prod.mk.injEq] at h
    obtain ⟨⟨t, Γ'⟩, hs, ⟨ts, Δ'⟩, hr, rfl, rfl⟩ := h
    obtain ⟨hΓ', hk⟩ := check_context_proper hΓ hs
    obtain ⟨hΔ, hk'⟩ := checkBlock_context_proper hΓ' hr
    exact ⟨hΔ, hk'.trans hk⟩

end Source.Stmt
end LuaTyping
