import LuaTyping.Proofs.Soundness.Expr

/-!
# Checked declarations and assignments are well typed

The values of a declaration have the types of its variables (`declareVars_declares`), and those of an
assignment the types of its targets, which exist (`assign_typed`).
-/

namespace LuaTyping

open Typed (Env flatTypes)

variable {Γ Δ : Context} {E : Env} {loc : Location}

/-! ### Declarations -/

namespace Source.Decl

theorem typedAll_plain : ∀ {decls : List (Decl × Option Ty)} {types : List Ty}
    {typed : List Typed.Decl}, (typedAll decls types).Yields typed → Covered decls types →
      ∀ decl ∈ typed, decl.implicitCast = false
  | [], _, typed, h, _ => by
    rw [typedAll, Report.yields_pure] at h
    simp [h]
  | (decl, stated) :: rest, types, typed, h, hc => by
    simp only [typedAll, Report.yields_bind, Report.yields_pure] at h
    obtain ⟨first, hf, decls, hr, rfl⟩ := h
    obtain ⟨ty, rfl, -⟩ := typed_yields hf hc.head
    exact List.forall_mem_cons.mpr ⟨rfl, typedAll_plain hr hc.tail⟩

/-- Declared variables have the types of their values. -/
theorem typedAll_agrees : ∀ {decls : List (Decl × Option Ty)} {types : List Ty}
    {typed : List Typed.Decl}, (typedAll decls types).Yields typed →
      types.length = decls.length → Ty.Meets types (decls.map Prod.snd) →
        List.Forall₂ Ty.Agrees types (typed.map (·.ty))
  | [], [], typed, h, _, _ => by
    rw [typedAll, Report.yields_pure] at h
    rw [h]
    exact .nil
  | (decl, stated) :: rest, ty :: types, typed, h, hlen, hm => by
    simp only [typedAll, Report.yields_bind, Report.yields_pure, List.head?_cons,
      List.tail_cons] at h
    obtain ⟨first, hf, decls, hr, rfl⟩ := h
    obtain ⟨hty, hrest⟩ := hm
    refine .cons ?_ (typedAll_agrees hr (by simpa using hlen) hrest)
    obtain ⟨ty', rfl, rfl | ⟨-, hvalue, -⟩⟩ := typed_yields hf (Or.inr rfl)
    · exact hty ty' rfl
    · cases hvalue
      exact Or.inl rfl

end Source.Decl

namespace Context

/-- **Declarations are well typed.** -/
theorem declareVars_declares (hΓ : Γ.Proper false) {decls : List Source.Decl}
    {exprs : List Source.Expr} {typed : List Typed.Decl} {values : List Typed.Expr}
    (h : (Γ.declareVars decls exprs loc).Yields ((typed, values), Δ)) :
    Γ.env.Declares typed values ∧ (declareAll Γ.varKind typed Γ).Yields Δ := by
  simp only [declareVars, Report.yields_bind, Report.yields_pure, Prod.mk.injEq] at h
  obtain ⟨stated, hs, list, hv, typed', ht, Δ', hd, ⟨rfl, rfl⟩, rfl⟩ := h
  have hp := stated_zip_proper hΓ hs
  obtain ⟨hc, -⟩ := declaredValues_proper hΓ hp hv
  refine ⟨⟨Source.Decl.typedAll_plain ht hc, ?_⟩, hd⟩
  unfold declaredValues at hv
  split_ifs at hv
  · simp only [Report.yields_bind, Report.yields_pure] at hv
    obtain ⟨_, -, rfl⟩ := hv
    exact ⟨.nil, Or.inl rfl⟩
  · simp only [Report.yields_bind, Report.yields_require, Report.yields_pure] at hv
    obtain ⟨_, hv, _, hfit, rfl⟩ := hv
    have he : ∀ ty, some ty ∈ (decls.zip stated).map Prod.snd → ty.proper false = true := by
      intro ty hty
      obtain ⟨decl, hd, hs⟩ := List.mem_map.mp hty
      exact hp decl hd ty hs
    obtain ⟨hu, -⟩ := Source.Expr.checkValues_proper hΓ he hv
    have hagrees := Source.Decl.typedAll_agrees ht (Values.length_of_fits hu hfit)
      (Source.Expr.checkValues_meets hΓ he hv)
    rw [Source.Expr.checkValues_flatTypes hv] at hagrees
    exact ⟨Source.Expr.checkValues_values hΓ he hv, Or.inr hagrees⟩

end Context

/-! ### Targets -/

theorem Typed.Env.Target.of_value {typed : Typed.Expr} {target : Typed.Target}
    (hv : E.Value typed) (h : typed.target? = some target) : E.Target target := by
  cases hv with
  | moduleField hm hf =>
    cases h
    exact .moduleField hm hf
  | index ha hty hk hkey =>
    cases h
    exact .index ha hty hk hkey
  | field ho hfs hl =>
    cases h
    exact .field ho hfs hl
  | call hc _ =>
    cases hc
    cases h
  | _ => cases h

theorem Typed.Expr.not_isVoid_of_target? {typed : Typed.Expr} {target : Typed.Target}
    (h : typed.target? = some target) : typed.isVoid = false := by
  unfold target? at h
  unfold isVoid
  split at h <;> simp_all

namespace Context

theorem target_target (hΓ : Γ.Proper false) {expr : Source.Expr} {target : Typed.Target}
    (h : (Γ.target expr).Yields (some target)) : Γ.env.Target target := by
  rcases target_yields hΓ h with ⟨name, _, ty, _, _, ⟨hl, ht⟩ | ⟨hl, ht⟩⟩ |
    ⟨typed, found, -, hc, ht, hfound⟩
  · cases ht
    exact .innerVar (env_vars_of_var hl)
  · cases ht
    exact .toplevel (env_vars_of_var hl)
  · cases hfound
    refine .of_value ?_ ht
    exact (Source.Expr.check_results hΓ Demand.proper_results hc).value
      (Typed.Expr.not_isVoid_of_target? ht)

/-- **Assignments are well typed.** -/
theorem assign_typed (hΓ : Γ.Proper false) {targets values : List Source.Expr}
    {typed : List Typed.Target} {exprs : List Typed.Expr}
    (h : (Γ.assign targets values loc).Yields (typed, exprs)) :
    (∀ target ∈ typed, Γ.env.Target target) ∧ Γ.env.Values exprs ∧
      List.Forall₂ Ty.Agrees (flatTypes exprs) (typed.map (·.ty)) := by
  obtain ⟨list, ht, hv, hfit, rfl⟩ := assign_yields hΓ h
  have htargets : ∀ target ∈ typed, Γ.env.Target target := by
    clear hv h hfit
    induction ht with
    | nil => simp
    | cons hfirst _ ih => exact List.forall_mem_cons.mpr ⟨target_target hΓ hfirst, ih⟩
  have he := targets_expected_proper hΓ ht
  obtain ⟨hu, -⟩ := Source.Expr.checkValues_proper hΓ he hv
  have hlen := Values.length_of_fits hu hfit
  have hmeets := Source.Expr.checkValues_meets hΓ he hv
  rw [Source.Expr.checkValues_flatTypes hv] at hmeets hlen
  refine ⟨htargets, Source.Expr.checkValues_values hΓ he hv, ?_⟩
  refine Ty.Meets.forall₂ ?_ (by simpa using hlen)
  rwa [List.map_map]

end Context

end LuaTyping
