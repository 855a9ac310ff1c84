import LuaTyping.Checking.Assignment
import LuaTyping.Proofs.Proper.Expr

/-!
# Declared variables and targets

Where nothing wrong is found, a declaration gives all its variables proper types
(`declareVars_proper`), and an assignment has as many targets as it writes expressions, each with
the type that the context gives it (`target_yields`).
-/

namespace LuaTyping

variable {modules : Bool} {Γ Δ : Context} {loc : Location}

/-! ### Declarations -/

namespace Source.Decl

variable {decl : Decl} {typed : Typed.Decl}

theorem stated_proper (hΓ : Γ.Proper modules) {stated : Option Ty}
    (h : (decl.stated Γ).Yields stated) : ∀ ty ∈ stated, ty.proper modules = true := by
  unfold Decl.stated at h
  split at h
  · simp only [Report.yields_bind, Report.yields_pure] at h
    obtain ⟨ty, ht, rfl⟩ := h
    intro ty' hty
    cases hty
    exact TypeExpr.resolve_proper (fun _ _ => hΓ.typeName) ht
  · rw [Report.yields_pure] at h
    simp [h]

/-- A variable has the type that it states, or else that of its value, which is not the module. -/
theorem typed_yields {stated value : Option Ty} (h : (decl.typed stated value).Yields typed)
    (hs : stated.isSome = true ∨ value.isSome = true) :
    ∃ ty, typed = .plain decl.name ty decl.loc ∧
      (stated = some ty ∨ stated = none ∧ value = some ty ∧ ty.isModule = false) := by
  unfold Decl.typed at h
  split at h
  · next ty => exact ⟨ty, Report.yields_pure.mp h, Or.inl rfl⟩
  · simp at h
  · next ty hm =>
    refine ⟨ty, Report.yields_pure.mp h, Or.inr ⟨rfl, rfl, ?_⟩⟩
    cases ty with
    | module fields => exact absurd rfl (hm fields)
    | _ => rfl
  · simp at hs

theorem typed_proper {stated value : Option Ty} (h : (decl.typed stated value).Yields typed)
    (hs : stated.isSome = true ∨ value.isSome = true)
    (hp : ∀ ty ∈ stated, ty.proper modules = true)
    (hv : ∀ ty ∈ value, ty.proper modules = true ∨ ty = .module []) :
    typed.ty.proper modules = true := by
  obtain ⟨ty, rfl, rfl | ⟨-, rfl, hm⟩⟩ := typed_yields h hs
  · exact hp ty rfl
  · rcases hv ty rfl with hv | rfl
    · exact hv
    · cases hm

/-- Every variable states a type or has a value. -/
def Covered (decls : List (Decl × Option Ty)) (types : List Ty) : Prop :=
  (∀ decl ∈ decls, decl.2.isSome = true) ∨ types.length = decls.length

theorem Covered.head {decl : Decl × Option Ty} {rest : List (Decl × Option Ty)} {types : List Ty}
    (h : Covered (decl :: rest) types) : decl.2.isSome = true ∨ types.head?.isSome = true := by
  rcases h with h | h
  · exact Or.inl (h decl List.mem_cons_self)
  · cases types with
    | nil => simp at h
    | cons _ _ => exact Or.inr rfl

theorem Covered.tail {decl : Decl × Option Ty} {rest : List (Decl × Option Ty)} {types : List Ty}
    (h : Covered (decl :: rest) types) : Covered rest types.tail := by
  rcases h with h | h
  · exact Or.inl fun d hd => h d (List.mem_cons_of_mem _ hd)
  · exact Or.inr (by simp [h])

theorem typedAll_proper : ∀ {decls : List (Decl × Option Ty)} {types : List Ty}
    {typed : List Typed.Decl}, (typedAll decls types).Yields typed → Covered decls types →
      (∀ decl ∈ decls, ∀ ty ∈ decl.2, ty.proper modules = true) →
        (∀ ty ∈ types, ty.proper modules = true ∨ ty = .module []) →
          ∀ decl ∈ typed, decl.ty.proper modules = true
  | [], _, typed, h, _, _, _ => by
    rw [typedAll, Report.yields_pure] at h
    simp [h]
  | (decl, stated) :: rest, types, typed, h, hc, hp, hv => by
    simp only [typedAll, Report.yields_bind, Report.yields_pure] at h
    obtain ⟨first, hf, decls, hr, rfl⟩ := h
    rw [List.forall_mem_cons] at hp ⊢
    refine ⟨typed_proper hf hc.head hp.1 fun ty hty => hv ty (List.mem_of_head? hty), ?_⟩
    exact typedAll_proper hr hc.tail hp.2 fun ty hty => hv ty (List.mem_of_mem_tail hty)

theorem requireStated_yields : ∀ {decls : List (Decl × Option Ty)} {u : Unit},
    (requireStated decls).Yields u → ∀ decl ∈ decls, decl.2.isSome = true
  | [], _, _ => by simp
  | (decl, stated) :: rest, u, h => by
    simp only [requireStated, Report.yields_bind, Report.yields_require] at h
    obtain ⟨_, hs, hr⟩ := h
    rw [List.forall_mem_cons]
    exact ⟨hs, requireStated_yields hr⟩

end Source.Decl

namespace Context

theorem stated_zip_proper (hΓ : Γ.Proper modules) {decls : List Source.Decl}
    {stated : List (Option Ty)} (h : (decls.mapM (Source.Decl.stated Γ)).Yields stated) :
    ∀ decl ∈ decls.zip stated, ∀ ty ∈ decl.2, ty.proper modules = true := by
  rintro ⟨decl, s⟩ hd
  exact Source.Decl.stated_proper hΓ (List.forall₂_zip (Report.yields_mapM.mp h) hd)

/-- The values of a declaration give every variable a type. -/
theorem declaredValues_proper (hΓ : Γ.Proper modules) {decls : List (Source.Decl × Option Ty)}
    {exprs : List Source.Expr} {values : Values}
    (hp : ∀ decl ∈ decls, ∀ ty ∈ decl.2, ty.proper modules = true)
    (h : (Γ.declaredValues decls exprs loc).Yields values) :
    Source.Decl.Covered decls values.types ∧
      ∀ ty ∈ values.types, ty.proper modules = true ∨ ty = .module [] := by
  unfold declaredValues at h
  split_ifs at h
  · simp only [Report.yields_bind, Report.yields_pure] at h
    obtain ⟨_, hr, rfl⟩ := h
    exact ⟨Or.inl (Source.Decl.requireStated_yields hr), by simp [Values.empty]⟩
  · simp only [Report.yields_bind, Report.yields_require, Report.yields_pure] at h
    obtain ⟨_, hv, _, hf, rfl⟩ := h
    have he : ∀ ty, some ty ∈ decls.map Prod.snd → ty.proper modules = true := by
      intro ty hty
      obtain ⟨decl, hd, hs⟩ := List.mem_map.mp hty
      exact hp decl hd ty hs
    obtain ⟨hu, ht⟩ := Source.Expr.checkValues_proper hΓ he hv
    exact ⟨Or.inr (Values.length_of_fits hu hf), ht⟩

/-- **Declared variables** have proper types. -/
theorem typedAll_stated_proper (hΓ : Γ.Proper modules) {decls : List Source.Decl}
    {exprs : List Source.Expr} {stated : List (Option Ty)} {list : Values}
    {typed : List Typed.Decl} (hs : (decls.mapM (Source.Decl.stated Γ)).Yields stated)
    (hv : (Γ.declaredValues (decls.zip stated) exprs loc).Yields list)
    (ht : (Source.Decl.typedAll (decls.zip stated) list.types).Yields typed) :
    ∀ decl ∈ typed, decl.ty.proper modules = true := by
  have hp := stated_zip_proper hΓ hs
  obtain ⟨hc, hvp⟩ := declaredValues_proper hΓ hp hv
  exact Source.Decl.typedAll_proper ht hc hp hvp

theorem declareVars_proper (hΓ : Γ.Proper modules) {decls : List Source.Decl}
    {exprs : List Source.Expr} {typed : List Typed.Decl} {values : List Typed.Expr}
    (h : (Γ.declareVars decls exprs loc).Yields ((typed, values), Δ)) :
    (∀ decl ∈ typed, decl.ty.proper modules = true) ∧ Δ.Proper modules ∧ Δ.varKind = Γ.varKind := by
  simp only [declareVars, Report.yields_bind, Report.yields_pure, Prod.mk.injEq] at h
  obtain ⟨stated, hs, list, hv, typed', ht, Δ', hd, ⟨rfl, rfl⟩, rfl⟩ := h
  have htp := typedAll_stated_proper hΓ hs hv ht
  exact ⟨htp, hΓ.declareAll rfl htp hd⟩

/-! ### Targets -/

theorem nameTarget_yields {name : String} {target : Option Typed.Target}
    (h : (Γ.nameTarget name loc).Yields target) :
    ∃ ty site, (Γ.scopes.lookup name = some (.var ⟨ty, site, .inner⟩) ∧
        target = some (.innerVar name ty)) ∨
      (Γ.scopes.lookup name = some (.var ⟨ty, site, .toplevel⟩) ∧
        target = some (.toplevel name ty)) := by
  unfold nameTarget at h
  split at h
  · next ty site hl => exact ⟨ty, site, Or.inl ⟨hl, Report.yields_pure.mp h⟩⟩
  · next ty site hl => exact ⟨ty, site, Or.inr ⟨hl, Report.yields_pure.mp h⟩⟩
  all_goals simp at h

/-- An element of an array makes a target. -/
theorem target?_of_index {object key : Source.Expr} {typed : Typed.Expr}
    (h : ((Source.Expr.index object key loc).check Γ .results).Yields typed) :
    ∃ array key' ty, typed.target? = some (.index array key' ty) := by
  simp only [Source.Expr.check, Demand.settle, Report.yields_bind, Report.yields_pure] at h
  obtain ⟨array, -, elem, -, key', -, rfl⟩ := h
  exact ⟨array, key', elem, rfl⟩

/-- A field of a value other than a library makes a target. -/
theorem target?_of_field (hΓ : Γ.Proper modules) {object : Source.Expr} {key : String}
    {typed : Typed.Expr} (hlib : Γ.library? object = none)
    (h : ((Source.Expr.field object key loc).check Γ .results).Yields typed) :
    (∃ object' ty, typed.target? = some (.field object' key ty)) ∨
      ∃ module ty, typed.target? = some (.moduleField module key ty) := by
  simp only [Source.Expr.check, hlib, Demand.settle, Report.yields_bind, Report.yields_pure] at h
  obtain ⟨object', ho, _, hf, rfl⟩ := h
  have hat := Source.Expr.check_proper hΓ Demand.proper_value ho _ List.mem_cons_self
  rcases fieldExpr_yields (Ty.not_isUnknown_of_properAt hat) hf with
    ⟨_, ty, _, _, rfl⟩ | ⟨_, declared, _, _, rfl⟩
  · exact Or.inl ⟨object', ty, rfl⟩
  · exact Or.inr ⟨_, declared.ty, rfl⟩

/-- **Targets.**  A target is a variable that is not the module variable, or the member or element
that the expression is typed as. -/
theorem target_yields (hΓ : Γ.Proper modules) {expr : Source.Expr} {target : Option Typed.Target}
    (h : (Γ.target expr).Yields target) :
    (∃ name site ty declared, expr = .name name site ∧
        ((Γ.scopes.lookup name = some (.var ⟨ty, declared, .inner⟩) ∧
            target = some (.innerVar name ty)) ∨
          (Γ.scopes.lookup name = some (.var ⟨ty, declared, .toplevel⟩) ∧
            target = some (.toplevel name ty)))) ∨
      ∃ typed found, expr.bareName? = none ∧ (expr.check Γ .results).Yields typed ∧
        typed.target? = some found ∧ target = some found := by
  unfold Context.target at h
  split at h
  · next name site =>
    obtain ⟨ty, declared, ht⟩ := nameTarget_yields h
    exact Or.inl ⟨name, site, ty, declared, rfl, ht⟩
  · next object key site =>
    split at h
    · simp at h
    · next hlib =>
      simp only [Report.yields_bind, Report.yields_pure] at h
      obtain ⟨typed, hc, rfl⟩ := h
      rcases target?_of_field hΓ hlib hc with ⟨_, _, ht⟩ | ⟨_, _, ht⟩ <;>
        exact Or.inr ⟨typed, _, rfl, hc, ht, ht⟩
  · simp only [Report.yields_bind, Report.yields_pure] at h
    obtain ⟨typed, hc, rfl⟩ := h
    obtain ⟨_, _, _, ht⟩ := target?_of_index hc
    exact Or.inr ⟨typed, _, rfl, hc, ht, ht⟩
  · simp at h

/-- A target takes values of a proper type. -/
theorem target_proper (hΓ : Γ.Proper modules) {expr : Source.Expr} {target : Option Typed.Target}
    (h : (Γ.target expr).Yields target) :
    ∃ found, target = some found ∧ found.ty.proper modules = true := by
  rcases target_yields hΓ h with ⟨name, _, ty, declared, _, ⟨hl, rfl⟩ | ⟨hl, rfl⟩⟩ |
    ⟨typed, found, hn, hc, ht, rfl⟩ <;> refine ⟨_, rfl, ?_⟩
  · rcases hΓ.var hl with ⟨-, hp⟩ | ⟨hk, -⟩
    · exact hp
    · cases hk
  · rcases hΓ.var hl with ⟨-, hp⟩ | ⟨hk, -⟩
    · exact hp
    · cases hk
  · have hty : found.ty = typed.ty := by
      unfold Typed.Expr.target? at ht
      split at ht <;> cases ht <;> rfl
    rw [hty]
    rcases Source.Expr.check_proper hΓ Demand.proper_results hc _ List.mem_cons_self with
      hp | ⟨-, name, hname, -⟩
    · exact hp
    · rw [hn] at hname
      cases hname

/-- No target gets lost. -/
theorem targets_eq_map_some (hΓ : Γ.Proper modules) {exprs : List Source.Expr}
    {found : List (Option Typed.Target)}
    (h : List.Forall₂ (fun expr target => (Γ.target expr).Yields target) exprs found) :
    ∃ typed : List Typed.Target, found = typed.map some := by
  induction h with
  | nil => exact ⟨[], rfl⟩
  | cons hfirst _ ih =>
    obtain ⟨first, rfl, -⟩ := target_proper hΓ hfirst
    obtain ⟨rest, rfl⟩ := ih
    exact ⟨first :: rest, rfl⟩

/-- The types that an assignment expects are proper. -/
theorem targets_expected_proper (hΓ : Γ.Proper modules) {exprs : List Source.Expr}
    {typed : List Typed.Target}
    (h : List.Forall₂ (fun expr target => (Γ.target expr).Yields (some target)) exprs typed) :
    ∀ ty, some ty ∈ typed.map (fun target => some target.ty) → ty.proper modules = true := by
  induction h with
  | nil => simp
  | cons hfirst _ ih =>
    obtain ⟨_, hfound, hp⟩ := target_proper hΓ hfirst
    cases hfound
    intro ty hty
    rcases List.mem_cons.mp hty with hty | hty
    · cases hty
      exact hp
    · exact ih ty hty

/-- **Assignments** have a target for each expression on the left, and take the targets' types. -/
theorem assign_yields (hΓ : Γ.Proper modules) {targets values : List Source.Expr}
    {typed : List Typed.Target} {exprs : List Typed.Expr}
    (h : (Γ.assign targets values loc).Yields (typed, exprs)) :
    ∃ list, List.Forall₂ (fun expr target => (Γ.target expr).Yields (some target)) targets typed ∧
      (Source.Expr.checkValues Γ (fun _ => .assignment) values
        (typed.map fun target => some target.ty) 0).Yields list ∧
        list.fits typed.length = true ∧ exprs = list.exprs := by
  simp only [assign, Report.yields_bind, Report.yields_require, Report.yields_pure,
    Prod.mk.injEq, Report.yields_mapM] at h
  obtain ⟨found, hf, list, hv, _, hfit, rfl, rfl⟩ := h
  obtain ⟨typed, rfl⟩ := targets_eq_map_some hΓ hf
  rw [List.forall₂_map_right_iff] at hf
  refine ⟨list, ?_, ?_, ?_, rfl⟩
  · simpa using hf
  · simpa [Typed.Target.wanted, Function.comp_def] using hv
  · simpa [hf.length_eq] using hfit

end Context

end LuaTyping
