import LuaTyping.Checking.Expr
import LuaTyping.Proofs.Typing.Coercion

/-!
# Inversion of the rules for expressions

For each rule that can end in different ways: what it has found if it finds nothing wrong.  Where an
`unknown` type would be passed over in silence, its absence is a premise.
-/

namespace LuaTyping

namespace Context

variable {Γ : Context} {name field : String} {loc : Location} {t object : Typed.Expr}

theorem nameExpr_yields (h : (Γ.nameExpr name loc).Yields t) :
    (∃ ty site, Γ.scopes.lookup name = some (.var ⟨ty, site, .inner⟩) ∧
        t = ⟨.innerVar name, ty, loc⟩) ∨
      (∃ ty site kind, kind ≠ .inner ∧ Γ.scopes.lookup name = some (.var ⟨ty, site, kind⟩) ∧
        t = ⟨.toplevel name, ty, loc⟩) ∨
      ∃ ty, Γ.scopes.lookup name = some (.builtin ty) ∧ t = ⟨.builtin name, ty, loc⟩ := by
  unfold nameExpr at h
  split at h
  · next ty site hl => exact Or.inl ⟨ty, site, hl, Report.yields_pure.mp h⟩
  · next ty site kind hk hl =>
    refine Or.inr (Or.inl ⟨ty, site, kind, ?_, hl, Report.yields_pure.mp h⟩)
    exact fun he => hk he
  · next ty hl => exact Or.inr (Or.inr ⟨ty, hl, Report.yields_pure.mp h⟩)
  · simp at h
  · simp at h

theorem library?_eq_some_iff {expr : Source.Expr} {members : NameMap Ty} :
    Γ.library? expr = some (name, members) ↔
      (∃ site, expr = .name name site) ∧ Γ.scopes.lookup name = some (.library members) := by
  unfold library?
  cases expr with
  | name text site =>
    simp only [Source.Expr.name?, Source.Expr.name.injEq]
    split
    · next found hl =>
      simp only [Option.some.injEq, Prod.mk.injEq]
      constructor
      · rintro ⟨rfl, rfl⟩
        exact ⟨⟨site, rfl, rfl⟩, hl⟩
      · rintro ⟨⟨_, rfl, rfl⟩, h⟩
        rw [hl] at h
        cases h
        exact ⟨rfl, rfl⟩
    · next hl =>
      constructor
      · intro h; cases h
      · rintro ⟨⟨_, rfl, rfl⟩, h⟩
        exact absurd h (hl members)
  | _ => simp [Source.Expr.name?]

theorem fieldExpr_yields (hk : object.ty.isUnknown = false)
    (h : (Γ.fieldExpr object field loc).Yields t) :
    (∃ fields ty, object.ty.fields? = some fields ∧ fields.lookup field = some ty ∧
        t = ⟨.field object field, ty, loc⟩) ∨
      ∃ fields declared, object.ty = .module fields ∧
        Γ.module.fields.lookup field = some declared ∧
          t = ⟨.moduleField (Γ.module.name?.getD "") field, declared.ty, loc⟩ := by
  unfold fieldExpr at h
  split at h
  · next fields hty =>
    simp only [Report.yields_bind, Report.yields_orUnknown, Report.yields_pure] at h
    obtain ⟨ty, hl, rfl⟩ := h
    exact Or.inl ⟨fields, ty, by rw [hty, Ty.fields?], hl, rfl⟩
  · next record fields hty =>
    simp only [Report.yields_bind, Report.yields_orUnknown, Report.yields_pure] at h
    obtain ⟨ty, hl, rfl⟩ := h
    exact Or.inl ⟨fields, ty, by rw [hty, Ty.fields?], hl, rfl⟩
  · next fields hty =>
    simp only [Report.yields_bind, Report.yields_orUnknown, Report.yields_pure,
      Option.map_eq_some_iff] at h
    obtain ⟨_, ⟨declared, hl, rfl⟩, rfl⟩ := h
    exact Or.inr ⟨fields, declared, hty, hl, rfl⟩
  · next hty => simp [hty, Ty.isUnknown] at hk
  · simp at h

end Context

theorem Ty.element_yields {ty elem : Ty} {loc : Location} (hk : ty.isUnknown = false)
    (h : (ty.element loc).Yields elem) : ty = .array elem := by
  unfold Ty.element at h
  split at h
  · rw [Report.yields_pure.mp h]
  · simp [Ty.isUnknown] at hk
  · simp at h

namespace Typed.Expr

variable {want : Ty} {expr t : Expr}

theorem Coerced.castable (h : Coerced want expr t) : expr.ty.castable want = true := by
  cases h with
  | fits h => simp [Ty.castable, h]
  | cast _ h => rcases h with h | h <;> simp [Ty.castable, h, Ty.isAny]

theorem exists_coerced (h : expr.ty.castable want = true) : ∃ t, Coerced want expr t := by
  simp only [Ty.castable, Bool.or_eq_true, Ty.isAny_iff, or_assoc] at h
  by_cases hc : expr.ty.compatible want = true
  · exact ⟨expr, .fits hc⟩
  · exact ⟨_, .cast (Bool.eq_false_iff.mpr hc) (h.resolve_left hc)⟩

end Typed.Expr

namespace Source.Expr

variable {Γ : Context} {loc : Location} {demand : Demand} {t : Typed.Expr}

/-- An expression other than a table constructor is typed on its own and then held against the
demand. -/
theorem check_eq_bind (Γ : Context) {expr : Source.Expr} (demand : Demand)
    (h : expr.isInit = false) :
    check Γ expr demand = check Γ expr .results >>= demand.settle := by
  cases expr with
  | init => cases h
  | call callee args loc =>
    simp only [check, bind_assoc]
    congr 1
    funext found
    split <;> simp only [Demand.settle, bind_assoc, pure_bind]
  | field object key loc =>
    simp only [check]
    split <;> simp only [Demand.settle, bind_assoc, pure_bind]
  | _ => simp only [check, Demand.settle, bind_assoc, pure_bind]

theorem check_yields_iff {expr : Source.Expr} (h : expr.isInit = false) :
    (check Γ expr demand).Yields t ↔
      ∃ found, (check Γ expr .results).Yields found ∧ demand.Settles found t := by
  rw [check_eq_bind Γ demand h]
  simp only [Report.yields_bind, Demand.settle_yields_iff]

/-- A call whose callee has a known type. -/
theorem check_call_yields {callee : Source.Expr} {args : List Source.Expr}
    (hk : ∀ {found}, (check Γ callee .value).Yields found → found.ty.isUnknown = false)
    (h : (check Γ (.call callee args loc) demand).Yields t) :
    ∃ found params returns values, (check Γ callee .value).Yields found ∧
      found.ty = .function params returns ∧
        (checkValues Γ (fun i => .argument (i + 1)) args (params.map some) 0).Yields values ∧
          values.fits params.length = true ∧
            demand.Settles ⟨.call found values.exprs returns, returns.headD .nil, loc⟩ t := by
  simp only [check, Report.yields_bind] at h
  obtain ⟨found, hc, h⟩ := h
  replace hk := hk hc
  split at h
  · next params returns hty =>
    simp only [Report.yields_bind, Report.yields_require, Demand.settle_yields_iff] at h
    obtain ⟨values, hv, _, hf, hs⟩ := h
    exact ⟨found, params, returns, values, hc, hty, hv, hf, hs⟩
  · simp only [Report.yields_bind, Report.yields_require, hk, Bool.false_eq_true, false_and,
      exists_false] at h

/-- A table constructor for a wanted type, which is then an array, a table, a record or a module. -/
theorem check_init_yields {entries : List Entry}
    (hk : ∀ want, demand = .ofType want → want.ty.isUnknown = false)
    (h : (check Γ (.init entries loc) demand).Yields t) :
    ∃ want, demand = .ofType want ∧
      ((∃ elem items, want.ty = .array elem ∧ (checkItems Γ elem entries).Yields items ∧
          t = ⟨.arrayInit items, want.ty, loc⟩) ∨
        (∃ fields items, want.ty.fields? = some fields ∧
          (checkFields Γ want.ty fields entries []).Yields items ∧
            (requireFields want.ty loc (Entry.names entries) fields).Yields () ∧
              t = ⟨.tableInit items, want.ty, loc⟩) ∨
        ∃ fields, want.ty = .module fields ∧ entries = [] ∧ t = ⟨.moduleInit, want.ty, loc⟩) := by
  cases demand with
  | results => simp [check] at h
  | value => simp [check] at h
  | ofType want =>
    obtain ⟨target, site⟩ := want
    refine ⟨_, rfl, ?_⟩
    replace hk := hk _ rfl
    simp only [check] at h
    split at h
    · next elem =>
      simp only [Report.yields_bind, Report.yields_pure] at h
      obtain ⟨items, hi, rfl⟩ := h
      exact Or.inl ⟨elem, items, rfl, hi, rfl⟩
    · next fields =>
      simp only [Report.yields_bind, Report.yields_pure] at h
      obtain ⟨items, hi, _, hr, rfl⟩ := h
      exact Or.inr (Or.inl ⟨fields, items, rfl, hi, hr, rfl⟩)
    · next record fields =>
      simp only [Report.yields_bind, Report.yields_pure] at h
      obtain ⟨items, hi, _, hr, rfl⟩ := h
      exact Or.inr (Or.inl ⟨fields, items, rfl, hi, hr, rfl⟩)
    · next fields =>
      simp only [Report.yields_bind, Report.yields_require, Report.yields_pure,
        List.isEmpty_iff] at h
      obtain ⟨_, he, rfl⟩ := h
      exact Or.inr (Or.inr ⟨fields, rfl, he, rfl⟩)
    · simp [Ty.isUnknown] at hk
    · simp at h

end Source.Expr

end LuaTyping
