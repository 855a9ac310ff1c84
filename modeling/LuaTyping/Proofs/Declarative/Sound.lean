import LuaTyping.Proofs.Declarative.Parts
import LuaTyping.Proofs.Soundness.Values

/-!
# What is accepted has a type

An expression about which nothing wrong is found has the type that its check gives it, and one that
is accepted where a type is wanted fits there (`Expr.check_derives`).  Since no type in sight is
unknown, no fault is passed over because of another.
-/

namespace LuaTyping

open Typed (flatTypes)

variable {Γ : Context}

theorem Typed.Expr.Coerced.suits {want : Ty} {expr t : Typed.Expr}
    (he : expr.ty.proper true = true) (hw : want.proper true = true) (h : expr.Coerced want t) :
    expr.ty.Suits want :=
  (Ty.suits_iff_castable he hw).mpr h.castable

/-! ### The results of a call -/

theorem Want.at?_map_some {wanted : List Ty} {site : Nat → Site} {position j : Nat}
    (h : j < wanted.length) :
    Want.at? (wanted.map some) site position j = some ⟨wanted[j], site (position + j)⟩ :=
  Want.at?_eq_some_of (by simp [h])

/-- The results of a call, from one of them on, suit what is wanted of them. -/
theorem Typed.Expr.results_suit {loc : Location} {wanted : List Ty} {site : Nat → Site}
    {position : Nat} (hw : Known wanted) {tys : List Ty} {j : Nat} {values : List Typed.Expr}
    (htys : Known tys)
    (h : (results loc (Want.at? (wanted.map some) site position) j tys).Yields values)
    (hlen : values.length = (wanted.drop j).length) :
    List.Forall₂ Ty.Suits tys (wanted.drop j) := by
  induction tys generalizing j values with
  | nil =>
    rw [results, Report.yields_pure] at h
    rw [h] at hlen
    rw [List.eq_nil_of_length_eq_zero hlen.symm]
    exact .nil
  | cons ty rest ih =>
    simp only [results, Report.yields_bind, Report.yields_pure] at h
    obtain ⟨value, hv, values, hvs, rfl⟩ := h
    rw [Known.cons_iff] at htys
    have hj : j < wanted.length := by
      rw [List.length_cons, List.length_drop] at hlen
      omega
    rw [Want.at?_map_some hj, coerce?, coerce_yields_iff] at hv
    rw [List.drop_eq_getElem_cons hj] at hlen ⊢
    rw [List.length_cons, List.length_cons, Nat.add_right_cancel_iff] at hlen
    exact .cons (hv.suits htys.1 (hw _ (List.getElem_mem hj))) (ih htys.2 hvs hlen)

theorem Values.ofCall_suit {callee : Typed.Expr} {args : List Typed.Expr} {returns wanted : List Ty}
    {loc : Location} {site : Nat → Site} {position : Nat} {values : Values} (hr : Known returns)
    (hw : Known wanted)
    (h : (ofCall ⟨.call callee args returns, returns.headD .nil, loc⟩ (wanted.map some) site
      position).Yields values)
    (hlen : values.types.length = wanted.length) : List.Forall₂ Ty.Suits returns wanted := by
  rcases ofCall_cases h with ⟨rfl, rfl⟩ | ⟨ty, value, rfl, hv, rfl⟩ | ⟨results, -, hres, rfl⟩
  · rw [List.eq_nil_of_length_eq_zero hlen.symm]
    exact .nil
  · obtain ⟨want, rfl⟩ := List.length_eq_one_iff.mp hlen.symm
    rw [Want.at?_eq_some_of rfl, Typed.Expr.coerce?, Typed.Expr.coerce_yields_iff] at hv
    rw [Known.cons_iff] at hr hw
    exact .cons (hv.suits hr.1 hw.1) .nil
  · have hsuit := Typed.Expr.results_suit hw hr hres (by simpa using hlen)
    simpa using hsuit

/-! ### Expressions -/

namespace Source.Expr

/-- What is known about an expression from its checks. -/
structure Derives (Γ : Context) (expr : Source.Expr) : Prop where
  hasType : ∀ {t : Typed.Expr}, (check Γ expr .value).Yields t → expr.HasType Γ t.ty
  fits : ∀ {ty : Ty} {site : Site} {t : Typed.Expr}, ty.proper true = true →
    (check Γ expr (.ofType ⟨ty, site⟩)).Yields t → expr.Fits Γ ty

/-- An expression other than a table constructor is accepted where its type suits. -/
theorem Derives.of_hasType (hΓ : Known Γ.typesInSight) {expr : Source.Expr}
    (hi : expr.isInit = false)
    (h : ∀ {t : Typed.Expr}, (check Γ expr .value).Yields t → expr.HasType Γ t.ty) :
    Derives Γ expr where
  hasType := h
  fits := by
    intro ty site t hty ht
    obtain ⟨found, hf, hv, hc⟩ := (check_yields_iff hi).mp ht
    have hfound := h ((check_yields_iff hi).mpr ⟨found, hf, rfl, hv⟩)
    exact .value hfound (hc.suits (hfound.proper hΓ) hty)

/-- What is known about the arguments of a call from their check. -/
def ArgsDerive (Γ : Context) (args : List Source.Expr) : Prop :=
  ∀ {site : Nat → Site} {wanted : List Ty} {position : Nat} {values : Values}, Known wanted →
    (checkValues Γ site args (wanted.map some) position).Yields values →
      values.uncertain = false ∧ (values.types.length = wanted.length → ListFits Γ args wanted)

/-- A call has the results of its callee, which its arguments fit. -/
theorem check_call_derives (hΓ : Known Γ.typesInSight) {callee : Source.Expr}
    {args : List Source.Expr} {loc : Location} {demand : Demand} {t : Typed.Expr}
    (hcallee : Derives Γ callee) (hargs : ArgsDerive Γ args)
    (h : (check Γ (.call callee args loc) demand).Yields t) :
    ∃ params returns found values, callee.HasType Γ (.function params returns) ∧
      ListFits Γ args params ∧ Known returns ∧
        demand.Settles ⟨.call found values returns, returns.headD .nil, loc⟩ t := by
  obtain ⟨found, params, returns, values, hc, hty, hv, hf, hs⟩ :=
    check_call_yields (fun hc => Ty.not_isUnknown_of_proper ((hcallee.hasType hc).proper hΓ)) h
  have hfunction := hcallee.hasType hc
  rw [hty] at hfunction
  have hproper := hfunction.proper hΓ
  rw [Ty.proper_function_iff] at hproper
  obtain ⟨hcertain, hfit⟩ := hargs hproper.1 hv
  exact ⟨params, returns, found, values.exprs, hfunction,
    hfit (Values.length_of_fits hcertain hf), hproper.2, hs⟩

mutual

/-- **An expression about which nothing wrong is found has its type**, and fits where it is
accepted. -/
theorem check_derives (hΓ : Known Γ.typesInSight) : ∀ (expr : Source.Expr), Derives Γ expr
  | .nil _ | .boolean _ _ | .integer _ _ | .float _ _ | .string _ _ => by
    refine .of_hasType hΓ rfl fun h => ?_
    simp only [check, Demand.settle_yields_iff, Demand.Settles] at h
    rw [h.1]
    constructor
  | .init entries loc => by
    refine ⟨fun h => ?_, fun {ty site t} hty h => ?_⟩
    · simp [check] at h
    · have hk : ∀ want, Demand.ofType ⟨ty, site⟩ = .ofType want → want.ty.isUnknown = false := by
        rintro _ ⟨⟩
        exact Ty.not_isUnknown_of_proper hty
      obtain ⟨_, ⟨⟩, ⟨elem, items, rfl, hitems, -⟩ | ⟨fields, items, hf, hitems, hr, -⟩ |
        ⟨fields, rfl, rfl, -⟩⟩ := check_init_yields hk h
      · rw [Ty.proper] at hty
        exact .array (checkItems_fit hΓ hty entries hitems)
      -- the names that the check keeps are those of the entries
      · obtain ⟨hkeys, hnodup, -⟩ := checkFields_keys hitems
        rw [hkeys] at hnodup
        have hproper := Ty.proper_of_fields? hty hf
        exact .table hf (checkFields_fit hΓ hproper entries hitems) hnodup (requireFields_yields hr)
      · exact .module
  | .name text loc => by
    refine .of_hasType hΓ rfl fun h => ?_
    simp only [check, Report.yields_bind, Demand.settle_yields_iff, Demand.Settles] at h
    obtain ⟨_, hn, rfl, -⟩ := h
    rcases Context.nameExpr_yields hn with ⟨ty, site, hl, rfl⟩ | ⟨ty, site, kind, -, hl, rfl⟩ |
      ⟨ty, hl, rfl⟩
    · exact .var (Scopes.lookup_eq_var_iff.mp hl)
    · exact .var (Scopes.lookup_eq_var_iff.mp hl)
    · obtain ⟨hv, hb⟩ := Scopes.lookup_eq_builtin_iff.mp hl
      exact .builtin hv hb
  | .index object key loc => by
    refine .of_hasType hΓ rfl fun h => ?_
    simp only [check, Report.yields_bind, Demand.settle_yields_iff, Demand.Settles] at h
    obtain ⟨array, ho, elem, he, key', hkey, rfl, -⟩ := h
    have hobject := (check_derives hΓ object).hasType ho
    rw [Ty.element_yields (Ty.not_isUnknown_of_proper (hobject.proper hΓ)) he] at hobject
    exact .index hobject ((check_derives hΓ key).fits rfl hkey)
  | .field object key loc => by
    refine .of_hasType hΓ rfl fun h => ?_
    simp only [check] at h
    split at h
    · next library members hl =>
      simp only [Typed.Expr.ofMember, Report.yields_bind, Report.yields_orUnknown,
        Report.yields_pure, Demand.settle_yields_iff, Demand.Settles] at h
      obtain ⟨_, ⟨ty, hm, rfl⟩, rfl, -⟩ := h
      obtain ⟨⟨site, rfl⟩, hlookup⟩ := Context.library?_eq_some_iff.mp hl
      obtain ⟨hv, hb⟩ := Scopes.lookup_eq_library_iff.mp hlookup
      exact .member hv hb hm
    · simp only [Report.yields_bind, Demand.settle_yields_iff, Demand.Settles] at h
      obtain ⟨object', ho, _, hf, rfl, -⟩ := h
      have hobject := (check_derives hΓ object).hasType ho
      rcases Context.fieldExpr_yields (Ty.not_isUnknown_of_proper (hobject.proper hΓ)) hf with
        ⟨fields, ty, hfields, hl, rfl⟩ | ⟨fields, declared, hty, hl, rfl⟩
      · exact .field hobject hfields hl
      · rw [hty] at hobject
        exact .moduleField hobject hl
  | .call callee args loc => by
    refine .of_hasType hΓ rfl fun h => ?_
    obtain ⟨params, returns, found, values, hcallee, hfit, -, rfl, hvoid⟩ :=
      check_call_derives hΓ (check_derives hΓ callee) (checkValues_derive hΓ args) h
    cases returns with
    | nil => cases hvoid
    | cons ty rest => exact .call hcallee hfit
  | .unary op operand loc => by
    refine .of_hasType hΓ rfl fun h => ?_
    simp only [check, Report.yields_bind, Demand.settle_yields_iff, Demand.Settles] at h
    obtain ⟨operand', ho, _, hu, rfl, -⟩ := h
    have hoperand := (check_derives hΓ operand).hasType ho
    have hk := Ty.not_isUnknown_of_proper (hoperand.proper hΓ)
    exact .unary hoperand ((Typed.Expr.unary_yields_iff hk).mp ⟨_, hu, rfl⟩)
  | .binary left op right loc => by
    refine .of_hasType hΓ rfl fun h => ?_
    simp only [check, Report.yields_bind, Demand.settle_yields_iff, Demand.Settles] at h
    obtain ⟨left', hl, right', hr, _, hb, rfl, -⟩ := h
    have hleft := (check_derives hΓ left).hasType hl
    have hright := (check_derives hΓ right).hasType hr
    have hkl := Ty.not_isUnknown_of_proper (hleft.proper hΓ)
    have hkr := Ty.not_isUnknown_of_proper (hright.proper hΓ)
    exact .binary hleft hright ((Typed.Expr.binary_yields_iff hkl hkr).mp ⟨_, hb, rfl⟩)
  | .cast expr target loc => by
    refine .of_hasType hΓ rfl fun h => ?_
    simp only [check, Report.yields_bind, Report.yields_require, Demand.settle_yields_iff,
      Demand.Settles, TypeExpr.resolve_yields_iff] at h
    obtain ⟨expr', he, ty, hty, _, hcast, rfl, -⟩ := h
    have hexpr := (check_derives hΓ expr).hasType he
    have hproper := hty.proper fun _ _ => Context.typeName_proper hΓ
    exact .cast hexpr hty ((Ty.suits_iff_castable (hexpr.proper hΓ) hproper).mpr hcast)
  | .paren expr loc => by
    refine .of_hasType hΓ rfl fun h => ?_
    simp only [check, Report.yields_bind, Demand.settle_yields_iff, Demand.Settles] at h
    obtain ⟨expr', he, rfl, -⟩ := h
    have hexpr := (check_derives hΓ expr).hasType he
    exact .paren hexpr

/-- The number of values is certain, and if it is the number of types that are wanted, the values
fit. -/
theorem checkValues_derive (hΓ : Known Γ.typesInSight) :
    ∀ (exprs : List Source.Expr), ArgsDerive Γ exprs
  | [], site, wanted, position, values, _, h => by
    rw [checkValues, Report.yields_pure] at h
    rw [h]
    refine ⟨rfl, fun hlen => ?_⟩
    rw [List.eq_nil_of_length_eq_zero hlen.symm]
    exact .nil
  | expr :: rest, site, wanted, position, values, hw, h => by
    rcases checkValues_cons_yields h with ⟨call, rfl, hcall, hc, hv⟩ |
      ⟨value, values', hlast, hv, hvs, rfl⟩
    -- a call at the end is asked for its results and not for a value, so it is taken apart here
    · cases expr with
      | call callee args loc =>
        obtain ⟨params, returns, found, typed, hcallee, hfit, hknown, hs⟩ :=
          check_call_derives hΓ (check_derives hΓ callee) (checkValues_derive hΓ args) hc
        rw [Demand.Settles] at hs
        subst hs
        refine ⟨?_, fun hlen => .call hcallee hfit (Values.ofCall_suit hknown hw hv hlen)⟩
        have hwanted : ∀ ty, some ty ∈ wanted.map some → ty.proper true = true :=
          fun ty hty => hw ty (by simpa using hty)
        exact (Values.ofCall_proper (Typed.Expr.forall_ownTypes_call hknown) hwanted hv).1
      | _ => cases hcall
    · rw [← List.map_tail] at hvs
      obtain ⟨hcertain, hrest⟩ :=
        checkValues_derive hΓ rest (fun ty hty => hw ty (List.mem_of_mem_tail hty)) hvs
      refine ⟨hcertain, fun hlen => ?_⟩
      cases wanted with
      | nil => cases hlen
      | cons want wants =>
        rw [Known.cons_iff] at hw
        exact .cons hlast ((check_derives hΓ expr).fits hw.1 hv) (hrest (Nat.succ.inj hlen))

theorem checkItems_fit (hΓ : Known Γ.typesInSight) {elem : Ty} (hw : elem.proper true = true) :
    ∀ (entries : List Entry) {items : List Typed.Expr},
      (checkItems Γ elem entries).Yields items → ItemsFit Γ elem entries
  | [], _, _ => .nil
  | .positional value :: rest, items, h => by
    simp only [checkItems, Report.yields_bind] at h
    obtain ⟨_, hv, _, hr, -⟩ := h
    exact .cons ((check_derives hΓ value).fits hw hv) (checkItems_fit hΓ hw rest hr)
  | .named key value loc :: rest, items, h => by simp [checkItems] at h

theorem checkFields_fit (hΓ : Known Γ.typesInSight) {target : Ty} {fields : NameMap Ty}
    (hf : Ty.properFields true fields = true) :
    ∀ (entries : List Entry) {seen : List String} {items : List (String × Typed.Expr)},
      (checkFields Γ target fields entries seen).Yields items → FieldsFit Γ fields entries
  | [], _, _, _ => .nil
  | .positional value :: rest, _, _, h => by simp [checkFields] at h
  | .named key value loc :: rest, seen, items, h => by
    rw [checkFields] at h
    split_ifs at h
    · simp at h
    · split at h
      · next ty hl =>
        simp only [Report.yields_bind] at h
        obtain ⟨_, hv, _, hr, -⟩ := h
        exact .cons hl ((check_derives hΓ value).fits (Ty.proper_of_lookup hf hl) hv)
          (checkFields_fit hΓ hf rest hr)
      · simp at h

end

end Source.Expr

end LuaTyping
