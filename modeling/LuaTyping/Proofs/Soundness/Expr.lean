import LuaTyping.Proofs.Soundness.Values

/-!
# Checked expressions are well typed

An expression that is checked in a proper context without module types is well typed in the
environment of the context (`check_results`), and so is a list of expressions
(`checkValues_values`).
-/

namespace LuaTyping

open Typed (Env flatTypes)

variable {modules : Bool} {Γ : Context} {E : Env}

/-! ### Expressions -/

/-- A value, or a call with any number of results. -/
def Typed.Env.Results (E : Env) (expr : Typed.Expr) : Prop :=
  E.Value expr ∨ E.Call expr

theorem Typed.Env.Results.value {expr : Typed.Expr} (h : E.Results expr)
    (hv : expr.isVoid = false) : E.Value expr := by
  rcases h with h | h
  · exact h
  · refine .call h ?_
    cases h with
    | @intro _ _ _ returns =>
      cases returns with
      | nil => cases hv
      | cons _ _ => simp [Typed.Expr.valueTypes]

theorem Typed.Env.Results.toCall {expr : Typed.Expr} (h : E.Results expr)
    (hc : expr.isCall = true) : E.Call expr := by
  rcases h with h | h
  · cases h with
    | call h _ => exact h
    | _ => cases hc
  · exact h

theorem Demand.Settles.results {demand : Demand} {found t : Typed.Expr}
    (hd : demand.Proper modules) (hf : found.ty.proper true = true) (h : demand.Settles found t)
    (hr : E.Results found) : E.Results t := by
  cases demand with
  | results => rwa [h]
  | value => rwa [h.1]
  | ofType want =>
    obtain ⟨hv, hc⟩ := h
    cases hc with
    | fits _ => exact hr
    | cast hn hany =>
      have hconv := Ty.converts_of_not_compatible hf (Ty.proper_true hd) hn hany
      exact Or.inl (.implicitCast (hr.value hv) hconv)

theorem Typed.Expr.Floated.value {expr t : Typed.Expr} (h : Floated expr t) (hv : E.Value expr) :
    E.Value t := by
  rcases h with rfl | ⟨hty, rfl⟩
  · exact hv
  · exact .toFloat hv hty

namespace Source.Expr

/-- An expression other than a constructor is well typed if it is before its demand is settled. -/
theorem results_of_found (hΓ : Γ.Proper modules) {expr : Source.Expr} {demand : Demand}
    {t : Typed.Expr} (hi : expr.isInit = false) (hd : demand.Proper modules)
    (h : (check Γ expr demand).Yields t)
    (hk : ∀ found, (check Γ expr .results).Yields found → E.Results found) : E.Results t := by
  obtain ⟨found, hf, hs⟩ := (check_yields_iff hi).mp h
  have hty := check_proper hΓ Demand.proper_results hf _ List.mem_cons_self
  exact hs.results hd hty.known (hk found hf)

theorem check_field_results (hΓ : Γ.Proper false) {object : Source.Expr} {key : String}
    {loc : Location} {typed found : Typed.Expr} (ho : (check Γ object .value).Yields typed)
    (hv : Γ.env.Value typed) (h : (Γ.fieldExpr typed key loc).Yields found) :
    Γ.env.Value found := by
  have hat := check_proper hΓ Demand.proper_value ho _ List.mem_cons_self
  rcases Context.fieldExpr_yields (Ty.not_isUnknown_of_properAt hat) h with
    ⟨fields, ty, hfs, hl, rfl⟩ | ⟨fields, declared, hm, hl, rfl⟩
  · exact .field hv hfs hl
  · -- only the module variable has a module type here
    rcases hat with hp | ⟨-, name, -, hname⟩
    · rw [hm] at hp
      cases hp
    · have hmodule := hΓ.hasModule hname
      rw [show Γ.module.name?.getD "" = name by rw [show Γ.module.name? = some name from hmodule.1]; rfl]
      exact .moduleField hmodule (by simp [Context.env, hl])

mutual

/-- **Expressions are well typed.** -/
theorem check_results (hΓ : Γ.Proper false) : ∀ {expr : Source.Expr} {demand : Demand}
    {t : Typed.Expr}, demand.Proper false → (check Γ expr demand).Yields t → Γ.env.Results t
  | .nil _, demand, t, hd, h | .boolean _ _, demand, t, hd, h | .integer _ _, demand, t, hd, h
  | .float _ _, demand, t, hd, h | .string _ _, demand, t, hd, h => by
    refine results_of_found hΓ rfl hd h fun found hf => ?_
    simp only [check, Demand.settle, Report.yields_pure] at hf
    rw [hf]
    left
    constructor
  | .init entries loc, demand, t, hd, h => by
    have hk : ∀ want, demand = .ofType want → want.ty.isUnknown = false := by
      rintro want rfl
      exact Ty.not_isUnknown_of_proper hd
    obtain ⟨want, rfl, ⟨elem, items, hw, hi, rfl⟩ | ⟨fields, items, hw, hi, hr, rfl⟩ |
      ⟨fields, hw, -, rfl⟩⟩ := check_init_yields hk h
    · have he : elem.proper false = true := by simpa [Demand.Proper, hw, Ty.proper] using hd
      rw [hw]
      exact Or.inl (.arrayInit (checkItems_elements hΓ he hi))
    · obtain ⟨hkeys, hnodup, -⟩ := checkFields_keys hi
      refine Or.inl (.tableInit hw (checkFields_entries hΓ (Ty.proper_of_fields? hd hw) hi) hnodup ?_)
      rw [hkeys]
      exact requireFields_yields hr
    · rw [Demand.Proper, hw] at hd
      cases hd
  | .name text loc, demand, t, hd, h => by
    refine results_of_found hΓ rfl hd h fun found hf => ?_
    simp only [check, Demand.settle, Report.yields_bind, Report.yields_pure, exists_eq_right'] at hf
    rcases Context.nameExpr_yields hf with ⟨ty, site, hl, rfl⟩ | ⟨ty, site, kind, hk, hl, rfl⟩ |
      ⟨ty, hl, rfl⟩
    · exact Or.inl (.innerVar (Context.env_vars_of_var hl))
    · exact Or.inl (.toplevel (Context.env_vars_of_var hl) hk)
    · obtain ⟨hv, hb⟩ := Context.env_vars_of_builtin hl
      exact Or.inl (.builtin hv hb)
  | .index object key loc, demand, t, hd, h => by
    refine results_of_found hΓ rfl hd h fun found hf => ?_
    simp only [check, Demand.settle, Report.yields_bind, Report.yields_pure] at hf
    obtain ⟨array, ha, elem, he, key', hk, rfl⟩ := hf
    have hat := check_proper hΓ Demand.proper_value ha _ List.mem_cons_self
    have harray := (check_results hΓ Demand.proper_value ha).value (check_not_isVoid ha nofun)
    have hkey := (check_results hΓ (Demand.proper_ofType rfl) hk).value (check_not_isVoid hk nofun)
    refine Or.inl (.index harray (Ty.element_yields (Ty.not_isUnknown_of_properAt hat) he) hkey ?_)
    exact (check_agrees hΓ rfl hk).eq_of_isNumeric rfl
  | .field object key loc, demand, t, hd, h => by
    refine results_of_found hΓ rfl hd h fun found hf => ?_
    simp only [check, Demand.settle] at hf
    split at hf
    · next library members hlib =>
      obtain ⟨-, hl⟩ := Context.library?_eq_some_iff.mp hlib
      simp only [Typed.Expr.ofMember, Report.yields_bind, Report.yields_orUnknown,
        Report.yields_pure] at hf
      obtain ⟨_, ⟨ty, hm, rfl⟩, rfl⟩ := hf
      obtain ⟨hv, hmember⟩ := Context.env_vars_of_library hl key
      exact Or.inl (.libraryField hv (hmember.trans hm))
    · simp only [Report.yields_bind, Report.yields_pure] at hf
      obtain ⟨object', ho, _, hf, rfl⟩ := hf
      have hv := (check_results hΓ Demand.proper_value ho).value (check_not_isVoid ho nofun)
      exact Or.inl (check_field_results hΓ ho hv hf)
  | .call callee args loc, demand, t, hd, h => by
    refine results_of_found hΓ rfl hd h fun found hf => ?_
    have hat : ∀ {found}, (check Γ callee .value).Yields found →
        Γ.ProperAt false callee found.ty :=
      fun hc => check_proper hΓ Demand.proper_value hc _ List.mem_cons_self
    obtain ⟨callee', params, returns, values, hc, hty, hv, hfit, hs⟩ :=
      check_call_yields (fun hc => Ty.not_isUnknown_of_properAt (hat hc)) hf
    have hcallee := (check_results hΓ Demand.proper_value hc).value (check_not_isVoid hc nofun)
    have hparams : ∀ ty, some ty ∈ params.map some → ty.proper false = true := by
      have hp := hat hc
      rw [hty] at hp
      simpa using hp.function.1
    obtain ⟨hu, -⟩ := checkValues_proper hΓ hparams hv
    have hmeets := checkValues_meets hΓ hparams hv
    rw [checkValues_flatTypes hv] at hmeets
    have hlen := Values.length_of_fits hu hfit
    rw [checkValues_flatTypes hv] at hlen
    rw [hs]
    exact Or.inr (.intro hcallee hty (checkValues_values hΓ hparams hv) (hmeets.forall₂ hlen))
  | .unary op operand loc, demand, t, hd, h => by
    refine results_of_found hΓ rfl hd h fun found hf => ?_
    simp only [check, Demand.settle, Report.yields_bind, Report.yields_pure] at hf
    obtain ⟨operand', ho, _, hu, rfl⟩ := hf
    have hat := check_proper hΓ Demand.proper_value ho _ List.mem_cons_self
    have hv := (check_results hΓ Demand.proper_value ho).value (check_not_isVoid ho nofun)
    obtain ⟨_, rfl, htypes⟩ := Typed.Expr.unary_yields (Ty.not_isUnknown_of_properAt hat) hu
    exact Or.inl (.unary hv htypes)
  | .binary left op right loc, demand, t, hd, h => by
    refine results_of_found hΓ rfl hd h fun found hf => ?_
    simp only [check, Demand.settle, Report.yields_bind, Report.yields_pure] at hf
    obtain ⟨left', hl, right', hr, _, hb, rfl⟩ := hf
    have hlt := check_proper hΓ Demand.proper_value hl _ List.mem_cons_self
    have hrt := check_proper hΓ Demand.proper_value hr _ List.mem_cons_self
    have hlv := (check_results hΓ Demand.proper_value hl).value (check_not_isVoid hl nofun)
    have hrv := (check_results hΓ Demand.proper_value hr).value (check_not_isVoid hr nofun)
    obtain ⟨_, _, _, rfl, hfl, hfr, htypes⟩ := Typed.Expr.binary_yields
      (Ty.not_isUnknown_of_properAt hlt) (Ty.not_isUnknown_of_properAt hrt) hb
    exact Or.inl (.binary (hfl.value hlv) (hfr.value hrv) htypes)
  | .cast expr target loc, demand, t, hd, h => by
    refine results_of_found hΓ rfl hd h fun found hf => ?_
    simp only [check, Demand.settle, Report.yields_bind, Report.yields_require,
      Report.yields_pure] at hf
    obtain ⟨expr', he, ty, ht, _, hcast, rfl⟩ := hf
    have hat := check_proper hΓ Demand.proper_value he _ List.mem_cons_self
    have hty := TypeExpr.resolve_proper (fun _ _ => hΓ.typeName) ht
    have hv := (check_results hΓ Demand.proper_value he).value (check_not_isVoid he nofun)
    refine Or.inl (.explicitCast hv ?_)
    simp only [Ty.castable, Bool.or_eq_true, Ty.isAny_iff, or_assoc] at hcast
    exact hcast.imp_left (Ty.agrees_of_compatible hat.known (Ty.proper_true hty))
  | .paren expr loc, demand, t, hd, h => by
    refine results_of_found hΓ rfl hd h fun found hf => ?_
    simp only [check, Demand.settle, Report.yields_bind, Report.yields_pure] at hf
    obtain ⟨expr', he, rfl⟩ := hf
    have hv := (check_results hΓ Demand.proper_value he).value (check_not_isVoid he nofun)
    exact Or.inl (.paren hv)

/-- **Lists of expressions are well typed.** -/
theorem checkValues_values (hΓ : Γ.Proper false) {site : Nat → Site} :
    ∀ {exprs : List Source.Expr} {expected : List (Option Ty)} {position : Nat} {values : Values},
      (∀ ty, some ty ∈ expected → ty.proper false = true) →
        (checkValues Γ site exprs expected position).Yields values → Γ.env.Values values.exprs
  | [], _, _, values, _, h => by
    rw [checkValues, Report.yields_pure] at h
    rw [h]
    exact .nil
  | expr :: rest, expected, position, values, he, h => by
    rcases checkValues_cons_yields h with ⟨call, rfl, hcall, hc, hv⟩ |
      ⟨value, values', hlast, hv, hvs, rfl⟩
    · have hr := check_results hΓ Demand.proper_results hc
      obtain ⟨_, _, returns, _, rfl⟩ := check_call_form hcall hc
      refine Values.ofCall_values hv (fun ty hty => ?_) (fun ty hty => Ty.proper_true (he ty hty))
        (hr.toCall rfl)
      exact Ty.proper_true (check_call_proper hΓ hcall hc ty (List.mem_cons_of_mem _ hty))
    · have hne : Demand.ofWant (Want.at? expected site position 0) ≠ .results := by
        cases Want.at? expected site position 0 <;> nofun
      have hvalue := (check_results hΓ (Demand.proper_ofWant_at he) hv).value
        (check_not_isVoid hv hne)
      have hrest := checkValues_values hΓ (fun ty hty => he ty (List.mem_of_mem_tail hty)) hvs
      have hlen := checkValues_length hvs
      cases rest with
      | nil =>
        have hnil : values'.exprs = [] := List.eq_nil_of_length_eq_zero hlen
        rw [Values.cons, hnil]
        exact .one hvalue (valueTypes_of_not_isCall (hlast rfl) hv)
      | cons next rest =>
        obtain ⟨first, others, hcons⟩ := List.exists_cons_of_length_eq_add_one hlen
        rw [Values.cons, hcons]
        rw [hcons] at hrest
        exact .cons hvalue hrest

theorem checkItems_elements (hΓ : Γ.Proper false) {elem : Ty} (he : elem.proper false = true) :
    ∀ {entries : List Entry} {items : List Typed.Expr}, (checkItems Γ elem entries).Yields items →
      Γ.env.Elements elem items
  | [], items, h => by
    rw [checkItems, Report.yields_pure] at h
    rw [h]
    exact .nil
  | .positional value :: rest, items, h => by
    simp only [checkItems, Report.yields_bind, Report.yields_pure] at h
    obtain ⟨value', hv, values, hvs, rfl⟩ := h
    exact .cons ((check_results hΓ (Demand.proper_ofType he) hv).value (check_not_isVoid hv nofun))
      (check_agrees hΓ he hv) (checkItems_elements hΓ he hvs)
  | .named _ _ _ :: rest, items, h => by simp [checkItems] at h

theorem checkFields_entries (hΓ : Γ.Proper false) {target : Ty} {fields : NameMap Ty}
    (hp : Ty.properFields false fields = true) : ∀ {entries : List Entry} {seen : List String}
      {items : List (String × Typed.Expr)}, (checkFields Γ target fields entries seen).Yields items →
        Γ.env.Entries fields items
  | [], _, items, h => by
    rw [checkFields, Report.yields_pure] at h
    rw [h]
    exact .nil
  | .positional _ :: rest, seen, items, h => by simp [checkFields] at h
  | .named key value loc :: rest, seen, items, h => by
    rw [checkFields] at h
    split_ifs at h
    · simp at h
    · split at h
      · next ty hl =>
        simp only [Report.yields_bind, Report.yields_pure] at h
        obtain ⟨value', hv, values, hvs, rfl⟩ := h
        have hty := Ty.proper_of_lookup hp hl
        exact .cons hl
          ((check_results hΓ (Demand.proper_ofType hty) hv).value (check_not_isVoid hv nofun))
          (check_agrees hΓ hty hv) (checkFields_entries hΓ hp hvs)
      · simp at h

end

/-- Where one value is asked for, there is one. -/
theorem check_value (hΓ : Γ.Proper false) {expr : Source.Expr} {t : Typed.Expr}
    (h : (check Γ expr .value).Yields t) : Γ.env.Value t :=
  (check_results hΓ Demand.proper_value h).value (check_not_isVoid h (by simp))

theorem check_ofType_value (hΓ : Γ.Proper false) {expr : Source.Expr} {t : Typed.Expr} {want : Want}
    (hw : want.ty.proper false = true) (h : (check Γ expr (.ofType want)).Yields t) :
    Γ.env.Value t :=
  (check_results hΓ (Demand.proper_ofType hw) h).value (check_not_isVoid h (by simp))

end Source.Expr

end LuaTyping
