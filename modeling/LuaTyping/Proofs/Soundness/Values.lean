import LuaTyping.Proofs.Soundness.Env
import LuaTyping.Proofs.Typing.Values

/-!
# The types of checked values

A value that was wanted of a type has a type that agrees with it (`check_agrees`).  For a list of
expressions, each gives one typed expression (`checkValues_length`), the types of the values are
those that the typed list shows (`checkValues_flatTypes`), and they agree with what was expected
(`checkValues_meets`).
-/

namespace LuaTyping

open Typed (Env flatTypes)

variable {modules : Bool} {Γ : Context} {E : Env}

/-! ### Agreement of types -/

namespace Ty

theorem agrees_of_compatible {found wanted : Ty} (hf : found.proper true = true)
    (hw : wanted.proper true = true) (h : found.compatible wanted = true) :
    found.Agrees wanted := by
  rw [compatible_eq_same hf hw] at h
  exact Or.inr h

theorem converts_of_not_compatible {found wanted : Ty} (hf : found.proper true = true)
    (hw : wanted.proper true = true) (h : found.compatible wanted = false)
    (hany : found = .any ∨ wanted = .any) : found.Converts wanted := by
  rw [compatible_eq_same hf hw] at h
  exact ⟨h, hany⟩

theorem Agrees.eq_boolean {ty : Ty} (h : ty.Agrees .boolean) : ty = .boolean := by
  rcases h with h | h
  · exact h
  · cases ty <;> simp [same] at h ⊢

theorem Agrees.eq_of_isNumeric {ty wanted : Ty} (hw : wanted.isNumeric = true)
    (h : ty.Agrees wanted) : ty = wanted := by
  rcases h with h | h
  · exact h
  · rcases isNumeric_iff.mp hw with rfl | rfl <;> cases ty <;> simp [same] at h ⊢

end Ty

theorem Typed.Expr.Coerced.agrees {want : Ty} {expr t : Typed.Expr}
    (he : expr.ty.proper true = true) (hw : want.proper true = true) (h : expr.Coerced want t) :
    t.ty.Agrees want := by
  cases h with
  | fits h => exact Ty.agrees_of_compatible he hw h
  | cast _ _ => exact Or.inl rfl

theorem Typed.Expr.coerce?_agrees {expr t : Typed.Expr} {want : Option Want}
    (he : expr.ty.proper true = true) (hw : ∀ w ∈ want, w.ty.proper true = true)
    (h : (expr.coerce? want).Yields t) : ∀ w ∈ want, t.ty.Agrees w.ty := by
  rintro w rfl
  rw [coerce?, coerce_yields_iff] at h
  exact h.agrees he (hw w rfl)

namespace Source.Expr

variable {expr : Source.Expr} {demand : Demand} {t : Typed.Expr}

/-- A value that was wanted of a type has a type that agrees with it. -/
theorem check_agrees (hΓ : Γ.Proper modules) {want : Want} (hw : want.ty.proper modules = true)
    (h : (check Γ expr (.ofType want)).Yields t) : t.ty.Agrees want.ty := by
  cases hi : expr.isInit with
  | true =>
    cases expr <;> simp only [isInit, Bool.false_eq_true] at hi
    have hk : ∀ want', Demand.ofType want = .ofType want' → want'.ty.isUnknown = false := by
      rintro _ ⟨⟩
      exact Ty.not_isUnknown_of_proper hw
    obtain ⟨_, ⟨⟩, ⟨_, _, _, _, rfl⟩ | ⟨_, _, _, _, _, rfl⟩ | ⟨_, _, _, rfl⟩⟩ :=
      check_init_yields hk h <;> exact Or.inl rfl
  | false =>
    obtain ⟨found, hf, -, hc⟩ := (check_yields_iff hi).mp h
    have hat := check_proper hΓ Demand.proper_results hf _ List.mem_cons_self
    exact hc.agrees hat.known (Ty.proper_true hw)

/-- Where one value is asked for, the result is no call without results. -/
theorem check_not_isVoid (h : (check Γ expr demand).Yields t) (hd : demand ≠ .results) :
    t.isVoid = false := by
  cases hi : expr.isInit with
  | true =>
    cases expr <;> simp only [isInit, Bool.false_eq_true] at hi
    cases demand with
    | results => exact absurd rfl hd
    | value => simp [check] at h
    | ofType want =>
      obtain ⟨target, site⟩ := want
      simp only [check] at h
      split at h <;> simp at h
      · obtain ⟨_, -, rfl⟩ := h
        rfl
      · obtain ⟨_, -, _, -, rfl⟩ := h
        rfl
      · obtain ⟨_, -, _, -, rfl⟩ := h
        rfl
      · obtain ⟨-, rfl⟩ := h
        rfl
      · rw [h]
        rfl
  | false =>
    obtain ⟨found, -, hs⟩ := (check_yields_iff hi).mp h
    cases demand with
    | results => exact absurd rfl hd
    | value => rw [hs.1, hs.2]
    | ofType want =>
      obtain ⟨hv, hc⟩ := hs
      cases hc with
      | fits _ => exact hv
      | cast _ _ => rfl

/-- A call has the type of its first result. -/
theorem check_call_form (hc : expr.isCall = true) (h : (check Γ expr .results).Yields t) :
    ∃ callee args returns loc, t = ⟨.call callee args returns, returns.headD .nil, loc⟩ := by
  cases expr <;> simp only [isCall, Bool.false_eq_true] at hc
  simp only [check, Demand.settle, Report.yields_bind] at h
  obtain ⟨callee, -, h⟩ := h
  split at h <;> simp only [Report.yields_bind, Report.yields_pure] at h
  · obtain ⟨_, -, _, -, rfl⟩ := h
    exact ⟨_, _, _, _, rfl⟩
  · obtain ⟨_, -, _, -, rfl⟩ := h
    exact ⟨_, _, _, _, rfl⟩

end Source.Expr

/-! ### Lists of values -/

/-- Each type agrees with what is expected at its place, where something is. -/
def Ty.Meets : List Ty → List (Option Ty) → Prop
  | [], _ | _, [] => True
  | ty :: tys, want :: wants => (∀ w ∈ want, ty.Agrees w) ∧ Meets tys wants

theorem Ty.Meets.forall₂ : ∀ {tys wants : List Ty}, Meets tys (wants.map some) →
    tys.length = wants.length → List.Forall₂ Ty.Agrees tys wants
  | [], [], _, _ => .nil
  | ty :: tys, want :: wants, h, hlen => by
    obtain ⟨hty, hrest⟩ := h
    exact .cons (hty want rfl) (hrest.forall₂ (by simpa using hlen))

theorem Ty.meets_cons {ty : Ty} {tys : List Ty} {wants : List (Option Ty)}
    (hty : ∀ w, wants.head? = some (some w) → ty.Agrees w) (h : Meets tys wants.tail) :
    Meets (ty :: tys) wants := by
  cases wants with
  | nil => trivial
  | cons want wants =>
    refine ⟨?_, h⟩
    rintro w rfl
    exact hty w rfl

namespace Typed.Expr

/-- The results of a call agree with what is expected of them. -/
theorem results_meets {loc : Location} {want : Nat → Option Want} {expected : List (Option Ty)}
    (hwant : ∀ j w, expected[j]? = some (some w) → ∃ site, want j = some ⟨w, site⟩)
    (hw : ∀ j w, want j = some w → w.ty.proper true = true) : ∀ {tys : List Ty} {position : Nat}
      {values : List Expr}, (∀ ty ∈ tys, ty.proper true = true) →
        (results loc want position tys).Yields values →
          Ty.Meets (values.map (·.ty)) (expected.drop position)
  | [], position, values, _, h => by
    rw [results, Report.yields_pure] at h
    simp [h, Ty.Meets]
  | ty :: rest, position, values, ht, h => by
    simp only [results, Report.yields_bind, Report.yields_pure] at h
    obtain ⟨value, hv, values, hvs, rfl⟩ := h
    rw [List.forall_mem_cons] at ht
    rw [List.map_cons]
    refine Ty.meets_cons (fun w hhead => ?_) ?_
    · rw [List.head?_drop] at hhead
      obtain ⟨site, hsite⟩ := hwant position w hhead
      exact coerce?_agrees ht.1 (hw position) hv _ hsite
    · rw [List.tail_drop]
      exact results_meets hwant hw ht.2 hvs

/-- Spread results, each as it is or converted. -/
theorem results_spread {loc : Location} {want : Nat → Option Want}
    (hw : ∀ j w, want j = some w → w.ty.proper true = true) : ∀ {tys : List Ty} {position : Nat}
      {values : List Expr}, (∀ ty ∈ tys, ty.proper true = true) →
        (results loc want position tys).Yields values → Env.Spread position tys values
  | [], position, values, _, h => by
    rw [results, Report.yields_pure] at h
    rw [h]
    exact .nil
  | ty :: rest, position, values, ht, h => by
    simp only [results, Report.yields_bind, Report.yields_pure] at h
    obtain ⟨value, hv, values, hvs, rfl⟩ := h
    rw [List.forall_mem_cons] at ht
    have hrest := results_spread hw ht.2 hvs
    cases hwant : want position with
    | none =>
      rw [hwant, coerce?, Report.yields_pure] at hv
      rw [hv]
      exact .result hrest
    | some w =>
      rw [hwant, coerce?, coerce_yields_iff] at hv
      cases hv with
      | fits _ => exact .result hrest
      | cast hn hany =>
        exact .cast (Ty.converts_of_not_compatible ht.1 (hw position w hwant) hn hany) hrest

end Typed.Expr

theorem Typed.Expr.coerce?_valueTypes {expr t : Typed.Expr} {want : Option Want}
    (he : expr.valueTypes = [expr.ty]) (h : (expr.coerce? want).Yields t) :
    t.valueTypes = [t.ty] := by
  cases want with
  | none =>
    rw [coerce?, Report.yields_pure] at h
    rwa [h]
  | some w =>
    rw [coerce?, coerce_yields_iff] at h
    cases h with
    | fits _ => exact he
    | cast _ _ => rfl

theorem Typed.Expr.coerce?_value {expr t : Typed.Expr} {want : Option Want}
    (he : expr.ty.proper true = true) (hw : ∀ w, want = some w → w.ty.proper true = true)
    (h : (expr.coerce? want).Yields t) (hv : E.Value expr) : E.Value t := by
  cases want with
  | none =>
    rw [coerce?, Report.yields_pure] at h
    rwa [h]
  | some w =>
    rw [coerce?, coerce_yields_iff] at h
    cases h with
    | fits _ => exact hv
    | cast hn hany =>
      exact .implicitCast hv (Ty.converts_of_not_compatible he (hw w rfl) hn hany)

theorem Want.at?_eq_some_of {expected : List (Option Ty)} {site : Nat → Site} {position j : Nat}
    {ty : Ty} (h : expected[j]? = some (some ty)) :
    Want.at? expected site position j = some ⟨ty, site (position + j)⟩ := by
  simp [Want.at?, h]

namespace Values

variable {callee : Typed.Expr} {args : List Typed.Expr} {returns : List Ty} {loc : Location}
  {expected : List (Option Ty)} {site : Nat → Site} {position : Nat} {values : Values}

/-- A call at the end of a list is left alone if it has no results, coerced if it has one, and
spread if it has more. -/
theorem ofCall_cases
    (h : (ofCall ⟨.call callee args returns, returns.headD .nil, loc⟩ expected site position).Yields
      values) :
    (returns = [] ∧ values = ⟨[⟨.call callee args [], .nil, loc⟩], [], false⟩) ∨
      (∃ ty value, returns = [ty] ∧
        (Typed.Expr.coerce? ⟨.call callee args [ty], ty, loc⟩
          (Want.at? expected site position 0)).Yields value ∧
          values = ⟨[value], [value.ty], value.ty.isUnknown⟩) ∨
      ∃ results, 2 ≤ returns.length ∧
        (Typed.Expr.results loc (Want.at? expected site position) 0 returns).Yields results ∧
          values = ⟨[⟨.expand ⟨.call callee args returns, returns.headD .nil, loc⟩ results,
            (results.map (·.ty)).headD .nil, loc⟩], results.map (·.ty), returns.any Ty.isUnknown⟩ := by
  unfold ofCall at h
  cases returns with
  | nil =>
    simp only [Typed.Expr.valueTypes] at h
    split_ifs at h
    · simp at h
    · exact Or.inl ⟨rfl, Report.yields_pure.mp h⟩
  | cons ty rest =>
    cases rest with
    | nil =>
      simp only [Typed.Expr.valueTypes, Report.yields_bind, Report.yields_pure] at h
      obtain ⟨value, hv, rfl⟩ := h
      exact Or.inr (Or.inl ⟨ty, value, rfl, hv, rfl⟩)
    | cons ty' rest =>
      simp only [Typed.Expr.valueTypes, Typed.Expr.spread, Report.yields_bind,
        Report.yields_pure] at h
      obtain ⟨_, ⟨results, hr, rfl⟩, rfl⟩ := h
      exact Or.inr (Or.inr ⟨results, by simp, hr, rfl⟩)

section
variable (h : (ofCall ⟨.call callee args returns, returns.headD .nil, loc⟩ expected site
  position).Yields values)
include h

theorem ofCall_length : values.exprs.length = 1 := by
  rcases ofCall_cases h with ⟨-, rfl⟩ | ⟨_, _, -, -, rfl⟩ | ⟨_, -, -, rfl⟩ <;> rfl

theorem ofCall_flatTypes : values.types = flatTypes values.exprs := by
  rcases ofCall_cases h with ⟨-, rfl⟩ | ⟨ty, value, -, hv, rfl⟩ | ⟨_, -, -, rfl⟩
  · rfl
  · exact (Typed.Expr.coerce?_valueTypes rfl hv).symm
  · rfl

theorem ofCall_meets (hr : ∀ ty ∈ returns, ty.proper true = true)
    (he : ∀ ty, some ty ∈ expected → ty.proper true = true) : Ty.Meets values.types expected := by
  have hw : ∀ j w, Want.at? expected site position j = some w → w.ty.proper true = true :=
    fun j w hj => he _ (Want.mem_of_at? hj)
  rcases ofCall_cases h with ⟨-, rfl⟩ | ⟨ty, value, rfl, hv, rfl⟩ | ⟨results, -, hres, rfl⟩
  · exact trivial
  · refine Ty.meets_cons (fun w hhead => ?_) trivial
    rw [List.head?_eq_getElem?] at hhead
    exact Typed.Expr.coerce?_agrees (hr ty (by simp)) (hw 0) hv _ (Want.at?_eq_some_of hhead)
  · exact Typed.Expr.results_meets (fun j w hj => ⟨_, Want.at?_eq_some_of hj⟩) hw hr hres

theorem ofCall_values (hr : ∀ ty ∈ returns, ty.proper true = true)
    (he : ∀ ty, some ty ∈ expected → ty.proper true = true)
    (hcall : E.Call ⟨.call callee args returns, returns.headD .nil, loc⟩) :
    E.Values values.exprs := by
  have hw : ∀ j w, Want.at? expected site position j = some w → w.ty.proper true = true :=
    fun j w hj => he _ (Want.mem_of_at? hj)
  rcases ofCall_cases h with ⟨rfl, rfl⟩ | ⟨ty, value, rfl, hv, rfl⟩ | ⟨results, hlen, hres, rfl⟩
  · exact .void hcall rfl
  · refine .one ?_ (Typed.Expr.coerce?_valueTypes rfl hv)
    exact Typed.Expr.coerce?_value (hr ty (by simp)) (hw 0) hv (.call hcall (by simp [Typed.Expr.valueTypes]))
  · exact .spread hcall hlen (Typed.Expr.results_spread hw hr hres)

end

end Values

namespace Source.Expr

variable {site : Nat → Site}

/-- The last expression of a list is a call, or it is typed like the ones before it. -/
theorem checkValues_cons_yields {expr : Source.Expr} {rest : List Source.Expr}
    {expected : List (Option Ty)} {position : Nat} {values : Values}
    (h : (checkValues Γ site (expr :: rest) expected position).Yields values) :
    (∃ call, rest = [] ∧ expr.isCall = true ∧ (check Γ expr .results).Yields call ∧
        (Values.ofCall call expected site position).Yields values) ∨
      ∃ value values', (rest = [] → expr.isCall = false) ∧
        (check Γ expr (.ofWant (Want.at? expected site position 0))).Yields value ∧
          (checkValues Γ site rest expected.tail (position + 1)).Yields values' ∧
            values = values'.cons value := by
  rw [checkValues] at h
  split_ifs at h with hlast
  · rw [Bool.and_eq_true, List.isEmpty_iff] at hlast
    rw [Report.yields_bind] at h
    obtain ⟨call, hc, hv⟩ := h
    exact Or.inl ⟨call, hlast.1, hlast.2, hc, hv⟩
  · simp only [Report.yields_bind, Report.yields_pure] at h
    obtain ⟨value, hv, values', hvs, rfl⟩ := h
    refine Or.inr ⟨value, values', ?_, hv, hvs, rfl⟩
    rintro rfl
    simpa using hlast

/-- Each expression of a list gives one typed expression. -/
theorem checkValues_length {exprs : List Source.Expr} {expected : List (Option Ty)}
    {position : Nat} {values : Values}
    (h : (checkValues Γ site exprs expected position).Yields values) :
    values.exprs.length = exprs.length := by
  induction exprs generalizing expected position values with
  | nil =>
    rw [checkValues, Report.yields_pure] at h
    rw [h]
    rfl
  | cons expr rest ih =>
    rcases checkValues_cons_yields h with ⟨call, rfl, hcall, hc, hv⟩ | ⟨_, values', -, -, hvs, rfl⟩
    · obtain ⟨_, _, _, _, rfl⟩ := check_call_form hcall hc
      exact Values.ofCall_length hv
    · simp [Values.cons, ih hvs]

/-- The types of a list of values are those that its typed form shows. -/
theorem checkValues_flatTypes {exprs : List Source.Expr} {expected : List (Option Ty)}
    {position : Nat} {values : Values}
    (h : (checkValues Γ site exprs expected position).Yields values) :
    values.types = flatTypes values.exprs := by
  induction exprs generalizing expected position values with
  | nil =>
    rw [checkValues, Report.yields_pure] at h
    rw [h]
    rfl
  | cons expr rest ih =>
    rcases checkValues_cons_yields h with ⟨call, rfl, hcall, hc, hv⟩ |
      ⟨value, values', hlast, hv, hvs, rfl⟩
    · obtain ⟨_, _, _, _, rfl⟩ := check_call_form hcall hc
      exact Values.ofCall_flatTypes hv
    · have hrest := ih hvs
      have hlen := checkValues_length hvs
      simp only [Values.cons, hrest]
      cases rest with
      | nil =>
        have hnil : values'.exprs = [] := List.eq_nil_of_length_eq_zero hlen
        rw [hnil, flatTypes, flatTypes]
        exact (valueTypes_of_not_isCall (hlast rfl) hv).symm
      | cons next rest =>
        obtain ⟨first, others, hcons⟩ := List.exists_cons_of_length_eq_add_one hlen
        rw [hcons]
        rfl

/-- The types of a list of values agree with what is expected of them. -/
theorem checkValues_meets (hΓ : Γ.Proper modules) {exprs : List Source.Expr}
    {expected : List (Option Ty)} {position : Nat} {values : Values}
    (he : ∀ ty, some ty ∈ expected → ty.proper modules = true)
    (h : (checkValues Γ site exprs expected position).Yields values) :
    Ty.Meets values.types expected := by
  induction exprs generalizing expected position values with
  | nil =>
    rw [checkValues, Report.yields_pure] at h
    rw [h]
    trivial
  | cons expr rest ih =>
    rcases checkValues_cons_yields h with ⟨call, rfl, hcall, hc, hv⟩ |
      ⟨value, values', -, hv, hvs, rfl⟩
    · obtain ⟨_, _, returns, _, rfl⟩ := check_call_form hcall hc
      refine Values.ofCall_meets hv (fun ty hty => ?_) fun ty hty => Ty.proper_true (he ty hty)
      exact Ty.proper_true (check_call_proper hΓ hcall hc ty (List.mem_cons_of_mem _ hty))
    · refine Ty.meets_cons (fun w hhead => ?_)
        (ih (fun ty hty => he ty (List.mem_of_mem_tail hty)) hvs)
      rw [List.head?_eq_getElem?] at hhead
      rw [Want.at?_eq_some_of hhead, Demand.ofWant] at hv
      exact check_agrees hΓ (he w (List.mem_of_getElem? hhead)) hv

/-- The named entries of a constructor are kept in order, and no name comes twice. -/
theorem checkFields_keys {target : Ty} {fields : NameMap Ty} {entries : List Entry}
    {seen : List String} {items : List (String × Typed.Expr)}
    (h : (checkFields Γ target fields entries seen).Yields items) :
    items.map Prod.fst = Entry.names entries ∧ (items.map Prod.fst).Nodup ∧
      ∀ key ∈ items.map Prod.fst, key ∉ seen := by
  induction entries generalizing seen items with
  | nil =>
    rw [checkFields, Report.yields_pure] at h
    simp [h, Entry.names]
  | cons entry rest ih =>
    cases entry with
    | positional => simp [checkFields] at h
    | named key value loc =>
      rw [checkFields] at h
      split_ifs at h with hseen
      · simp at h
      · split at h
        · simp only [Report.yields_bind, Report.yields_pure] at h
          obtain ⟨value', -, items, hi, rfl⟩ := h
          obtain ⟨hkeys, hnodup, hfresh⟩ := ih hi
          refine ⟨by rw [List.map_cons, hkeys, Entry.names], ?_, ?_⟩
          · rw [List.map_cons, List.nodup_cons]
            exact ⟨fun hmem => hfresh key hmem List.mem_cons_self, hnodup⟩
          · rw [List.map_cons, List.forall_mem_cons]
            refine ⟨by simpa using hseen, fun other ho hmem => ?_⟩
            exact hfresh other ho (List.mem_cons_of_mem _ hmem)
        · simp at h

end Source.Expr

theorem requireFields_yields {target : Ty} {loc : Location} {given : List String} :
    ∀ {fields : List (String × Ty)} {u : Unit}, (requireFields target loc given fields).Yields u →
      ∀ field ∈ fields, field.1 ∈ given
  | [], _, _ => by simp
  | (field, _) :: rest, u, h => by
    simp only [requireFields, Report.yields_bind, Report.yields_require] at h
    obtain ⟨_, hf, hr⟩ := h
    rw [List.forall_mem_cons]
    exact ⟨by simpa using hf, requireFields_yields hr⟩

end LuaTyping
