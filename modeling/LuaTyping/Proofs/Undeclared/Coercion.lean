import LuaTyping.Proofs.Proper.Expr
import LuaTyping.Proofs.Undeclared.Blur
import LuaTyping.Proofs.Undeclared.Quiet

/-!
# Coercions of expressions with types that are unknown in part

`t.Shadows ρ t'` relates a typed expression to one for the same source whose types are blurred.
Wherever the first meets a demand, the second meets the blurred demand without a fault
(`Demand.Blurs.settle`), and so do the values of a call, one by one (`Values.ofCall_blurs`).  A
blurred demand may also ask for nothing where a type was wanted, since nothing is expected of the
arguments for something of the type `unknown`.
-/

namespace LuaTyping

variable {ρ : String → NameMap Ty} {N : String}

/-! ### Types that go together -/

theorem Ty.Blurs.eq_any {ty ty' : Ty} (h : ty.Blurs ρ ty') (hty : ty = .any) :
    ty' = .unknown ∨ ty' = .any := by
  subst hty
  cases h with
  | unknown => exact Or.inl rfl
  | any => exact Or.inr rfl

/-- Between blurred types a cast is allowed where it is allowed between the types. -/
theorem Ty.Blurs.castable {found want found' want' : Ty} (hf : found.Blurs ρ found')
    (hw : want.Blurs ρ want') (hpf : found.proper true = true) (hpw : want.proper true = true)
    (h : found.castable want = true) : found'.castable want' = true := by
  simp only [Ty.castable, Bool.or_eq_true, Ty.isAny_iff, or_assoc] at h ⊢
  rcases h with h | h | h
  · exact Or.inl (hf.compatible_of_proper hw hpf hpw h)
  · rcases hf.eq_any h with rfl | h'
    · exact Or.inl (by simp [Ty.compatible])
    · exact Or.inr (Or.inl h')
  · rcases hw.eq_any h with rfl | h'
    · exact Or.inl Ty.compatible_unknown_right
    · exact Or.inr (Or.inr h')

namespace Typed.Expr

variable {want : Ty} {expr t : Expr}

theorem Coerced.quiet_eq (h : Coerced want expr t) : t.quiet = expr.quiet := by
  cases h with
  | fits => rfl
  | cast => simp only [Expr.quiet, ExprKind.quiet]

theorem Coerced.isInit_eq_false (h : Coerced want expr t) (hi : expr.isInit = false) :
    t.isInit = false := by
  cases h with
  | fits => exact hi
  | cast => rfl

end Typed.Expr

/-! ### Demands -/

/-- The second want is the first with a blurred type, or it is dropped because it is lost. -/
inductive Want.Blurs (ρ : String → NameMap Ty) : Bool → Option Want → Option Want → Prop
  | none {lost : Bool} : Blurs ρ lost none none
  | some {want want' : Want} : want.ty.Blurs ρ want'.ty → Blurs ρ false (some want) (some want')
  | dropped {want : Want} : Blurs ρ true (some want) .none

/-- The second demand is the first with a blurred type, or the type is dropped because it is lost. -/
inductive Demand.Blurs (ρ : String → NameMap Ty) : Bool → Demand → Demand → Prop
  | results {lost : Bool} : Blurs ρ lost .results .results
  | value {lost : Bool} : Blurs ρ lost .value .value
  | ofType {want want' : Want} : want.ty.Blurs ρ want'.ty →
      Blurs ρ false (.ofType want) (.ofType want')
  | dropped {want : Want} : Blurs ρ true (.ofType want) .value

theorem Demand.blurs_ofType {ty ty' : Ty} {site : Site} (h : ty.Blurs ρ ty') :
    (Demand.ofType ⟨ty, site⟩).Blurs ρ false (.ofType ⟨ty', site⟩) :=
  .ofType h

theorem Want.Blurs.demand {lost : Bool} {want want' : Option Want}
    (h : Want.Blurs ρ lost want want') :
    (Demand.ofWant want).Blurs ρ lost (Demand.ofWant want') := by
  cases h with
  | none => exact .value
  | some h => exact .ofType h
  | dropped => exact .dropped

/-- What is expected of the values of a list: blurred types, or nothing if the types are lost. -/
def ExpectedBlurs (ρ : String → NameMap Ty) : Bool → List (Option Ty) → List (Option Ty) → Prop
  | false, expected, expected' => List.Forall₂ (Option.Rel (Ty.Blurs ρ)) expected expected'
  | true, _, expected' => expected' = []

namespace ExpectedBlurs

variable {lost : Bool} {expected expected' : List (Option Ty)}

theorem of_types {tys tys' : List Ty} (h : List.Forall₂ (Ty.Blurs ρ) tys tys') :
    ExpectedBlurs ρ false (tys.map some) (tys'.map some) :=
  List.forall₂_map_left_iff.mpr (List.forall₂_map_right_iff.mpr (h.imp fun _ _ hty => .some hty))

theorem tail (h : ExpectedBlurs ρ lost expected expected') :
    ExpectedBlurs ρ lost expected.tail expected'.tail := by
  cases lost with
  | true => rw [show expected' = [] from h]; rfl
  | false =>
    cases h with
    | nil => exact .nil
    | cons _ hs => exact hs

theorem isEmpty (h : ExpectedBlurs ρ lost expected expected') (he : expected.isEmpty = true) :
    expected'.isEmpty = true := by
  cases lost with
  | true => rw [show expected' = [] from h]; rfl
  | false =>
    rw [List.isEmpty_iff] at he
    subst he
    cases h
    rfl

/-- Nothing is wanted where nothing was. -/
theorem want (h : ExpectedBlurs ρ lost expected expected') (site : Nat → Site)
    (position j : Nat) :
    Want.Blurs ρ lost (Want.at? expected site position j) (Want.at? expected' site position j) := by
  cases lost with
  | true =>
    rw [show expected' = [] from h]
    simp only [Want.at?, List.getElem?_nil, Option.join_none, Option.map_none]
    cases expected[j]?.join with
    | none => exact .none
    | some ty => exact .dropped
  | false =>
    have hrel := List.forall₂_iff_get.mp h
    simp only [Want.at?]
    by_cases hj : j < expected.length
    · have hty := hrel.2 j hj (hrel.1 ▸ hj)
      simp only [List.get_eq_getElem] at hty
      rw [List.getElem?_eq_getElem hj, List.getElem?_eq_getElem (hrel.1 ▸ hj)]
      generalize expected[j] = found, expected'[j] = found' at hty
      cases hty with
      | none => exact .none
      | some hty => exact .some hty
    · rw [List.getElem?_eq_none (by omega), List.getElem?_eq_none (by omega)]
      exact .none

end ExpectedBlurs

/-! ### Expressions -/

/-- The second expression is one for the same source with blurred types.  Where the callee of a call
has become `unknown`, so has its only result. -/
structure Typed.Expr.Shadows (ρ : String → NameMap Ty) (t t' : Typed.Expr) : Prop where
  ty : t.ty.Blurs ρ t'.ty
  results : List.Forall₂ (Ty.Blurs ρ) t.valueTypes t'.valueTypes ∨
    t'.isCall = true ∧ t'.valueTypes = [.unknown] ∧ t'.ty = .unknown
  isCall : t'.isCall = t.isCall
  isInit : t'.isInit = false
  toplevel : ∀ name, t.kind = .toplevel name → t'.kind = .toplevel name

namespace Typed.Expr

variable {t t' : Expr}

theorem isVoid_iff : t.isVoid = true ↔ t.isCall = true ∧ t.valueTypes = [] := by
  unfold isVoid isCall valueTypes
  cases t.kind with
  | call callee args returns => cases returns <;> simp
  | _ => simp

theorem Shadows.isVoid_eq_false (h : t.Shadows ρ t') (hv : t.isVoid = false) :
    t'.isVoid = false := by
  rw [Bool.eq_false_iff] at hv ⊢
  intro hv'
  obtain ⟨hc, hnil⟩ := isVoid_iff.mp hv'
  rcases h.results with hr | ⟨-, hr, -⟩
  · rw [hnil, List.forall₂_nil_right_iff] at hr
    exact hv (isVoid_iff.mpr ⟨h.isCall ▸ hc, hr⟩)
  · rw [hnil] at hr
    cases hr

end Typed.Expr

/-- **A blurred demand is met** by the shadow of an expression that meets the demand. -/
theorem Demand.Blurs.settle {lost : Bool} {demand demand' : Demand}
    (hd : demand.Blurs ρ lost demand') {found found' t : Typed.Expr}
    (hs : found.Shadows ρ found') (hf : found.ty.proper true = true) (hw : demand.Proper true)
    (h : demand.Settles found t) :
    ∃ t', (demand'.settle found').Yields t' ∧ t'.quiet = found'.quiet ∧ t'.isInit = false ∧
      ((∀ want, demand ≠ .ofType want) → t = found ∧ t' = found') := by
  simp only [settle_yields_iff]
  cases hd with
  | results => exact ⟨found', rfl, rfl, hs.isInit, fun _ => ⟨h, rfl⟩⟩
  | value =>
    exact ⟨found', ⟨rfl, hs.isVoid_eq_false h.2⟩, rfl, hs.isInit, fun _ => ⟨h.1, rfl⟩⟩
  | @ofType want want' hty =>
    obtain ⟨hv, hc⟩ := h
    obtain ⟨t', hc'⟩ := Typed.Expr.exists_coerced (hs.ty.castable hty hf hw hc.castable)
    exact ⟨t', ⟨hs.isVoid_eq_false hv, hc'⟩, hc'.quiet_eq, hc'.isInit_eq_false hs.isInit,
      fun hne => absurd rfl (hne want)⟩
  | @dropped want =>
    exact ⟨found', ⟨rfl, hs.isVoid_eq_false h.1⟩, rfl, hs.isInit, fun hne => absurd rfl (hne want)⟩

/-! ### The values of a call -/

theorem Ty.blurs_headD {tys tys' : List Ty} (h : List.Forall₂ (Ty.Blurs ρ) tys tys') :
    (tys.headD .nil).Blurs ρ (tys'.headD .nil) := by
  cases h with
  | nil => exact .nil
  | cons hb _ => exact hb

/-- Something unknown goes everywhere. -/
theorem Typed.Expr.coerce?_unknown {expr : Expr} {want : Option Want} (h : expr.ty = .unknown) :
    (expr.coerce? want).Yields expr := by
  cases want with
  | none => rfl
  | some want => exact coerce_yields_iff.mpr (.fits (by simp [h, Ty.compatible]))

/-- Where nothing is wanted, a coerced expression stays as it is. -/
theorem Typed.Expr.coerce?_blurs {expr expr' t : Expr} {lost : Bool}
    {want want' : Option Want} (hty : expr.ty.Blurs ρ expr'.ty) (hw : Want.Blurs ρ lost want want')
    (hpe : expr.ty.proper true = true) (hpw : ∀ w ∈ want, w.ty.proper true = true)
    (h : (expr.coerce? want).Yields t) :
    ∃ t', (expr'.coerce? want').Yields t' ∧ t'.quiet = expr'.quiet ∧
      (expr'.isInit = false → t'.isInit = false) ∧ (want = none → t = expr ∧ t' = expr') := by
  cases hw with
  | none => exact ⟨expr', rfl, rfl, id, fun _ => ⟨Report.yields_pure.mp h, rfl⟩⟩
  | dropped => exact ⟨expr', rfl, rfl, id, fun hn => by cases hn⟩
  | some hwant =>
    rw [coerce?, coerce_yields_iff] at h
    obtain ⟨t', hc'⟩ := exists_coerced (hty.castable hwant hpe (hpw _ rfl) h.castable)
    exact ⟨t', coerce_yields_iff.mpr hc', hc'.quiet_eq, hc'.isInit_eq_false, fun hn => by cases hn⟩

/-- The results of a call, each of them coerced, with blurred types where nothing is wanted. -/
theorem Typed.Expr.results_blurs {loc : Location} (loc' : Location) {lost : Bool}
    {want want' : Nat → Option Want} (hw : ∀ j, Want.Blurs ρ lost (want j) (want' j))
    (hpw : ∀ j, ∀ w ∈ want j, w.ty.proper true = true) {tys tys' : List Ty} {position : Nat}
    {values : List Expr} (htys : List.Forall₂ (Ty.Blurs ρ) tys tys')
    (hp : ∀ ty ∈ tys, ty.proper true = true) (h : (results loc want position tys).Yields values) :
    ∃ values', (results loc' want' position tys').Yields values' ∧
      values'.length = values.length ∧
        ∀ j value value', want (position + j) = none → values[j]? = some value →
          values'[j]? = some value' → value.ty.Blurs ρ value'.ty := by
  induction htys generalizing position values with
  | nil =>
    rw [results, Report.yields_pure] at h
    exact ⟨[], rfl, by rw [h], by simp⟩
  | @cons ty ty' _ _ hty hrest ih =>
    rw [List.forall_mem_cons] at hp
    simp only [results, Report.yields_bind, Report.yields_pure] at h ⊢
    obtain ⟨value, hv, values, hvs, rfl⟩ := h
    have hshadow : (⟨.callResult position, ty, loc⟩ : Expr).ty.Blurs ρ
        (⟨.callResult position, ty', loc'⟩ : Expr).ty := hty
    obtain ⟨value', hv', -, -, heq⟩ := coerce?_blurs hshadow (hw position) hp.1 (hpw position) hv
    obtain ⟨values', hvs', hlen, htys⟩ := ih hp.2 hvs
    refine ⟨_, ⟨value', hv', values', hvs', rfl⟩, by simp [hlen], ?_⟩
    rintro (_ | j) found found' hnone hf hf'
    · obtain ⟨rfl, rfl⟩ := heq hnone
      simp only [List.getElem?_cons_zero, Option.some.injEq] at hf hf'
      rw [← hf, ← hf']
      exact hty
    · rw [show position + (j + 1) = position + 1 + j by omega] at hnone
      simp only [List.getElem?_cons_succ] at hf hf'
      exact htys j found found' hnone hf hf'

/-- The values of a list with blurred types.  Their number is the same or uncertain, and where
nothing is expected the types are blurred. -/
structure Values.Shadows (ρ : String → NameMap Ty) (expected : List (Option Ty))
    (values values' : Values) : Prop where
  count : values'.uncertain = true ∨ values'.types.length = values.types.length
  types : ∀ (j : Nat) (ty ty' : Ty), expected[j]?.join = none → values.types[j]? = some ty →
    values'.types[j]? = some ty' → ty.Blurs ρ ty'

/-- A list with as many values as are expected keeps to the number. -/
theorem Values.Shadows.fits {expected : List (Option Ty)} {values values' : Values} {count : Nat}
    (h : values.Shadows ρ expected values') (hu : values.uncertain = false)
    (hf : values.fits count = true) : values'.fits count = true := by
  simp only [Values.fits, hu, Bool.false_or, Bool.or_eq_true, beq_iff_eq] at hf ⊢
  exact h.count.imp_right (·.trans hf)

namespace Values

variable {call call' : Typed.Expr} {lost : Bool} {expected expected' : List (Option Ty)}
  {site : Nat → Site} {position : Nat} {values : Values}

/-- The only result of a call, coerced. -/
theorem shadows_one {value value' : Typed.Expr}
    (hw : expected[0]?.join = none → value.ty.Blurs ρ value'.ty) :
    Shadows ρ expected ⟨[value], [value.ty], value.ty.isUnknown⟩
      ⟨[value'], [value'.ty], value'.ty.isUnknown⟩ where
  count := Or.inr rfl
  types := by
    rintro (_ | j) ty ty' hnone hf hf'
    · simp only [List.getElem?_cons_zero, Option.some.injEq] at hf hf'
      rw [← hf, ← hf']
      exact hw hnone
    · simp at hf

/-- An unknown result is as good as any other. -/
theorem ofCall_unknown (hr : call'.valueTypes = [.unknown]) (hty : call'.ty = .unknown) :
    (ofCall call' expected' site position).Yields ⟨[call'], [.unknown], true⟩ := by
  simp only [ofCall, hr, Report.yields_bind, Report.yields_pure]
  exact ⟨call', Typed.Expr.coerce?_unknown hty, by simp [hty, Ty.isUnknown]⟩

/-- **The values of a call with blurred results** meet the blurred expectations. -/
theorem ofCall_blurs (hs : call.Shadows ρ call') (he : ExpectedBlurs ρ lost expected expected')
    (hp : ∀ ty ∈ call.ownTypes, ty.proper true = true)
    (hpe : ∀ ty, some ty ∈ expected → ty.proper true = true)
    (h : (ofCall call expected site position).Yields values) :
    ∃ values', (ofCall call' expected' site position).Yields values' ∧
      Typed.Expr.quietList values'.exprs = call'.quiet ∧
        (values'.exprs.all fun expr => !expr.isInit) = true ∧ values.Shadows ρ expected values' := by
  have hw := he.want site position
  have hpw : ∀ j, ∀ w ∈ Want.at? expected site position j, w.ty.proper true = true :=
    fun j w hj => hpe _ (Want.mem_of_at? hj)
  have hpt : call.ty.proper true = true := hp _ List.mem_cons_self
  have hpv : ∀ ty ∈ call.valueTypes, ty.proper true = true :=
    fun ty hty => hp ty (List.mem_cons_of_mem _ hty)
  rcases hs.results with hr | ⟨-, hr, hty⟩
  · unfold ofCall at h ⊢
    generalize hv : call.valueTypes = tys at hr h hpv
    generalize hv' : call'.valueTypes = tys' at hr
    cases hr with
    | nil =>
      simp only at h ⊢
      split_ifs at h with hvoid
      · simp at h
      · rw [Report.yields_pure] at h
        have hvoid' : ¬(position == 0 && !expected'.isEmpty) = true := by
          simp only [Bool.and_eq_true, Bool.not_eq_true', not_and, Bool.not_eq_false] at hvoid ⊢
          exact fun hzero => he.isEmpty (hvoid hzero)
        refine ⟨⟨[call'], [], false⟩, ?_, ?_, ?_, ?_⟩
        · rw [if_neg hvoid']
          rfl
        · simp [Typed.Expr.quietList]
        · simp [hs.isInit]
        · rw [h]
          exact ⟨Or.inr rfl, by simp⟩
    | cons hty hrest =>
      cases hrest with
      | nil =>
        simp only [Report.yields_bind, Report.yields_pure] at h ⊢
        obtain ⟨value, hval, rfl⟩ := h
        obtain ⟨value', hval', hq, hi, heq⟩ :=
          Typed.Expr.coerce?_blurs hs.ty (hw 0) hpt (hpw 0) hval
        refine ⟨_, ⟨value', hval', rfl⟩, ?_, ?_, shadows_one fun hnone => ?_⟩
        · simp [Typed.Expr.quietList, hq]
        · simp [hi hs.isInit]
        · obtain ⟨rfl, rfl⟩ := heq (by simp [Want.at?, hnone])
          exact hs.ty
      | cons hty₂ hrest =>
        simp only [Typed.Expr.spread, hv, hv', Report.yields_bind, Report.yields_pure] at h ⊢
        obtain ⟨_, ⟨results, hres, rfl⟩, rfl⟩ := h
        obtain ⟨results', hres', hlen, htys⟩ := Typed.Expr.results_blurs call'.loc hw hpw
          (.cons hty (.cons hty₂ hrest)) hpv hres
        refine ⟨_, ⟨_, ⟨results', hres', rfl⟩, rfl⟩, ?_, rfl, ?_, ?_⟩
        · simp [Typed.Expr.quietList, Typed.Expr.quiet, Typed.ExprKind.quiet]
        · simp [Typed.Expr.valueTypes, hlen]
        · intro j ty ty' hnone hf hf'
          simp only [Typed.Expr.valueTypes, List.getElem?_map, Option.map_eq_some_iff] at hf hf'
          obtain ⟨value, hf, rfl⟩ := hf
          obtain ⟨value', hf', rfl⟩ := hf'
          exact htys j value value' (by simp [Want.at?, hnone]) hf hf'
  · refine ⟨_, ofCall_unknown hr hty, ?_, ?_, Or.inl rfl, ?_⟩
    · simp [Typed.Expr.quietList]
    · simp [hs.isInit]
    · rintro (_ | j) ty ty' - - hf'
      · simp only [List.getElem?_cons_zero, Option.some.injEq] at hf'
        rw [← hf']
        exact .unknown
      · simp at hf'

end Values

end LuaTyping
