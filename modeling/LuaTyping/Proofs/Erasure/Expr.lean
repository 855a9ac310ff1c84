import LuaTyping.Proofs.Erasure.Bare
import LuaTyping.Proofs.Soundness.Values

/-!
# Checked expressions erase back

A checked expression erases to the source expression without its annotations (`check_erase`), and so
do lists of expressions and the entries of constructors.  Coercions and conversions to float vanish,
a spread call becomes the call again, and a field of the module variable loses the parentheses
around the variable.
-/

namespace LuaTyping

open Typed (Env)

/-! ### The module variable in sight -/

/-- `visible` is the name under which the module variable can be seen, if it can. -/
def Typed.Env.Sees (E : Env) (visible : Option String) : Prop :=
  ∀ name, visible = some name ↔ ∃ ty, E.vars name = some (.module, ty)

theorem Context.isModuleVar_iff {Γ : Context} {name : String} :
    Γ.isModuleVar name = true ↔ ∃ ty, Γ.env.vars name = some (.module, ty) := by
  constructor
  · intro h
    unfold isModuleVar at h
    split at h
    · next binding hb =>
      have hk : binding.kind = .module := by simpa using h
      exact ⟨binding.ty, by rw [← hk]; exact env_vars_of_var hb⟩
    · cases h
  · rintro ⟨ty, h⟩
    obtain ⟨binding, hb, hbinding⟩ := Option.map_eq_some_iff.mp h
    rw [Prod.mk.injEq] at hbinding
    simp [isModuleVar, Scopes.lookup_eq_var_iff.mpr hb, hbinding.1]

/-! ### Conversions vanish -/

namespace Typed.Expr

theorem Coerced.erase_eq {want : Ty} {expr t : Typed.Expr} (h : expr.Coerced want t) :
    t.erase = expr.erase := by
  cases h with
  | fits _ => rfl
  | cast _ _ => rfl

theorem coerce?_erase {want : Option Want} {expr t : Typed.Expr}
    (h : (expr.coerce? want).Yields t) : t.erase = expr.erase := by
  cases want with
  | none => rw [Report.yields_pure.mp h]
  | some want => exact (coerce_yields_iff.mp h).erase_eq

theorem Floated.erase_eq {expr t : Typed.Expr} (h : Floated expr t) : t.erase = expr.erase := by
  rcases h with rfl | ⟨-, rfl⟩ <;> rfl

end Typed.Expr

theorem Demand.Settles.erase_eq {demand : Demand} {found t : Typed.Expr}
    (h : demand.Settles found t) : t.erase = found.erase := by
  rcases h.eq_or_cast with rfl | ⟨_, -, rfl⟩ <;> rfl

/-- The values of a call at the end of a list are the call. -/
theorem Values.ofCall_erase {call : Typed.Expr} {expected : List (Option Ty)} {site : Nat → Site}
    {position : Nat} {values : Values} (h : (ofCall call expected site position).Yields values) :
    Typed.Expr.eraseList values.exprs = [call.erase] := by
  unfold ofCall at h
  split at h
  · split_ifs at h
    · simp at h
    · rw [Report.yields_pure.mp h]
      rfl
  · simp only [Report.yields_bind, Report.yields_pure] at h
    obtain ⟨value, hv, rfl⟩ := h
    rw [Typed.Expr.eraseList, Typed.Expr.coerce?_erase hv]
    rfl
  · simp only [Typed.Expr.spread, Report.yields_bind, Report.yields_pure] at h
    obtain ⟨_, ⟨_, -, rfl⟩, rfl⟩ := h
    rfl

/-! ### Expressions -/

namespace Source.Expr

variable {Γ : Context} {visible : Option String}

/-- The module variable has the empty module type, in any number of parentheses. -/
theorem check_moduleVar (hΓ : Γ.Proper false) {name : String} (hm : Γ.isModuleVar name = true) :
    ∀ {object : Source.Expr} {t : Typed.Expr}, object.bareName? = some name →
      (check Γ object .value).Yields t → t.ty = .module []
  | .name text loc, t, hb, h => by
    cases hb
    obtain ⟨_, hl, -⟩ := hΓ.moduleVar hm
    obtain ⟨found, hf, hs⟩ := (check_yields_iff rfl).mp h
    simp only [check, Demand.settle, Report.yields_bind, Report.yields_pure, exists_eq_right'] at hf
    rw [Context.nameExpr, hl, Report.yields_pure] at hf
    rw [hs.1, hf]
  | .paren expr loc, t, hb, h => by
    obtain ⟨found, hf, hs⟩ := (check_yields_iff rfl).mp h
    simp only [check, Demand.settle, Report.yields_bind, Report.yields_pure] at hf
    obtain ⟨expr', he, rfl⟩ := hf
    rw [hs.1]
    have hname : expr.bareName? = some name := hb
    have hinner := check_moduleVar hΓ hm hname he
    exact hinner

/-- A member of anything but the module variable. -/
theorem norm_field_of_ne {object : Source.Expr} {key : String} {loc : Location}
    (h : ∀ name, object.bareName? = some name → visible ≠ some name) :
    (Expr.field object key loc).norm visible = .field (object.norm visible) key := by
  rw [norm]
  split
  · next name hb => rw [if_neg (h name hb)]
  · rfl

/-- A member of the module variable. -/
theorem norm_field_of_eq {object : Source.Expr} {key name : String} {loc : Location}
    (hb : object.bareName? = some name) (hv : visible = some name) :
    (Expr.field object key loc).norm visible = .field (.name name) key := by
  simp [norm, hb, hv]

theorem check_member_erase (hΓ : Γ.Proper false) (hs : Γ.env.Sees visible) {object : Source.Expr}
    {key : String} {loc : Location} {typed found : Typed.Expr}
    (ho : (check Γ object .value).Yields typed) (he : typed.erase = object.norm visible)
    (h : (Γ.fieldExpr typed key loc).Yields found) :
    found.erase = (Expr.field object key loc).norm visible := by
  have hat := check_proper hΓ Demand.proper_value ho _ List.mem_cons_self
  rcases Context.fieldExpr_yields (Ty.not_isUnknown_of_properAt hat) h with
    ⟨fields, ty, hfs, -, rfl⟩ | ⟨fields, declared, hm, -, rfl⟩
  · -- the object has fields of its own, so it is not the module variable
    rw [norm_field_of_ne, ← he]
    · rfl
    · intro name hb hv
      have hmodule := Context.isModuleVar_iff.mpr ((hs name).mp hv)
      rw [check_moduleVar hΓ hmodule hb ho] at hfs
      cases hfs
  · rcases hat with hp | ⟨-, name, hb, hname⟩
    · rw [hm] at hp
      cases hp
    · obtain ⟨_, -, hmodule⟩ := hΓ.moduleVar hname
      rw [norm_field_of_eq hb ((hs name).mpr (Context.isModuleVar_iff.mp hname)), hmodule]
      rfl

mutual

/-- **Checked expressions erase back.** -/
theorem check_erase (hΓ : Γ.Proper false) (hs : Γ.env.Sees visible) : ∀ {expr : Source.Expr}
    {demand : Demand} {t : Typed.Expr}, demand.Proper false → (check Γ expr demand).Yields t →
      t.erase = expr.norm visible
  | .nil _, demand, t, hd, h | .boolean _ _, demand, t, hd, h | .integer _ _, demand, t, hd, h
  | .float _ _, demand, t, hd, h | .string _ _, demand, t, hd, h => by
    rw [check, Demand.settle_yields_iff] at h
    exact h.erase_eq
  | .init entries loc, demand, t, hd, h => by
    have hk : ∀ want, demand = .ofType want → want.ty.isUnknown = false := by
      rintro want rfl
      exact Ty.not_isUnknown_of_proper hd
    obtain ⟨want, rfl, ⟨elem, items, hw, hi, rfl⟩ | ⟨fields, items, hw, hi, -, rfl⟩ |
      ⟨fields, hw, he, rfl⟩⟩ := check_init_yields hk h
    · have he : elem.proper false = true := by simpa [Demand.Proper, hw, Ty.proper] using hd
      rw [norm, ← checkItems_erase hΓ hs he hi]
      rfl
    · rw [norm, ← checkFields_erase hΓ hs (Ty.proper_of_fields? hd hw) hi]
      rfl
    · rw [he]
      rfl
  | .name text loc, demand, t, hd, h => by
    simp only [check, Report.yields_bind, Demand.settle_yields_iff] at h
    obtain ⟨found, hf, hset⟩ := h
    rw [hset.erase_eq]
    rcases Context.nameExpr_yields hf with ⟨_, _, _, rfl⟩ | ⟨_, _, _, _, _, rfl⟩ |
      ⟨_, _, rfl⟩ <;> rfl
  | .index object key loc, demand, t, hd, h => by
    simp only [check, Report.yields_bind, Demand.settle_yields_iff] at h
    obtain ⟨array, ha, elem, -, key', hk, hset⟩ := h
    rw [hset.erase_eq, norm, ← check_erase hΓ hs Demand.proper_value ha,
      ← check_erase hΓ hs (Demand.proper_ofType rfl) hk]
    rfl
  | .field object key loc, demand, t, hd, h => by
    rw [check] at h
    split at h
    · next library members hlib =>
      obtain ⟨⟨site, rfl⟩, hl⟩ := Context.library?_eq_some_iff.mp hlib
      simp only [Typed.Expr.ofMember, Report.yields_bind, Report.yields_pure,
        Demand.settle_yields_iff] at h
      obtain ⟨_, ⟨_, -, rfl⟩, hset⟩ := h
      rw [hset.erase_eq, norm_field_of_ne]
      · rfl
      · rintro name ⟨⟩ hv
        obtain ⟨ty, hvar⟩ := (hs library).mp hv
        rw [(Context.env_vars_of_library hl key).1] at hvar
        cases hvar
    · simp only [Report.yields_bind, Demand.settle_yields_iff] at h
      obtain ⟨object', ho, found, hf, hset⟩ := h
      rw [hset.erase_eq]
      exact check_member_erase hΓ hs ho (check_erase hΓ hs Demand.proper_value ho) hf
  | .call callee args loc, demand, t, hd, h => by
    have hat : ∀ {found}, (check Γ callee .value).Yields found →
        Γ.ProperAt false callee found.ty :=
      fun hc => check_proper hΓ Demand.proper_value hc _ List.mem_cons_self
    obtain ⟨callee', params, returns, values, hc, hty, hv, -, hset⟩ :=
      check_call_yields (fun hc => Ty.not_isUnknown_of_properAt (hat hc)) h
    have hparams : ∀ ty, some ty ∈ params.map some → ty.proper false = true := by
      have hp := hat hc
      rw [hty] at hp
      simpa using hp.function.1
    rw [hset.erase_eq, norm, ← check_erase hΓ hs Demand.proper_value hc,
      ← checkValues_erase hΓ hs hparams hv]
    rfl
  | .unary op operand loc, demand, t, hd, h => by
    simp only [check, Report.yields_bind, Demand.settle_yields_iff] at h
    obtain ⟨operand', ho, found, hu, hset⟩ := h
    have hat := check_proper hΓ Demand.proper_value ho _ List.mem_cons_self
    obtain ⟨_, rfl, -⟩ := Typed.Expr.unary_yields (Ty.not_isUnknown_of_properAt hat) hu
    rw [hset.erase_eq, norm, ← check_erase hΓ hs Demand.proper_value ho]
    rfl
  | .binary left op right loc, demand, t, hd, h => by
    simp only [check, Report.yields_bind, Demand.settle_yields_iff] at h
    obtain ⟨left', hl, right', hr, found, hb, hset⟩ := h
    have hlt := check_proper hΓ Demand.proper_value hl _ List.mem_cons_self
    have hrt := check_proper hΓ Demand.proper_value hr _ List.mem_cons_self
    obtain ⟨_, _, _, rfl, hfl, hfr, -⟩ := Typed.Expr.binary_yields
      (Ty.not_isUnknown_of_properAt hlt) (Ty.not_isUnknown_of_properAt hrt) hb
    rw [hset.erase_eq, norm, ← check_erase hΓ hs Demand.proper_value hl, ← hfl.erase_eq,
      ← check_erase hΓ hs Demand.proper_value hr, ← hfr.erase_eq]
    rfl
  | .cast expr target loc, demand, t, hd, h => by
    simp only [check, Report.yields_bind, Demand.settle_yields_iff] at h
    obtain ⟨expr', he, ty, -, -, -, hset⟩ := h
    rw [hset.erase_eq, norm, ← check_erase hΓ hs Demand.proper_value he]
    rfl
  | .paren expr loc, demand, t, hd, h => by
    simp only [check, Report.yields_bind, Demand.settle_yields_iff] at h
    obtain ⟨expr', he, hset⟩ := h
    rw [hset.erase_eq, norm, ← check_erase hΓ hs Demand.proper_value he]
    rfl

/-- **Lists of expressions erase back.** -/
theorem checkValues_erase (hΓ : Γ.Proper false) (hs : Γ.env.Sees visible) {site : Nat → Site} :
    ∀ {exprs : List Source.Expr} {expected : List (Option Ty)} {position : Nat} {values : Values},
      (∀ ty, some ty ∈ expected → ty.proper false = true) →
        (checkValues Γ site exprs expected position).Yields values →
          Typed.Expr.eraseList values.exprs = normList visible exprs
  | [], _, _, values, _, h => by
    rw [checkValues, Report.yields_pure] at h
    rw [h]
    rfl
  | expr :: rest, expected, position, values, he, h => by
    rcases checkValues_cons_yields h with ⟨call, rfl, -, hc, hv⟩ | ⟨value, values', -, hv, hvs, rfl⟩
    · rw [Values.ofCall_erase hv, check_erase hΓ hs Demand.proper_results hc]
      rfl
    · rw [normList, ← check_erase hΓ hs (Demand.proper_ofWant_at he) hv,
        ← checkValues_erase hΓ hs (fun ty hty => he ty (List.mem_of_mem_tail hty)) hvs]
      rfl

theorem checkItems_erase (hΓ : Γ.Proper false) (hs : Γ.env.Sees visible) {elem : Ty}
    (he : elem.proper false = true) : ∀ {entries : List Entry} {items : List Typed.Expr},
      (checkItems Γ elem entries).Yields items →
        Typed.Expr.eraseItems items = normEntries visible entries
  | [], items, h => by
    rw [checkItems, Report.yields_pure] at h
    rw [h]
    rfl
  | .positional value :: rest, items, h => by
    simp only [checkItems, Report.yields_bind, Report.yields_pure] at h
    obtain ⟨value', hv, values, hvs, rfl⟩ := h
    rw [Typed.Expr.eraseItems, check_erase hΓ hs (Demand.proper_ofType he) hv,
      checkItems_erase hΓ hs he hvs, normEntries]
  | .named _ _ _ :: rest, items, h => by simp [checkItems] at h

theorem checkFields_erase (hΓ : Γ.Proper false) (hs : Γ.env.Sees visible) {target : Ty}
    {fields : NameMap Ty} (hp : Ty.properFields false fields = true) :
    ∀ {entries : List Entry} {seen : List String} {items : List (String × Typed.Expr)},
      (checkFields Γ target fields entries seen).Yields items →
        Typed.Expr.eraseEntries items = normEntries visible entries
  | [], _, items, h => by
    rw [checkFields, Report.yields_pure] at h
    rw [h]
    rfl
  | .positional _ :: rest, seen, items, h => by simp [checkFields] at h
  | .named key value loc :: rest, seen, items, h => by
    rw [checkFields] at h
    split_ifs at h
    · simp at h
    · split at h
      · next ty hl =>
        simp only [Report.yields_bind, Report.yields_pure] at h
        obtain ⟨value', hv, values, hvs, rfl⟩ := h
        rw [Typed.Expr.eraseEntries,
          check_erase hΓ hs (Demand.proper_ofType (Ty.proper_of_lookup hp hl)) hv,
          checkFields_erase hΓ hs hp hvs, normEntries]
      · simp at h

end

end Source.Expr

end LuaTyping
