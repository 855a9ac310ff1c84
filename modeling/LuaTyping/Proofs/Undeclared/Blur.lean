import LuaTyping.Proofs.Proper.Ty
import Mathlib.Data.List.Forall2

/-!
# Types with parts that are unknown

`ty.Blurs ρ ty'` says that `ty'` is `ty` with parts replaced by `unknown`.  A record keeps its name,
and `ρ` says which fields it has after the replacement: these are the same wherever its name
occurs.  Blurred types of one type are compatible (`Blurs.compatible`), but need not be the same; a
blurred type is the same as itself (`Blurs.same_self`).
-/

namespace LuaTyping

namespace Ty

mutual

/-- The second type is the first with parts replaced by `unknown`. -/
inductive Blurs (ρ : String → NameMap Ty) : Ty → Ty → Prop
  | unknown {ty : Ty} : Blurs ρ ty .unknown
  | nil : Blurs ρ .nil .nil
  | boolean : Blurs ρ .boolean .boolean
  | integer : Blurs ρ .integer .integer
  | float : Blurs ρ .float .float
  | string : Blurs ρ .string .string
  | any : Blurs ρ .any .any
  | array {elem elem' : Ty} : Blurs ρ elem elem' → Blurs ρ (.array elem) (.array elem')
  | table {fields fields' : NameMap Ty} : FieldsBlur ρ fields fields' → fields'.keys.Nodup →
      Blurs ρ (.table fields) (.table fields')
  | record {name : String} {fields fields' : NameMap Ty} : fields' = ρ name →
      FieldsBlur ρ fields fields' → fields'.keys.Nodup →
        Blurs ρ (.record name fields) (.record name fields')
  | function {params params' returns returns' : List Ty} :
      List.Forall₂ (Blurs ρ) params params' → List.Forall₂ (Blurs ρ) returns returns' →
        Blurs ρ (.function params returns) (.function params' returns')
  | module : Blurs ρ (.module []) (.module [])

/-- The same names in the same order, with blurred types. -/
inductive FieldsBlur (ρ : String → NameMap Ty) : NameMap Ty → NameMap Ty → Prop
  | nil : FieldsBlur ρ [] []
  | cons {key : String} {ty ty' : Ty} {rest rest' : NameMap Ty} : Blurs ρ ty ty' →
      FieldsBlur ρ rest rest' → FieldsBlur ρ ((key, ty) :: rest) ((key, ty') :: rest')

end

variable {ρ : String → NameMap Ty}

/-! ### Fields -/

theorem FieldsBlur.keys_eq {fields fields' : NameMap Ty} (h : FieldsBlur ρ fields fields') :
    fields'.keys = fields.keys := by
  induction fields generalizing fields' with
  | nil =>
    cases h
    rfl
  | cons entry fields ih =>
    cases h with
    | @cons key _ _ _ _ _ h =>
      simp only [NameMap.keys, List.map_cons]
      exact congrArg (key :: ·) (ih h)

theorem FieldsBlur.length_eq {fields fields' : NameMap Ty} (h : FieldsBlur ρ fields fields') :
    fields'.length = fields.length := by
  simpa [NameMap.keys] using congrArg List.length h.keys_eq

theorem FieldsBlur.lookup : ∀ {fields fields' : NameMap Ty}, FieldsBlur ρ fields fields' →
    ∀ key, Option.Rel (Blurs ρ) (fields.lookup key) (fields'.lookup key)
  | _, _, .nil, _ => .none
  | (other, _) :: _, _, .cons hty h, key => by
    rw [NameMap.lookup_cons, NameMap.lookup_cons]
    split_ifs
    · exact .some hty
    · exact h.lookup key

theorem FieldsBlur.lookup_some {fields fields' : NameMap Ty} {key : String} {ty : Ty}
    (h : FieldsBlur ρ fields fields') (hl : fields.lookup key = some ty) :
    ∃ ty', fields'.lookup key = some ty' ∧ ty.Blurs ρ ty' := by
  have hrel := h.lookup key
  rw [hl] at hrel
  generalize fields'.lookup key = found at hrel
  cases hrel with
  | some hty => exact ⟨_, rfl, hty⟩

theorem FieldsBlur.contains_eq {fields fields' : NameMap Ty} {key : String}
    (h : FieldsBlur ρ fields fields') : fields'.contains key = fields.contains key := by
  have hrel := h.lookup key
  unfold NameMap.contains
  generalize fields.lookup key = found, fields'.lookup key = found' at hrel ⊢
  cases hrel <;> rfl

/-! ### A blurred type is the same as itself -/

theorem sameFields_of_forall {fields : NameMap Ty} : ∀ {part : NameMap Ty},
    (∀ entry ∈ part, fields.lookup entry.1 = some entry.2 ∧ entry.2.same entry.2 = true) →
      sameFields part fields = true
  | [], _ => rfl
  | (key, ty) :: rest, h => by
    rw [List.forall_mem_cons] at h
    rw [sameFields, h.1.1, Bool.and_eq_true]
    exact ⟨h.1.2, sameFields_of_forall h.2⟩

theorem sameFields_self {fields : NameMap Ty} (hn : fields.keys.Nodup)
    (h : ∀ entry ∈ fields, entry.2.same entry.2 = true) : sameFields fields fields = true :=
  sameFields_of_forall fun entry he => ⟨(NameMap.lookup_eq_some_iff hn).mpr he, h entry he⟩

mutual

/-- **A blurred type is the same as itself.** -/
theorem Blurs.same_self : ∀ {ty ty' : Ty}, ty.Blurs ρ ty' → ty'.same ty' = true
  | _, _, .unknown | _, _, .nil | _, _, .boolean | _, _, .integer | _, _, .float | _, _, .string
  | _, _, .any | _, _, .module => rfl
  | .array _, _, .array h => by
    rw [same]
    exact h.same_self
  | .table _, _, .table h hn => by
    simp only [same, beq_self_eq_true, Bool.true_and]
    exact sameFields_self hn h.same_self
  | .record _ _, _, .record _ h hn => by
    simp only [same, beq_self_eq_true, Bool.true_and]
    exact sameFields_self hn h.same_self
  | .function _ _, _, .function hp hr => by
    rw [same, Bool.and_eq_true]
    exact ⟨Blurs.sameList_self hp, Blurs.sameList_self hr⟩

theorem Blurs.sameList_self : ∀ {tys tys' : List Ty}, List.Forall₂ (Blurs ρ) tys tys' →
    sameList tys' tys' = true
  | _, _, .nil => rfl
  | _ :: _, _, .cons h hs => by
    rw [sameList, Bool.and_eq_true]
    exact ⟨h.same_self, Blurs.sameList_self hs⟩

theorem FieldsBlur.same_self : ∀ {fields fields' : NameMap Ty}, FieldsBlur ρ fields fields' →
    ∀ entry ∈ fields', entry.2.same entry.2 = true
  | _, _, .nil => by simp
  | _ :: _, _, .cons h hs => List.forall_mem_cons.mpr ⟨h.same_self, hs.same_self⟩

end

/-! ### Blurred types of one type are compatible -/

theorem compatible_unknown_right {ty : Ty} : ty.compatible .unknown = true := by
  cases ty <;> rfl

mutual

/-- **Blurred types of the same type are compatible.** -/
theorem Blurs.compatible : ∀ {left right left' right' : Ty}, left.same right = true →
    left.Blurs ρ left' → right.Blurs ρ right' → left'.compatible right' = true
  | _, _, _, _, _, .unknown, _ => by simp [Ty.compatible]
  | _, _, _, _, _, _, .unknown => compatible_unknown_right
  | _, right, _, _, h, .nil, hr | _, right, _, _, h, .boolean, hr | _, right, _, _, h, .integer, hr
  | _, right, _, _, h, .float, hr | _, right, _, _, h, .string, hr | _, right, _, _, h, .any, hr => by
    cases right <;> simp only [same, Bool.false_eq_true] at h
    cases hr <;> rfl
  | .array _, right, _, _, h, .array hl, hr => by
    cases right <;> simp only [same, Bool.false_eq_true] at h
    cases hr with
    | unknown => exact compatible_unknown_right
    | array hr =>
      rw [Ty.compatible]
      exact Blurs.compatible h hl hr
  | .table _, right, _, _, h, .table hl _, hr => by
    cases right <;> simp only [same, Bool.false_eq_true, Bool.and_eq_true, beq_iff_eq] at h
    cases hr with
    | unknown => exact compatible_unknown_right
    | table hr _ =>
      rw [Ty.compatible, Bool.and_eq_true, beq_iff_eq, hl.length_eq, hr.length_eq]
      exact ⟨h.1, FieldsBlur.compatible h.2 hl hr⟩
  | .record _ _, right, _, _, h, .record hρ hl hn, hr => by
    cases right <;> simp only [same, Bool.false_eq_true, Bool.and_eq_true, beq_iff_eq] at h
    cases hr with
    | unknown => exact compatible_unknown_right
    | record hρ' _ _ =>
      -- both have the fields of the one record with this name
      obtain ⟨⟨rfl, -⟩, -⟩ := h
      rw [Ty.compatible, hρ', ← hρ]
      · exact (Blurs.record hρ hl hn).same_self
      all_goals simp
  | .function _ _, right, _, _, h, .function hp hs, hr => by
    cases right <;> simp only [same, Bool.false_eq_true, Bool.and_eq_true] at h
    cases hr with
    | unknown => exact compatible_unknown_right
    | function hp' hs' =>
      rw [Ty.compatible, Bool.and_eq_true]
      exact ⟨Blurs.compatibleList h.1 hp hp', Blurs.compatibleList h.2 hs hs'⟩
  | _, right, _, _, h, .module, hr => by
    cases right <;> simp only [same, Bool.false_eq_true] at h
    cases hr <;> rfl
termination_by structural left => left

theorem Blurs.compatibleList : ∀ {left right left' right' : List Ty}, sameList left right = true →
    List.Forall₂ (Blurs ρ) left left' → List.Forall₂ (Blurs ρ) right right' →
      compatibleList left' right' = true
  | _, _, _, _, _, .nil, .nil => rfl
  | _, _, _, _, h, .nil, .cons _ _ => by simp [sameList] at h
  | _ :: _, _, _, _, h, .cons _ _, .nil => by simp [sameList] at h
  | _ :: _, _, _, _, h, .cons hl hls, .cons hr hrs => by
    rw [sameList, Bool.and_eq_true] at h
    rw [compatibleList, Bool.and_eq_true]
    exact ⟨Blurs.compatible h.1 hl hr, Blurs.compatibleList h.2 hls hrs⟩
termination_by structural left => left

theorem FieldsBlur.compatible : ∀ {left right left' right' : NameMap Ty},
    sameFields left right = true → FieldsBlur ρ left left' → FieldsBlur ρ right right' →
      compatibleFields left' right' = true
  | _, _, _, _, _, .nil, _ => by simp [compatibleFields]
  | (key, _) :: _, right, _, _, h, .cons hl hls, hr => by
    rw [sameFields, Bool.and_eq_true] at h
    cases hfound : right.lookup key with
    | none => simp [hfound] at h
    | some ty =>
      rw [hfound] at h
      obtain ⟨ty', hty', hblur⟩ := hr.lookup_some hfound
      rw [compatibleFields, hty', Bool.and_eq_true]
      exact ⟨Blurs.compatible h.1 hl hblur, FieldsBlur.compatible h.2 hls hr⟩
termination_by structural left => left

end

/-- Blurred types of types that go together go together. -/
theorem Blurs.compatible_of_proper {left right left' right' : Ty} (hl : left.Blurs ρ left')
    (hr : right.Blurs ρ right') (hpl : left.proper true = true) (hpr : right.proper true = true)
    (h : left.compatible right = true) : left'.compatible right' = true := by
  rw [compatible_eq_same hpl hpr] at h
  exact Blurs.compatible h hl hr

/-! ### Types without records -/

mutual

/-- Whether no record occurs in the type, and all its tables have distinct fields. -/
def recordFree : Ty → Bool
  | .array elem => recordFree elem
  | .table fields => decide (NameMap.keys fields).Nodup && recordFreeFields fields
  | .record _ _ => false
  | .function params returns => recordFreeList params && recordFreeList returns
  | _ => true

/-- Whether no record occurs in the types. -/
def recordFreeList : List Ty → Bool
  | [] => true
  | ty :: rest => recordFree ty && recordFreeList rest

/-- Whether no record occurs in the types of the fields. -/
def recordFreeFields : List (String × Ty) → Bool
  | [] => true
  | (_, ty) :: rest => recordFree ty && recordFreeFields rest

end

mutual

/-- A type without records is one of its blurred types. -/
theorem Blurs.refl : ∀ {ty : Ty}, ty.proper false = true → ty.recordFree = true → ty.Blurs ρ ty
  | .nil, _, _ => .nil
  | .boolean, _, _ => .boolean
  | .integer, _, _ => .integer
  | .float, _, _ => .float
  | .string, _, _ => .string
  | .any, _, _ => .any
  | .unknown, _, _ => .unknown
  | .array elem, hp, hr => .array (Blurs.refl hp hr)
  | .table fields, hp, hr => by
    rw [recordFree, Bool.and_eq_true, decide_eq_true_eq] at hr
    exact .table (FieldsBlur.refl hp hr.2) hr.1
  | .function params returns, hp, hr => by
    rw [recordFree, Bool.and_eq_true] at hr
    rw [proper, Bool.and_eq_true] at hp
    exact .function (Blurs.refl_list hp.1 hr.1) (Blurs.refl_list hp.2 hr.2)
  | .record _ _, _, hr => by cases hr
  | .module _, hp, _ => by cases hp

theorem Blurs.refl_list : ∀ {tys : List Ty}, properList false tys = true →
    recordFreeList tys = true → List.Forall₂ (Blurs ρ) tys tys
  | [], _, _ => .nil
  | ty :: rest, hp, hr => by
    rw [recordFreeList, Bool.and_eq_true] at hr
    rw [properList, Bool.and_eq_true] at hp
    exact .cons (Blurs.refl hp.1 hr.1) (Blurs.refl_list hp.2 hr.2)

theorem FieldsBlur.refl : ∀ {fields : List (String × Ty)}, properFields false fields = true →
    recordFreeFields fields = true → FieldsBlur ρ fields fields
  | [], _, _ => .nil
  | (key, ty) :: rest, hp, hr => by
    rw [recordFreeFields, Bool.and_eq_true] at hr
    rw [properFields, Bool.and_eq_true] at hp
    exact .cons (Blurs.refl hp.1 hr.1) (FieldsBlur.refl hp.2 hr.2)

end

end Ty

end LuaTyping
