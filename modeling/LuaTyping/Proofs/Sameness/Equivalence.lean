import LuaTyping.Proofs.Sameness.Parts
import Mathlib.Data.List.Nodup

/-!
# Sameness is equality up to the order of fields

On types that repeat no field name, sameness is an equivalence, and two types are the same exactly if
one is the other with the fields of tables, records and modules permuted, at any depth
(`same_iff_reorders`).  Types that are the same are compatible with the same types, have the same
classification, and have the same fields with types that are the same.
-/

namespace LuaTyping

namespace Ty

variable {ty left right left' right' : Ty} {R S : Ty → Ty → Prop}

/-! ### An equivalence -/

theorem Matches.symm (h : Matches R left right)
    (hsymm : ∀ step p q, left.part step = some p → right.part step = some q → R p q → S q p) :
    Matches S right left where
  head := h.head.symm
  parts := by
    intro step
    cases hp : left.part step with
    | none =>
      rw [h.part_eq_none hp]
      exact .none
    | some p =>
      obtain ⟨q, hq, hR⟩ := h.part hp
      rw [hq]
      exact .some (hsymm step p q hp hq hR)

theorem same_refl (h : ty.Distinct) : ty.same ty = true := by
  induction ty using part_induction with
  | h ty ih =>
    rw [same_iff h.fieldNames h.fieldNames]
    exact .refl fun step part hpart => ih step part hpart (h.part hpart)

theorem compatible_refl (h : ty.Distinct) : ty.compatible ty = true := by
  induction ty using part_induction with
  | h ty ih =>
    rw [compatible_iff h.fieldNames h.fieldNames]
    cases hnominal : ty.isNominal with
    | true => exact .inr (.inr (.inl ⟨rfl, same_refl h⟩))
    | false =>
      refine .inr (.inr (.inr ⟨rfl, .refl fun step part hpart => ?_⟩))
      exact ih step part hpart (h.part hpart)

theorem same_symm (hl : left.Distinct) (hr : right.Distinct) (h : left.same right = true) :
    right.same left = true := by
  induction left using part_induction generalizing right with
  | h left ih =>
    rw [same_iff hl.fieldNames hr.fieldNames] at h
    rw [same_iff hr.fieldNames hl.fieldNames]
    exact h.symm fun step p q hp hq => ih step p hp (hl.part hp) (hr.part hq)

theorem same_comm (hl : left.Distinct) (hr : right.Distinct) : left.same right = right.same left :=
  Bool.eq_iff_iff.mpr ⟨same_symm hl hr, same_symm hr hl⟩

theorem same_trans {third : Ty} (hl : left.Distinct) (hr : right.Distinct) (ht : third.Distinct)
    (h : left.same right = true) (h' : right.same third = true) : left.same third = true := by
  induction left using part_induction generalizing right third with
  | h left ih =>
    rw [same_iff hl.fieldNames hr.fieldNames] at h
    rw [same_iff hr.fieldNames ht.fieldNames] at h'
    rw [same_iff hl.fieldNames ht.fieldNames]
    refine .of_parts (h.head.trans h'.head) (fun step p hp => ?_) (fun step hnone => ?_)
    · obtain ⟨q, hq, hpq⟩ := h.part hp
      obtain ⟨r, hr', hqr⟩ := h'.part hq
      exact ⟨r, hr', ih step p hp (hl.part hp) (hr.part hq) (ht.part hr') hpq hqr⟩
    · exact h'.part_eq_none (h.part_eq_none hnone)

/-! ### Reordered fields -/

mutual

/-- The second type is the first with fields permuted, at any depth. -/
inductive Reorders : Ty → Ty → Prop
  | refl {ty : Ty} : Reorders ty ty
  | array {elem elem' : Ty} : Reorders elem elem' → Reorders (.array elem) (.array elem')
  | table {fields inside permuted : NameMap Ty} : FieldsReorder fields inside →
      inside.Perm permuted → Reorders (.table fields) (.table permuted)
  | record {name : String} {fields inside permuted : NameMap Ty} : FieldsReorder fields inside →
      inside.Perm permuted → Reorders (.record name fields) (.record name permuted)
  | function {params params' returns returns' : List Ty} : List.Forall₂ Reorders params params' →
      List.Forall₂ Reorders returns returns' →
        Reorders (.function params returns) (.function params' returns')
  | module {fields inside permuted : NameMap Ty} : FieldsReorder fields inside →
      inside.Perm permuted → Reorders (.module fields) (.module permuted)

/-- The same names in the same order, with fields permuted inside their types. -/
inductive FieldsReorder : NameMap Ty → NameMap Ty → Prop
  | nil : FieldsReorder [] []
  | cons {name : String} {ty ty' : Ty} {rest rest' : NameMap Ty} : Reorders ty ty' →
      FieldsReorder rest rest' → FieldsReorder ((name, ty) :: rest) ((name, ty') :: rest')

end

theorem FieldsReorder.keys_eq {fields inside : NameMap Ty} (h : FieldsReorder fields inside) :
    inside.keys = fields.keys := by
  induction fields generalizing inside with
  | nil =>
    cases h
    rfl
  | cons entry rest ih =>
    cases h with
    | @cons name _ _ _ _ _ h => exact congrArg (name :: ·) (ih h)

theorem FieldsReorder.lookup {fields inside : NameMap Ty} (h : FieldsReorder fields inside)
    (name : String) : Option.Rel Reorders (fields.lookup name) (inside.lookup name) := by
  induction fields generalizing inside with
  | nil =>
    cases h
    exact .none
  | cons entry rest ih =>
    cases h with
    | cons hty h =>
      rw [NameMap.lookup_cons, NameMap.lookup_cons]
      split
      · exact .some hty
      · exact ih h

theorem lookup_perm {map map' : NameMap Ty} (hn : map.keys.Nodup) (h : map.Perm map')
    (name : String) : map.lookup name = map'.lookup name := by
  have hn' : map'.keys.Nodup := (h.map Prod.fst).nodup_iff.mp hn
  refine Option.ext fun ty => ?_
  rw [NameMap.lookup_eq_some_iff hn, NameMap.lookup_eq_some_iff hn', h.mem_iff]

/-- Maps with related look-ups are related entry by entry, up to a permutation. -/
theorem exists_fieldsReorder {fields permuted : NameMap Ty} (hn : fields.keys.Nodup)
    (hn' : permuted.keys.Nodup)
    (h : ∀ name, Option.Rel Reorders (fields.lookup name) (permuted.lookup name)) :
    ∃ inside, FieldsReorder fields inside ∧ inside.Perm permuted := by
  -- the entries of the second map in the order of the first
  have hinside : ∀ {part : NameMap Ty}, part ⊆ fields → ∃ inside : NameMap Ty,
      FieldsReorder part inside ∧ ∀ entry ∈ inside, permuted.lookup entry.1 = some entry.2 := by
    intro part hpart
    induction part with
    | nil => exact ⟨[], .nil, by simp⟩
    | cons entry rest ih =>
      obtain ⟨inside, hrest, hall⟩ := ih (List.subset_of_cons_subset hpart)
      have hrel := h entry.1
      rw [(NameMap.lookup_eq_some_iff hn).mpr (hpart List.mem_cons_self)] at hrel
      generalize hfound : permuted.lookup entry.1 = found at hrel
      cases hrel with
      | @some _ ty' hty =>
        exact ⟨(entry.1, ty') :: inside, .cons hty hrest,
          List.forall_mem_cons.mpr ⟨hfound, hall⟩⟩
  obtain ⟨inside, hfields, hall⟩ := hinside (List.Subset.refl fields)
  have hkeys := hfields.keys_eq
  refine ⟨inside, hfields, ?_⟩
  have hnodup : inside.Nodup :=
    List.Nodup.of_map Prod.fst (hkeys.symm ▸ hn : inside.keys.Nodup)
  have hsub : inside ⊆ permuted := fun entry hentry =>
    NameMap.mem_of_lookup (hall entry hentry)
  refine (hnodup.subperm hsub).perm_of_length_le ?_
  have hlength := ((NameMap.rel_lookup_iff (R := Reorders) hn hn').mpr h).1
  have hlength' : inside.length = fields.length := by
    simpa [NameMap.keys] using congrArg List.length hkeys
  omega

theorem Reorders.fieldNames_perm (h : Reorders left right) :
    left.fieldNames.Perm right.fieldNames := by
  have hfields : ∀ {fields inside permuted : NameMap Ty}, FieldsReorder fields inside →
      inside.Perm permuted → fields.keys.Perm permuted.keys := by
    intro fields inside permuted hf hp
    rw [← hf.keys_eq]
    exact hp.map Prod.fst
  cases h with
  | refl => exact .refl _
  | array | function => exact .refl _
  | table hf hp | record hf hp | module hf hp => exact hfields hf hp

/-- **Reordering is matching**: it goes through parts and keeps heads. -/
theorem reorders_iff (hl : left.fieldNames.Nodup) (hr : right.fieldNames.Nodup) :
    Reorders left right ↔ Matches Reorders left right := by
  have hlookup : ∀ {fields inside permuted : NameMap Ty}, fields.keys.Nodup →
      FieldsReorder fields inside → inside.Perm permuted →
        ∀ name, Option.Rel Reorders (fields.lookup name) (permuted.lookup name) := by
    intro fields inside permuted hn hf hp name
    rw [← lookup_perm (by rwa [hf.keys_eq]) hp]
    exact hf.lookup name
  constructor
  · intro h
    cases h with
    | refl => exact .refl fun _ _ _ => .refl
    | array h => simpa [matches_iff, head, part] using h
    | table hf hp | record hf hp | module hf hp =>
      simpa [matches_iff, head, part] using hlookup hl hf hp
    | function hp hs =>
      rw [forall₂_iff_getElem?] at hp hs
      simpa [matches_iff, head, part] using ⟨hp, hs⟩
  · intro h
    rw [matches_iff] at h
    cases left <;> cases right <;> simp [head, part] at h
    case array.array => exact .array h
    case table.table =>
      obtain ⟨inside, hf, hp⟩ := exists_fieldsReorder hl hr h
      exact .table hf hp
    case record.record =>
      obtain ⟨inside, hf, hp⟩ := exists_fieldsReorder hl hr h.2
      rw [h.1]
      exact .record hf hp
    case function.function =>
      exact .function (forall₂_iff_getElem?.mpr h.1) (forall₂_iff_getElem?.mpr h.2)
    case module.module =>
      obtain ⟨inside, hf, hp⟩ := exists_fieldsReorder hl hr h
      exact .module hf hp
    all_goals exact .refl

theorem Reorders.distinct (h : Reorders left right) (hl : left.Distinct) : right.Distinct := by
  induction left using part_induction generalizing right with
  | h left ih =>
    have hnames := h.fieldNames_perm.nodup_iff.mp hl.fieldNames
    rw [reorders_iff hl.fieldNames hnames] at h
    have hback : Matches (fun q p => Reorders p q) right left := h.symm fun _ _ _ _ _ hpq => hpq
    refine distinct_iff.mpr ⟨hnames, fun step q hq => ?_⟩
    obtain ⟨p, hp, hpq⟩ := hback.part hq
    exact ih step p hp hpq (hl.part hp)

/-- **Types are the same exactly if one is the other with fields permuted**, at any depth. -/
theorem same_iff_reorders (hl : left.Distinct) (hr : right.Distinct) :
    left.same right = true ↔ Reorders left right := by
  induction left using part_induction generalizing right with
  | h left ih =>
    rw [same_iff hl.fieldNames hr.fieldNames, reorders_iff hl.fieldNames hr.fieldNames]
    constructor
    · intro h
      refine .of_parts h.head (fun step p hp => ?_) (fun _ => h.part_eq_none)
      obtain ⟨q, hq, hpq⟩ := h.part hp
      exact ⟨q, hq, (ih step p hp (hl.part hp) (hr.part hq)).mp hpq⟩
    · intro h
      refine .of_parts h.head (fun step p hp => ?_) (fun _ => h.part_eq_none)
      obtain ⟨q, hq, hpq⟩ := h.part hp
      exact ⟨q, hq, (ih step p hp (hl.part hp) (hr.part hq)).mpr hpq⟩

/-! ### What the checker sees of a type -/

theorem eq_unknown_of_head (h : ty.head = .unknown) : ty = .unknown := by
  cases ty <;> simp [head] at h
  rfl

theorem isNominal_of_head (h : left.head = right.head) : left.isNominal = right.isNominal := by
  cases left <;> cases right <;> simp [head] at h <;> rfl

/-- Compatibility does not tell types apart that are the same. -/
theorem compatible_of_same (hl : left.Distinct) (hl' : left'.Distinct) (hr : right.Distinct)
    (hr' : right'.Distinct) (hleft : left.same left' = true) (hright : right.same right' = true)
    (h : left.compatible right = true) : left'.compatible right' = true := by
  induction left using part_induction generalizing left' right right' with
  | h left ih =>
    have hleft' := (same_iff hl.fieldNames hl'.fieldNames).mp hleft
    have hright' := (same_iff hr.fieldNames hr'.fieldNames).mp hright
    rw [compatible_iff hl.fieldNames hr.fieldNames] at h
    rw [compatible_iff hl'.fieldNames hr'.fieldNames, ← isNominal_of_head hleft'.head]
    rcases h with rfl | rfl | ⟨hnominal, h⟩ | ⟨hstructural, h⟩
    · exact .inl (eq_unknown_of_head hleft'.head.symm)
    · exact .inr (.inl (eq_unknown_of_head hright'.head.symm))
    · have hback := same_symm hl hl' hleft
      exact .inr (.inr (.inl ⟨hnominal,
        same_trans hl' hl hr' hback (same_trans hl hr hr' h hright)⟩))
    · refine .inr (.inr (.inr ⟨hstructural, ?_⟩))
      have hback : Matches (fun p' p => p.same p' = true) left' left :=
        hleft'.symm fun _ _ _ _ _ h => h
      refine .of_parts (hback.head.trans (h.head.trans hright'.head)) (fun step p' hp' => ?_)
        (fun step hnone => hright'.part_eq_none (h.part_eq_none (hback.part_eq_none hnone)))
      obtain ⟨p, hp, hpp'⟩ := hback.part hp'
      obtain ⟨q, hq, hpq⟩ := h.part hp
      obtain ⟨q', hq', hqq'⟩ := hright'.part hq
      exact ⟨q', hq', ih step p hp (hl.part hp) (hl'.part hp') (hr.part hq) (hr'.part hq')
        hpp' hqq' hpq⟩

/-- The type of a field, where the type is a table or a record with this field. -/
def fieldType? (ty : Ty) (name : String) : Option Ty :=
  ty.fields?.bind (·.lookup name)

theorem fieldType?_rel (hl : left.Distinct) (hr : right.Distinct) (h : left.same right = true)
    (name : String) : Option.Rel (fun p q => p.same q = true) (left.fieldType? name)
      (right.fieldType? name) := by
  rw [same_iff hl.fieldNames hr.fieldNames] at h
  have hfield := h.parts (.field name)
  have hhead := h.head
  cases left <;> cases right <;> simp [head] at hhead <;> first | exact hfield | exact .none

/-- The tests that the checker makes on a type look at its head alone. -/
theorem tests_of_head (h : left.head = right.head) :
    left.isGc = right.isGc ∧ left.isNumeric = right.isNumeric ∧
      left.isUnknown = right.isUnknown ∧
        ∀ scalars, left.isModuleField scalars = right.isModuleField scalars := by
  cases left <;> cases right <;> simp [head] at h <;> exact ⟨rfl, rfl, rfl, fun _ => rfl⟩

/-- **Sameness is a congruence that does not see the order of fields.**  On types that repeat no
field name it is an equivalence; it holds exactly between reorderings of one type, so that fields
can be permuted at any depth of either side.  The checker cannot tell types apart that are the same:
they are compatible with the same types, pass the same tests, and have the same fields, with types
that are the same again. -/
theorem same_congruence {a b c : Ty} (ha : a.Distinct) (hb : b.Distinct) (hc : c.Distinct) :
    a.same a = true ∧ a.same b = b.same a ∧
      (a.same b = true → b.same c = true → a.same c = true) ∧
      (a.same b = true ↔ Reorders a b) ∧
      (∀ a' b', Reorders a a' → Reorders b b' → a'.same b' = a.same b) ∧
      ∀ a', a'.Distinct → a.same a' = true →
        (∀ b', b'.Distinct → b.same b' = true → a.compatible b = a'.compatible b') ∧
        (a.isGc = a'.isGc ∧ a.isNumeric = a'.isNumeric ∧ a.isUnknown = a'.isUnknown ∧
          ∀ scalars, a.isModuleField scalars = a'.isModuleField scalars) ∧
        ∀ name, Option.Rel (fun p q => p.same q = true) (a.fieldType? name)
          (a'.fieldType? name) := by
  refine ⟨same_refl ha, same_comm ha hb, same_trans ha hb hc, same_iff_reorders ha hb, ?_, ?_⟩
  · intro a' b' hra hrb
    have ha' := hra.distinct ha
    have hb' := hrb.distinct hb
    have hsa := (same_iff_reorders ha ha').mpr hra
    have hsb := (same_iff_reorders hb hb').mpr hrb
    refine Bool.eq_iff_iff.mpr ⟨fun h => ?_, fun h => ?_⟩
    · exact same_trans ha ha' hb hsa (same_trans ha' hb' hb h (same_symm hb hb' hsb))
    · exact same_trans ha' ha hb' (same_symm ha ha' hsa) (same_trans ha hb hb' h hsb)
  · intro a' ha' hsa
    have hhead := ((same_iff ha.fieldNames ha'.fieldNames).mp hsa).head
    refine ⟨fun b' hb' hsb => ?_, tests_of_head hhead, fieldType?_rel ha ha' hsa⟩
    refine Bool.eq_iff_iff.mpr ⟨compatible_of_same ha ha' hb hb' hsa hsb, ?_⟩
    exact compatible_of_same ha' ha hb' hb (same_symm ha ha' hsa) (same_symm hb hb' hsb)

instance : Decidable ty.Distinct :=
  inferInstanceAs (Decidable (∀ node ∈ ty.nodes, node.fieldNames.Nodup))

/-- A function from tables to records with the same fields. -/
def pointMap (fields : List (String × Ty)) : Ty :=
  .function [.table fields] [.record "Point" fields, .array .any]

/-- The fields of a table and a record inside a function type can be swapped, and what fits the one
fits the other. -/
theorem pointMap_congruence :
    let across := pointMap [("x", .float), ("y", .array .integer)]
    let down := pointMap [("y", .array .integer), ("x", .float)]
    let broken := Ty.function [.table [("x", .float), ("y", .unknown)]] [.unknown, .array .any]
    across.same down = true ∧ across ≠ down ∧ across.compatible broken = true ∧
      down.compatible broken = across.compatible broken := by
  have htable : Reorders (.table [("x", .float), ("y", .array .integer)])
      (.table [("y", .array .integer), ("x", .float)]) :=
    .table (.cons .refl (.cons .refl .nil)) (.swap _ _ _)
  have hrecord : Reorders (.record "Point" [("x", .float), ("y", .array .integer)])
      (.record "Point" [("y", .array .integer), ("x", .float)]) :=
    .record (.cons .refl (.cons .refl .nil)) (.swap _ _ _)
  have hmap : Reorders (pointMap [("x", .float), ("y", .array .integer)])
      (pointMap [("y", .array .integer), ("x", .float)]) :=
    .function (.cons htable .nil) (.cons hrecord (.cons .refl .nil))
  have hdown : (pointMap [("y", .array .integer), ("x", .float)]).Distinct := by decide +kernel
  have hmaps := same_congruence (a := pointMap [("x", .float), ("y", .array .integer)]) (c := .nil)
    (by decide +kernel) hdown (by decide +kernel)
  have hsame := hmaps.2.2.2.1.mpr hmap
  have hbroken := same_congruence (a := pointMap [("x", .float), ("y", .array .integer)])
    (b := .function [.table [("x", .float), ("y", .unknown)]] [.unknown, .array .any]) (c := .nil)
    (by decide +kernel) (by decide +kernel) (by decide +kernel)
  refine ⟨hsame, by simp [pointMap], by decide +kernel, Eq.symm ?_⟩
  exact (hbroken.2.2.2.2.2 _ hdown hsame).1 _ (by decide +kernel) (by decide +kernel)

end Ty

end LuaTyping
