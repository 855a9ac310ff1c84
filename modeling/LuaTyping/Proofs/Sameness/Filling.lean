import LuaTyping.Proofs.Proper.Ty
import LuaTyping.Proofs.Sameness.Equivalence

/-!
# Compatibility is sameness up to holes

An occurrence of `unknown` is a hole that stands for some type.  `ty.fill holes` is the type with its
holes filled, where `holes` says for each place, given by the steps that lead to it, what to put
there.  Two types are compatible exactly if their holes can be filled so that the results are the
same (`exists_fill_of_compatible`, `compatible_of_fill`).

Records and modules are compared as wholes, so this asks that the fields of a record are determined
by its name, and those of modules altogether (`Coherent`); this is so where every record name has
one declaration.
-/

namespace LuaTyping

namespace Ty

mutual

/-- The type with each `unknown` replaced by what is given for its place. -/
def fill (holes : List Step → Ty) : Ty → Ty
  | .array elem => .array (fill (fun path => holes (.elem :: path)) elem)
  | .table fields => .table (fillFields holes fields)
  | .record name fields => .record name (fillFields holes fields)
  | .function params returns =>
    .function (fillList (fun position path => holes (.param position :: path)) params)
      (fillList (fun position path => holes (.result position :: path)) returns)
  | .module fields => .module (fillFields holes fields)
  | .unknown => holes []
  | ty => ty

/-- Types filled by what is given for each position. -/
def fillList (holes : Nat → List Step → Ty) : List Ty → List Ty
  | [] => []
  | ty :: rest => fill (holes 0) ty :: fillList (fun position => holes (position + 1)) rest

/-- Fields filled by what is given for each name. -/
def fillFields (holes : List Step → Ty) : List (String × Ty) → List (String × Ty)
  | [] => []
  | (name, ty) :: rest =>
    (name, fill (fun path => holes (.field name :: path)) ty) :: fillFields holes rest

end

/-- Of the types, records with one name are the same, and so are modules. -/
structure Coherent (types : List Ty) : Prop where
  record : ∀ {name : String} {fields fields' : List (String × Ty)}, .record name fields ∈ types →
    .record name fields' ∈ types → Ty.same (.record name fields) (.record name fields') = true
  module : ∀ {fields fields' : List (String × Ty)}, .module fields ∈ types →
    .module fields' ∈ types → Ty.same (.module fields) (.module fields') = true

variable {ty left right : Ty} {holes : List Step → Ty}

/-! ### Heads and parts of filled types -/

theorem getElem?_fillList {holes : Nat → List Step → Ty} {tys : List Ty} {position : Nat} :
    (fillList holes tys)[position]? = tys[position]?.map (fill (holes position)) := by
  induction tys generalizing holes position with
  | nil => simp [fillList]
  | cons ty rest ih =>
    cases position with
    | zero => simp [fillList]
    | succ position => simp [fillList, ih]

theorem keys_fillFields {fields : NameMap Ty} :
    NameMap.keys (fillFields holes fields) = fields.keys := by
  induction fields with
  | nil => rfl
  | cons entry rest ih => exact congrArg (entry.1 :: ·) ih

theorem lookup_fillFields {fields : NameMap Ty} {name : String} :
    (fillFields holes fields).lookup name =
      (fields.lookup name).map (fill fun path => holes (.field name :: path)) := by
  induction fields with
  | nil => rfl
  | cons entry rest ih =>
    rw [fillFields, NameMap.lookup_cons, NameMap.lookup_cons]
    split
    · next hname =>
      rw [hname]
      rfl
    · exact ih

theorem head_fill (h : ty ≠ .unknown) : (ty.fill holes).head = ty.head := by
  cases ty <;> first | rfl | exact absurd rfl h

theorem fieldNames_fill (h : ty ≠ .unknown) : (ty.fill holes).fieldNames = ty.fieldNames := by
  cases ty <;> first | rfl | exact keys_fillFields | exact absurd rfl h

/-- The parts of a filled type are the filled parts. -/
theorem part_fill (h : ty ≠ .unknown) (step : Step) :
    (ty.fill holes).part step = (ty.part step).map (fill fun path => holes (step :: path)) := by
  cases ty with
  | array elem => cases step <;> rfl
  | table fields | record _ fields | module fields =>
    cases step <;> first | rfl | exact lookup_fillFields
  | function params returns => cases step <;> first | rfl | exact getElem?_fillList
  | unknown => exact absurd rfl h
  | _ => cases step <;> rfl

mutual

/-- Filling holes with holes changes nothing. -/
theorem fill_unknown : ∀ ty : Ty, ty.fill (fun _ => .unknown) = ty
  | .array elem => by rw [fill, fill_unknown elem]
  | .table fields => by rw [fill, fillFields_unknown fields]
  | .record _ fields => by rw [fill, fillFields_unknown fields]
  | .function params returns => by rw [fill, fillList_unknown params, fillList_unknown returns]
  | .module fields => by rw [fill, fillFields_unknown fields]
  | .nil | .boolean | .integer | .float | .string | .any | .unknown => by rfl

theorem fillList_unknown : ∀ tys : List Ty, fillList (fun _ _ => .unknown) tys = tys
  | [] => by rfl
  | ty :: rest => by rw [fillList, fill_unknown ty, fillList_unknown rest]

theorem fillFields_unknown : ∀ fields : List (String × Ty),
    fillFields (fun _ => .unknown) fields = fields
  | [] => by rfl
  | (name, ty) :: rest => by rw [fillFields, fill_unknown ty, fillFields_unknown rest]

end

/-! ### Compatible types have a common filling -/

theorem distinct_unknown : Ty.unknown.Distinct := by
  decide

theorem Coherent.of_part {left' right' : Ty} {step step' : Step}
    (h : Coherent (left.nodes ++ right.nodes)) (hl : left.part step = some left')
    (hr : right.part step' = some right') : Coherent (left'.nodes ++ right'.nodes) := by
  have hsub : left'.nodes ++ right'.nodes ⊆ left.nodes ++ right.nodes := by
    intro node hnode
    rcases List.mem_append.mp hnode with hnode | hnode
    · exact List.mem_append_left _ (nodes_subset_of_part hl hnode)
    · exact List.mem_append_right _ (nodes_subset_of_part hr hnode)
  exact ⟨fun hmem hmem' => h.record (hsub hmem) (hsub hmem'),
    fun hmem hmem' => h.module (hsub hmem) (hsub hmem')⟩

/-- Records with one name, and modules, are the same in coherent types. -/
theorem Coherent.same_of_isNominal (h : Coherent (left.nodes ++ right.nodes))
    (hnominal : left.isNominal = true) (hhead : left.head = right.head) :
    left.same right = true := by
  have hl : left ∈ left.nodes ++ right.nodes := List.mem_append_left _ self_mem_nodes
  have hr : right ∈ left.nodes ++ right.nodes := List.mem_append_right _ self_mem_nodes
  cases left <;> simp [isNominal] at hnominal <;> cases right <;> simp [head] at hhead
  · rw [hhead] at hl ⊢
    rw [hhead] at hr h
    exact h.record hl hr
  · exact h.module hl hr

/-- What is given for the places below each step, with nothing to fill at the start. -/
def belowSteps (holes : Step → List Step → Ty) : List Step → Ty
  | [] => .unknown
  | step :: path => holes step path

theorem distinct_belowSteps {holes : Step → List Step → Ty}
    (h : ∀ step path, (holes step path).Distinct) (path : List Step) :
    (belowSteps holes path).Distinct := by
  cases path with
  | nil => exact distinct_unknown
  | cons step path => exact h step path

/-- **Compatible types have a common filling.** -/
theorem exists_fill_of_compatible (hl : left.Distinct) (hr : right.Distinct)
    (h : left.compatible right = true) :
    ∃ holes holes' : List Step → Ty, (∀ path, (holes path).Distinct) ∧
      (∀ path, (holes' path).Distinct) ∧ (left.fill holes).same (right.fill holes') = true := by
  induction left using part_induction generalizing right with
  | h left ih =>
    have hunknown : ∀ _ : List Step, Ty.unknown.Distinct := fun _ => distinct_unknown
    by_cases hleft : left = .unknown
    · refine ⟨fun _ => right, fun _ => .unknown, fun _ => hr, hunknown, ?_⟩
      rw [hleft, fill, fill_unknown]
      exact same_refl hr
    by_cases hright : right = .unknown
    · refine ⟨fun _ => .unknown, fun _ => left, hunknown, fun _ => hl, ?_⟩
      rw [hright, fill, fill_unknown]
      exact same_refl hl
    rcases (compatible_iff hl.fieldNames hr.fieldNames).mp h with h | h | ⟨-, h⟩ | ⟨-, h⟩
    · exact absurd h hleft
    · exact absurd h hright
    · -- the same records and modules need not be filled
      refine ⟨fun _ => .unknown, fun _ => .unknown, hunknown, hunknown, ?_⟩
      rw [fill_unknown, fill_unknown]
      exact h
    · have hparts : ∀ step, ∃ holes holes' : List Step → Ty, (∀ path, (holes path).Distinct) ∧
          (∀ path, (holes' path).Distinct) ∧ Option.Rel (fun p q => p.same q = true)
            ((left.part step).map (fill holes)) ((right.part step).map (fill holes')) := by
        intro step
        cases hp : left.part step with
        | none =>
          rw [h.part_eq_none hp]
          exact ⟨_, _, hunknown, hunknown, .none⟩
        | some p =>
          obtain ⟨q, hq, hpq⟩ := h.part hp
          obtain ⟨holes, holes', hd, hd', hsame⟩ := ih step p hp (hl.part hp) (hr.part hq) hpq
          rw [hq]
          exact ⟨holes, holes', hd, hd', .some hsame⟩
      -- different steps lead to different holes, so the fillings of the parts do not get in each
      -- other's way
      choose holes holes' hd hd' hsame using hparts
      refine ⟨belowSteps holes, belowSteps holes', distinct_belowSteps hd, distinct_belowSteps hd',
        ?_⟩
      rw [same_iff (by rw [fieldNames_fill hleft]; exact hl.fieldNames)
        (by rw [fieldNames_fill hright]; exact hr.fieldNames)]
      refine ⟨by rw [head_fill hleft, head_fill hright, h.head], fun step => ?_⟩
      rw [part_fill hleft, part_fill hright]
      exact hsame step

/-- **Types with a common filling are compatible**, whatever they are filled with. -/
theorem compatible_of_fill {holes' : List Step → Ty} (hl : left.Distinct) (hr : right.Distinct)
    (hc : Coherent (left.nodes ++ right.nodes))
    (h : (left.fill holes).same (right.fill holes') = true) : left.compatible right = true := by
  induction left using part_induction generalizing right holes holes' with
  | h left ih =>
    rw [compatible_iff hl.fieldNames hr.fieldNames]
    by_cases hleft : left = .unknown
    · exact .inl hleft
    by_cases hright : right = .unknown
    · exact .inr (.inl hright)
    rw [same_iff (by rw [fieldNames_fill hleft]; exact hl.fieldNames)
      (by rw [fieldNames_fill hright]; exact hr.fieldNames)] at h
    have hhead : left.head = right.head := by
      rw [← head_fill hleft, ← head_fill hright, h.head]
    refine .inr (.inr ?_)
    cases hnominal : left.isNominal with
    | true => exact .inl ⟨rfl, hc.same_of_isNominal hnominal hhead⟩
    | false =>
      refine .inr ⟨rfl, hhead, fun step => ?_⟩
      have hrel := h.parts step
      rw [part_fill hleft, part_fill hright] at hrel
      cases hp : left.part step <;> cases hq : right.part step <;> rw [hp, hq] at hrel <;>
        cases hrel
      · exact .none
      · next p q hpq =>
        exact .some (ih step p hp (hl.part hp) (hr.part hq) (hc.of_part hp hq) hpq)

theorem compatible_symm (hl : left.Distinct) (hr : right.Distinct)
    (h : left.compatible right = true) : right.compatible left = true := by
  induction left using part_induction generalizing right with
  | h left ih =>
    rw [compatible_iff hl.fieldNames hr.fieldNames] at h
    rw [compatible_iff hr.fieldNames hl.fieldNames]
    rcases h with h | h | ⟨hnominal, h⟩ | ⟨hstructural, h⟩
    · exact .inr (.inl h)
    · exact .inl h
    · have hhead := ((same_iff hl.fieldNames hr.fieldNames).mp h).head
      exact .inr (.inr (.inl ⟨isNominal_of_head hhead ▸ hnominal, same_symm hl hr h⟩))
    · refine .inr (.inr (.inr ⟨isNominal_of_head h.head ▸ hstructural, ?_⟩))
      exact h.symm fun step p q hp hq => ih step p hp (hl.part hp) (hr.part hq)

/-- **Compatibility is sameness up to holes.**  Types that repeat no field name, and in which the
fields of a record are determined by its name and those of modules altogether, are compatible exactly
if each `unknown` in them can be replaced by some type so that the results are the same.  So
compatibility is symmetric, and without `unknown` it is sameness. -/
theorem compatible_iff_fill {left right : Ty} (hl : left.Distinct) (hr : right.Distinct)
    (hc : Coherent (left.nodes ++ right.nodes)) :
    (left.compatible right = true ↔ ∃ holes holes' : List Step → Ty,
      (∀ path, (holes path).Distinct) ∧ (∀ path, (holes' path).Distinct) ∧
        (left.fill holes).same (right.fill holes') = true) ∧
      left.compatible right = right.compatible left ∧
      (left.proper true = true → right.proper true = true →
        left.compatible right = left.same right) := by
  refine ⟨⟨exists_fill_of_compatible hl hr, ?_⟩, ?_, compatible_eq_same⟩
  · rintro ⟨holes, holes', -, -, h⟩
    exact compatible_of_fill hl hr hc h
  · exact Bool.eq_iff_iff.mpr ⟨compatible_symm hl hr, compatible_symm hr hl⟩

/-- A function that takes a table with a broken record and another field, and gives something. -/
def handler (name : String) (ty given : Ty) : Ty :=
  .function [.table [("item", .record "Item" [("id", .unknown)]), (name, ty)]] [given]

theorem coherent_handlers {name name' : String} :
    Coherent ((handler name .unknown .unknown).nodes ++
      (handler name' (.array .unknown) .string).nodes) := by
  constructor
  · intro record fields fields' h h'
    simp [handler, nodes, listNodes, fieldNodes] at h h'
    obtain ⟨rfl, rfl⟩ := h
    obtain ⟨-, rfl⟩ := h'
    rfl
  · intro fields fields' h
    simp [handler, nodes, listNodes, fieldNodes] at h

/-- Handlers fit where what is unknown of the one is known of the other; with different fields no
filling makes them the same. -/
theorem handlers_fill :
    (∃ holes holes', ((handler "at" .unknown .unknown).fill holes).same
        ((handler "at" (.array .unknown) .string).fill holes') = true) ∧
      ¬∃ holes holes' : List Step → Ty, (∀ path, (holes path).Distinct) ∧
        (∀ path, (holes' path).Distinct) ∧ ((handler "at" .unknown .unknown).fill holes).same
          ((handler "to" (.array .unknown) .string).fill holes') = true := by
  have hat := @compatible_iff_fill (handler "at" .unknown .unknown)
    (handler "at" (.array .unknown) .string) (by decide +kernel) (by decide +kernel)
    coherent_handlers
  have hto := @compatible_iff_fill (handler "at" .unknown .unknown)
    (handler "to" (.array .unknown) .string) (by decide +kernel) (by decide +kernel)
    coherent_handlers
  constructor
  · obtain ⟨holes, holes', -, -, h⟩ := hat.1.mp (by decide +kernel)
    exact ⟨holes, holes', h⟩
  · rw [← hto.1]
    decide +kernel

end Ty

end LuaTyping
