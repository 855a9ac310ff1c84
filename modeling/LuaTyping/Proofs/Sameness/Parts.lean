import LuaTyping.Ty.Equality
import Mathlib.Data.List.Forall2
import Mathlib.Data.List.Perm.Subperm

/-!
# The parts of a type

A type has a head, which says what kind of type it is and for a record also its name, and parts that
are reached by steps: the element of an array, the field with a name, the parameter or the result at
a position.  Two types *match* for a relation if their heads are equal and their parts are related,
step by step.

Sameness and compatibility look for each field of the one type in the other and compare the numbers
of fields.  Where field names are not repeated this is matching (`same_iff`, `compatible_iff`), which
is the same in both directions and does not depend on the order of the fields.
-/

namespace LuaTyping

namespace Ty

/-- A step from a type to one of its parts. -/
inductive Step where
  | elem
  | field (name : String)
  | param (position : Nat)
  | result (position : Nat)

/-- A type without its parts. -/
inductive Head where
  | nil
  | boolean
  | integer
  | float
  | string
  | any
  | array
  | table
  | record (name : String)
  | function
  | module
  | unknown

/-- The head of a type. -/
def head : Ty → Head
  | .nil => .nil
  | .boolean => .boolean
  | .integer => .integer
  | .float => .float
  | .string => .string
  | .any => .any
  | .array _ => .array
  | .table _ => .table
  | .record name _ => .record name
  | .function .. => .function
  | .module _ => .module
  | .unknown => .unknown

/-- The part that a step leads to. -/
def part : Ty → Step → Option Ty
  | .array elem, .elem => some elem
  | .table fields, .field name => fields.lookup name
  | .record _ fields, .field name => fields.lookup name
  | .module fields, .field name => fields.lookup name
  | .function params _, .param position => params[position]?
  | .function _ returns, .result position => returns[position]?
  | _, _ => none

/-- The names of the fields, of whatever kind the type is. -/
def fieldNames : Ty → List String
  | .table fields | .record _ fields | .module fields => NameMap.keys fields
  | _ => []

/-- Whether the type is a record or a module. -/
def isNominal : Ty → Bool
  | .record .. | .module _ => true
  | _ => false

mutual

/-- The types that occur in a type, itself included. -/
def nodes : Ty → List Ty
  | .array elem => .array elem :: nodes elem
  | .table fields => .table fields :: fieldNodes fields
  | .record name fields => .record name fields :: fieldNodes fields
  | .function params returns => .function params returns :: (listNodes params ++ listNodes returns)
  | .module fields => .module fields :: fieldNodes fields
  | ty => [ty]

/-- The types that occur in types. -/
def listNodes : List Ty → List Ty
  | [] => []
  | ty :: rest => nodes ty ++ listNodes rest

/-- The types that occur in fields. -/
def fieldNodes : List (String × Ty) → List Ty
  | [] => []
  | (_, ty) :: rest => nodes ty ++ fieldNodes rest

end

/-- No type that occurs in the type repeats a field name. -/
def Distinct (ty : Ty) : Prop :=
  ∀ node ∈ ty.nodes, node.fieldNames.Nodup

variable {ty left right : Ty}

theorem mem_listNodes {node : Ty} {tys : List Ty} :
    node ∈ listNodes tys ↔ ∃ ty ∈ tys, node ∈ ty.nodes := by
  induction tys with
  | nil => simp [listNodes]
  | cons ty rest ih => simp [listNodes, ih]

theorem mem_fieldNodes {node : Ty} {fields : List (String × Ty)} :
    node ∈ fieldNodes fields ↔ ∃ entry ∈ fields, node ∈ entry.2.nodes := by
  induction fields with
  | nil => simp [fieldNodes]
  | cons entry rest ih => simp [fieldNodes, ih]

theorem self_mem_nodes : ty ∈ ty.nodes := by
  cases ty <;> simp [nodes]

end Ty

/-! ### Look-ups in maps without repeated names -/

namespace NameMap

variable {α β : Type} {R : α → β → Prop}

/-- As many entries, and each entry of the first in the second: then the maps have the same names,
with related values. -/
theorem rel_lookup_iff {first : NameMap α} {second : NameMap β} (hf : first.keys.Nodup)
    (hs : second.keys.Nodup) :
    (first.length = second.length ∧
        ∀ entry ∈ first, ∃ value, second.lookup entry.1 = some value ∧ R entry.2 value) ↔
      ∀ name, Option.Rel R (first.lookup name) (second.lookup name) := by
  constructor
  · rintro ⟨hlength, hall⟩ name
    cases hfirst : first.lookup name with
    | some value =>
      obtain ⟨value', hvalue', hR⟩ := hall _ (mem_of_lookup hfirst)
      rw [hvalue']
      exact .some hR
    | none =>
      -- a name of the second alone would leave the first with fewer names
      have hsub : first.keys ⊆ second.keys := by
        intro key hkey
        obtain ⟨entry, hentry, rfl⟩ := List.mem_map.mp hkey
        obtain ⟨value, hvalue, -⟩ := hall entry hentry
        exact List.mem_map_of_mem (mem_of_lookup hvalue)
      have hperm : first.keys.Perm second.keys :=
        (hf.subperm hsub).perm_of_length_le (by simp [keys, hlength])
      rw [lookup_eq_none_iff, hperm.mem_iff, ← lookup_eq_none_iff] at hfirst
      rw [hfirst]
      exact .none
  · intro hrel
    have hperm : first.keys.Perm second.keys := by
      refine (List.perm_ext_iff_of_nodup hf hs).mpr fun name => ?_
      have hname := hrel name
      rw [← not_iff_not, ← lookup_eq_none_iff, ← lookup_eq_none_iff]
      cases hx : first.lookup name <;> cases hy : second.lookup name <;> rw [hx, hy] at hname <;>
        first | (cases hname; done) | simp
    refine ⟨by simpa [keys] using hperm.length_eq, fun entry hentry => ?_⟩
    have hname := hrel entry.1
    rw [(lookup_eq_some_iff hf).mpr hentry] at hname
    generalize second.lookup entry.1 = found at hname
    cases hname with
    | some hR => exact ⟨_, rfl, hR⟩

end NameMap

namespace Ty

variable {ty left right : Ty} {step : Step}

/-! ### Parts -/

/-- What occurs in a part occurs in the type. -/
theorem nodes_subset_of_part {part : Ty} (h : ty.part step = some part) :
    part.nodes ⊆ ty.nodes := by
  have hfield : ∀ {fields : NameMap Ty} {name : String}, fields.lookup name = some part →
      part.nodes ⊆ fieldNodes fields := fun hfound node hnode =>
    mem_fieldNodes.mpr ⟨_, NameMap.mem_of_lookup hfound, hnode⟩
  have hlist : ∀ {tys : List Ty} {position : Nat}, tys[position]? = some part →
      part.nodes ⊆ listNodes tys := fun hfound node hnode =>
    mem_listNodes.mpr ⟨_, List.mem_of_getElem? hfound, hnode⟩
  unfold Ty.part at h
  split at h
  · cases h
    exact List.subset_cons_self _ _
  · exact List.subset_cons_of_subset _ (hfield h)
  · exact List.subset_cons_of_subset _ (hfield h)
  · exact List.subset_cons_of_subset _ (hfield h)
  · exact List.subset_cons_of_subset _ (List.subset_append_of_subset_left _ (hlist h))
  · exact List.subset_cons_of_subset _ (List.subset_append_of_subset_right _ (hlist h))
  · cases h

theorem sizeOf_part_lt {part : Ty} (h : ty.part step = some part) : sizeOf part < sizeOf ty := by
  have hfield : ∀ {fields : NameMap Ty} {name : String}, fields.lookup name = some part →
      sizeOf part < sizeOf fields := by
    intro fields name hfound
    have hentry := List.sizeOf_lt_of_mem (NameMap.mem_of_lookup hfound)
    simp only [Prod.mk.sizeOf_spec] at hentry
    omega
  have hlist : ∀ {tys : List Ty} {position : Nat}, tys[position]? = some part →
      sizeOf part < sizeOf tys := fun hfound =>
    List.sizeOf_lt_of_mem (List.mem_of_getElem? hfound)
  unfold Ty.part at h
  split at h
  · cases h
    simp
  · have := hfield h
    simp only [table.sizeOf_spec]
    omega
  · have := hfield h
    simp only [record.sizeOf_spec]
    omega
  · have := hfield h
    simp only [module.sizeOf_spec]
    omega
  · have := hlist h
    simp only [function.sizeOf_spec]
    omega
  · have := hlist h
    simp only [function.sizeOf_spec]
    omega
  · cases h

/-- Induction from the parts of a type to the type. -/
@[elab_as_elim]
theorem part_induction {motive : Ty → Prop}
    (h : ∀ ty, (∀ step part, ty.part step = some part → motive part) → motive ty) (ty : Ty) :
    motive ty :=
  h ty fun _ part _ => part_induction h part
termination_by sizeOf ty
decreasing_by exact sizeOf_part_lt ‹_›

theorem Distinct.fieldNames (h : ty.Distinct) : ty.fieldNames.Nodup :=
  h ty self_mem_nodes

theorem Distinct.part {part : Ty} (h : ty.Distinct) (hpart : ty.part step = some part) :
    part.Distinct :=
  fun node hnode => h node (nodes_subset_of_part hpart hnode)

/-- A type repeats no field name if neither it nor any of its parts does. -/
theorem distinct_iff : ty.Distinct ↔
    ty.fieldNames.Nodup ∧ ∀ step part, ty.part step = some part → part.Distinct := by
  refine ⟨fun h => ⟨h.fieldNames, fun _ _ => h.part⟩, fun ⟨hnames, hparts⟩ node hnode => ?_⟩
  have hfields : ∀ {fields : NameMap Ty}, fields.keys.Nodup →
      (∀ name part, fields.lookup name = some part → part.Distinct) →
        node ∈ fieldNodes fields → node.fieldNames.Nodup := by
    intro fields hn hp hmem
    obtain ⟨entry, hentry, hmem⟩ := mem_fieldNodes.mp hmem
    exact hp _ _ ((NameMap.lookup_eq_some_iff hn).mpr hentry) node hmem
  have hlist : ∀ {tys : List Ty},
      (∀ (position : Nat) (part : Ty), tys[position]? = some part → part.Distinct) →
        node ∈ listNodes tys → node.fieldNames.Nodup := by
    intro tys hp hmem
    obtain ⟨part, hpart, hmem⟩ := mem_listNodes.mp hmem
    obtain ⟨position, hposition⟩ := List.mem_iff_getElem?.mp hpart
    exact hp position part hposition node hmem
  cases ty with
  | array elem =>
    rcases List.mem_cons.mp hnode with rfl | hnode
    · exact hnames
    · exact hparts .elem elem rfl node hnode
  | table fields | record _ fields | module fields =>
    rcases List.mem_cons.mp hnode with rfl | hnode
    · exact hnames
    · exact hfields hnames (fun name part => hparts (.field name) part) hnode
  | function params returns =>
    rcases List.mem_cons.mp hnode with rfl | hnode
    · exact hnames
    · rcases List.mem_append.mp hnode with hnode | hnode
      · exact hlist (fun position part => hparts (.param position) part) hnode
      · exact hlist (fun position part => hparts (.result position) part) hnode
  | _ =>
    rw [nodes, List.mem_singleton] at hnode
    · rw [hnode]
      exact hnames
    all_goals simp

/-! ### Types that match -/

variable {R S T : Ty → Ty → Prop}

/-- The heads are equal and the parts are related, step by step. -/
structure Matches (R : Ty → Ty → Prop) (left right : Ty) : Prop where
  head : left.head = right.head
  parts : ∀ step, Option.Rel R (left.part step) (right.part step)

theorem Matches.refl (h : ∀ step part, ty.part step = some part → R part part) :
    Matches R ty ty where
  head := rfl
  parts := by
    intro step
    cases hpart : ty.part step with
    | none => exact .none
    | some part => exact .some (h step part hpart)

/-- The part of one type for a part of the other. -/
theorem Matches.part {part : Ty} (h : Matches R left right) (hpart : left.part step = some part) :
    ∃ part', right.part step = some part' ∧ R part part' := by
  have hrel := h.parts step
  rw [hpart] at hrel
  generalize right.part step = found at hrel
  cases hrel with
  | some hR => exact ⟨_, rfl, hR⟩

theorem Matches.part_eq_none (h : Matches R left right) (hnone : left.part step = none) :
    right.part step = none := by
  have hrel := h.parts step
  rw [hnone] at hrel
  generalize right.part step = found at hrel
  cases hrel
  rfl

/-- Types with equal heads match if every part of the one has a related part in the other, and
there are no others. -/
theorem Matches.of_parts (hhead : left.head = right.head)
    (hsome : ∀ step part, left.part step = some part →
      ∃ part', right.part step = some part' ∧ R part part')
    (hnone : ∀ step, left.part step = none → right.part step = none) : Matches R left right where
  head := hhead
  parts := by
    intro step
    cases hpart : left.part step with
    | none =>
      rw [hnone step hpart]
      exact .none
    | some part =>
      obtain ⟨part', hpart', hR⟩ := hsome step part hpart
      rw [hpart']
      exact .some hR

theorem matches_iff : Matches R left right ↔ left.head = right.head ∧
    Option.Rel R (left.part .elem) (right.part .elem) ∧
    (∀ name, Option.Rel R (left.part (.field name)) (right.part (.field name))) ∧
    (∀ position, Option.Rel R (left.part (.param position)) (right.part (.param position))) ∧
    ∀ position, Option.Rel R (left.part (.result position)) (right.part (.result position)) := by
  refine ⟨fun h => ⟨h.head, h.parts _, fun _ => h.parts _, fun _ => h.parts _,
    fun _ => h.parts _⟩, fun ⟨hhead, helem, hfield, hparam, hresult⟩ => ⟨hhead, fun step => ?_⟩⟩
  cases step with
  | elem => exact helem
  | field name => exact hfield name
  | param position => exact hparam position
  | result position => exact hresult position

/-! ### Sameness and compatibility as matching -/

theorem forall₂_iff_getElem? {tys tys' : List Ty} : List.Forall₂ R tys tys' ↔
    ∀ position : Nat, Option.Rel R tys[position]? tys'[position]? := by
  induction tys generalizing tys' with
  | nil =>
    cases tys' with
    | nil => simp
    | cons ty rest => exact ⟨fun h => (by cases h), fun h => (by cases h 0)⟩
  | cons ty rest ih =>
    cases tys' with
    | nil => exact ⟨fun h => (by cases h), fun h => (by cases h 0)⟩
    | cons ty' rest' =>
      rw [List.forall₂_cons, ih]
      refine ⟨fun h position => ?_, fun h => ⟨by simpa using h 0, fun position => ?_⟩⟩
      · cases position with
        | zero => simpa using h.1
        | succ position => simpa using h.2 position
      · simpa using h (position + 1)

theorem sameList_iff {tys tys' : List Ty} :
    sameList tys tys' = true ↔ List.Forall₂ (fun p q => p.same q = true) tys tys' := by
  induction tys generalizing tys' with
  | nil => cases tys' <;> simp [sameList]
  | cons ty rest ih => cases tys' <;> simp [sameList, ih]

theorem compatibleList_iff {tys tys' : List Ty} :
    compatibleList tys tys' = true ↔ List.Forall₂ (fun p q => p.compatible q = true) tys tys' := by
  induction tys generalizing tys' with
  | nil => cases tys' <;> simp [compatibleList]
  | cons ty rest ih => cases tys' <;> simp [compatibleList, ih]

theorem sameFields_iff {fields fields' : NameMap Ty} : sameFields fields fields' = true ↔
    ∀ entry ∈ fields, ∃ ty, fields'.lookup entry.1 = some ty ∧ entry.2.same ty = true := by
  induction fields with
  | nil => simp [sameFields]
  | cons entry rest ih =>
    rw [sameFields, Bool.and_eq_true, ih, List.forall_mem_cons]
    cases fields'.lookup entry.1 <;> simp

theorem compatibleFields_iff {fields fields' : NameMap Ty} :
    compatibleFields fields fields' = true ↔
      ∀ entry ∈ fields, ∃ ty, fields'.lookup entry.1 = some ty ∧ entry.2.compatible ty = true := by
  induction fields with
  | nil => simp [compatibleFields]
  | cons entry rest ih =>
    rw [compatibleFields, Bool.and_eq_true, ih, List.forall_mem_cons]
    cases fields'.lookup entry.1 <;> simp

/-- **Sameness is matching.** -/
theorem same_iff (hl : left.fieldNames.Nodup) (hr : right.fieldNames.Nodup) :
    left.same right = true ↔ Matches (fun p q => p.same q = true) left right := by
  have hfields : ∀ {fields fields' : NameMap Ty}, fields.keys.Nodup → fields'.keys.Nodup →
      (fields.length = fields'.length ∧ sameFields fields fields' = true ↔ ∀ name,
        Option.Rel (fun p q => p.same q = true) (fields.lookup name) (fields'.lookup name)) := by
    intro fields fields' hn hn'
    rw [sameFields_iff]
    exact NameMap.rel_lookup_iff (R := fun p q => p.same q = true) hn hn'
  rw [matches_iff]
  cases left <;> cases right <;>
    simp only [same, head, part, Option.rel_none_none, Option.rel_some_some, Bool.and_eq_true,
      beq_iff_eq, reduceCtorEq, Bool.false_eq_true, false_and, true_and, and_true, implies_true,
      sameList_iff, forall₂_iff_getElem?, Head.record.injEq, and_assoc]
  · exact hfields hl hr
  · exact and_congr_right fun _ => hfields hl hr
  · exact hfields hl hr

/-- **Compatibility is matching** where `unknown` matches anything, and records and modules match
only if they are the same. -/
theorem compatible_iff (hl : left.fieldNames.Nodup) (hr : right.fieldNames.Nodup) :
    left.compatible right = true ↔ left = .unknown ∨ right = .unknown ∨
      left.isNominal = true ∧ left.same right = true ∨
      left.isNominal = false ∧ Matches (fun p q => p.compatible q = true) left right := by
  have hfields : ∀ {fields fields' : NameMap Ty}, fields.keys.Nodup → fields'.keys.Nodup →
      (fields.length = fields'.length ∧ compatibleFields fields fields' = true ↔ ∀ name,
        Option.Rel (fun p q => p.compatible q = true) (fields.lookup name)
          (fields'.lookup name)) := by
    intro fields fields' hn hn'
    rw [compatibleFields_iff]
    exact NameMap.rel_lookup_iff (R := fun p q => p.compatible q = true) hn hn'
  rw [matches_iff]
  cases left <;> cases right <;>
    simp only [compatible, same, isNominal, head, part, Option.rel_none_none, Option.rel_some_some,
      Bool.and_eq_true, beq_iff_eq, reduceCtorEq, Bool.false_eq_true, Bool.true_eq_false, false_and,
      true_and, and_true, false_or, or_true, or_false, implies_true, compatibleList_iff,
      forall₂_iff_getElem?, Head.record.injEq, and_assoc]
  exact hfields hl hr

end Ty

end LuaTyping
