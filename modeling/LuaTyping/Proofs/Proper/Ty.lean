import LuaTyping.Builtins
import LuaTyping.Ty.Equality

/-!
# Proper types

A type is *proper* if `unknown` occurs in it at no depth; with `modules := false` the module type
must not occur either.  Between types without `unknown` compatibility is sameness
(`compatible_eq_same`), and proper tables, records and functions have proper parts.
-/

namespace LuaTyping

namespace Ty

mutual

/-- Whether `unknown` occurs nowhere in the type, nor the module type unless `modules` allows it. -/
def proper (modules : Bool) : Ty → Bool
  | .unknown => false
  | .array elem => proper modules elem
  | .table fields => properFields modules fields
  | .record _ fields => properFields modules fields
  | .function params returns => properList modules params && properList modules returns
  | .module fields => modules && properFields modules fields
  | _ => true

/-- Whether all types of a list are proper. -/
def properList (modules : Bool) : List Ty → Bool
  | [] => true
  | ty :: rest => proper modules ty && properList modules rest

/-- Whether the types of all fields are proper. -/
def properFields (modules : Bool) : List (String × Ty) → Bool
  | [] => true
  | (_, ty) :: rest => proper modules ty && properFields modules rest

end

variable {modules : Bool}

theorem properList_iff {tys : List Ty} :
    properList modules tys = true ↔ ∀ ty ∈ tys, ty.proper modules = true := by
  induction tys with
  | nil => simp [properList]
  | cons ty rest ih => simp [properList, ih]

theorem properFields_iff {fields : List (String × Ty)} :
    properFields modules fields = true ↔ ∀ entry ∈ fields, entry.2.proper modules = true := by
  induction fields with
  | nil => simp [properFields]
  | cons entry rest ih => simp [properFields, ih]

theorem proper_function_iff {params returns : List Ty} :
    (function params returns).proper modules = true ↔
      (∀ ty ∈ params, ty.proper modules = true) ∧ ∀ ty ∈ returns, ty.proper modules = true := by
  rw [proper, Bool.and_eq_true, properList_iff, properList_iff]

theorem not_isUnknown_of_proper {ty : Ty} (h : ty.proper modules = true) :
    ty.isUnknown = false := by
  cases ty <;> simp [proper] at h ⊢ <;> rfl

theorem proper_of_lookup {fields : NameMap Ty} {name : String} {ty : Ty}
    (hf : properFields modules fields = true) (h : fields.lookup name = some ty) :
    ty.proper modules = true :=
  properFields_iff.mp hf _ (NameMap.mem_of_lookup h)

mutual

/-- Without the module type a type is proper all the more. -/
theorem proper_true : ∀ {ty : Ty}, ty.proper modules = true → ty.proper true = true
  | .array elem, h => by
    rw [proper] at h ⊢
    exact proper_true h
  | .table fields, h | .record _ fields, h => by
    rw [proper] at h ⊢
    exact properFields_true h
  | .module fields, h => by
    rw [proper, Bool.and_eq_true] at h ⊢
    exact ⟨rfl, properFields_true h.2⟩
  | .function params returns, h => by
    rw [proper, Bool.and_eq_true] at h ⊢
    exact ⟨properList_true h.1, properList_true h.2⟩
  | .nil, _ | .boolean, _ | .integer, _ | .float, _ | .string, _ | .any, _ => rfl

theorem properList_true : ∀ {tys : List Ty}, properList modules tys = true →
    properList true tys = true
  | [], _ => rfl
  | ty :: rest, h => by
    rw [properList, Bool.and_eq_true] at h ⊢
    exact ⟨proper_true h.1, properList_true h.2⟩

theorem properFields_true : ∀ {fields : List (String × Ty)}, properFields modules fields = true →
    properFields true fields = true
  | [], _ => rfl
  | (_, ty) :: rest, h => by
    rw [properFields, Bool.and_eq_true] at h ⊢
    exact ⟨proper_true h.1, properFields_true h.2⟩

end

/-! ### Compatibility without `unknown` -/

mutual

/-- Types in which `unknown` does not occur are compatible only if they are the same. -/
theorem compatible_eq_same : ∀ {left right : Ty}, left.proper true = true →
    right.proper true = true → left.compatible right = left.same right
  | .array elem, right, hl, hr => by
    cases right <;> simp only [proper, Bool.false_eq_true] at hr <;>
      simp only [compatible, same]
    exact compatible_eq_same (by simpa [proper] using hl) hr
  | .table fields, right, hl, hr => by
    cases right <;> simp only [proper, Bool.false_eq_true] at hr <;>
      simp only [compatible, same]
    rw [compatibleFields_eq_sameFields (by simpa [proper] using hl) hr]
  | .function params returns, right, hl, hr => by
    simp only [proper, Bool.and_eq_true] at hl
    cases right <;> simp only [proper, Bool.false_eq_true, Bool.and_eq_true] at hr <;>
      simp only [compatible, same]
    rw [compatibleList_eq_sameList hl.1 hr.1, compatibleList_eq_sameList hl.2 hr.2]
  | .nil, right, _, hr | .boolean, right, _, hr | .integer, right, _, hr | .float, right, _, hr
  | .string, right, _, hr | .any, right, _, hr | .record _ _, right, _, hr
  | .module _, right, _, hr => by
    cases right <;> simp [proper] at hr <;> simp [compatible]
  | .unknown, _, hl, _ => by simp [proper] at hl

theorem compatibleList_eq_sameList : ∀ {left right : List Ty}, properList true left = true →
    properList true right = true → compatibleList left right = sameList left right
  | [], right, _, _ => by cases right <;> simp [compatibleList, sameList]
  | _ :: _, [], _, _ => by simp [compatibleList, sameList]
  | ty :: rest, ty' :: rest', hl, hr => by
    simp only [properList, Bool.and_eq_true] at hl hr
    simp only [compatibleList, sameList]
    rw [compatible_eq_same hl.1 hr.1, compatibleList_eq_sameList hl.2 hr.2]

theorem compatibleFields_eq_sameFields : ∀ {left right : List (String × Ty)},
    properFields true left = true → properFields true right = true →
      compatibleFields left right = sameFields left right
  | [], _, _, _ => by simp [compatibleFields, sameFields]
  | (name, ty) :: rest, right, hl, hr => by
    simp only [properFields, Bool.and_eq_true] at hl
    simp only [compatibleFields, sameFields]
    rw [compatibleFields_eq_sameFields hl.2 hr]
    split
    · next ty' h => rw [compatible_eq_same hl.1 (proper_of_lookup hr h)]
    · rfl

end

end Ty

/-! ### The types of a table of builtins -/

namespace Builtins

/-- The types of a builtin: its own, or those of its members. -/
def typesOf : Builtin → List Ty
  | .function ty => [ty]
  | .library members => members.map Prod.snd

/-- All types of the functions and library members of a table. -/
def types (builtins : Builtins) : List Ty :=
  builtins.entries.flatMap fun entry => typesOf entry.2

theorem mem_types_of_get? {builtins : Builtins} {name : String} {builtin : Builtin} {ty : Ty}
    (h : builtins.get? name = some builtin) (hty : ty ∈ typesOf builtin) : ty ∈ builtins.types :=
  List.mem_flatMap.mpr ⟨_, NameMap.mem_of_lookup h, hty⟩

end Builtins

end LuaTyping
