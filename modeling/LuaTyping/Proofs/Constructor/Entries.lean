import LuaTyping.Checking.Expr
import Mathlib.Data.List.Dedup

/-!
# The entries of a table constructor are all accounted for

An entry of a constructor for a table or record type comes to one of two things (`Verdict`): an item
of the typed constructor, with whatever is reported on its value, or a flaw of the entry itself,
which is reported at the entry.  The missing fields are flaws of the constructor.

`Accounts` is the balance of items and flaws.  It follows from `unseen`, the first of the entries
for each name: those for fields of the type are the items, the others are invalid, and every entry
for a name that had one before is a duplicate.
-/

namespace LuaTyping

namespace NameMap

variable {α : Type}

theorem keys_cons (entry : String × α) (map : NameMap α) :
    keys (entry :: map) = entry.1 :: keys map :=
  rfl

theorem nodup_keys_firsts (entries : List (String × α)) : (firsts entries).keys.Nodup := by
  induction entries with
  | nil => exact List.nodup_nil
  | cons entry rest ih =>
    refine List.nodup_cons.mpr ⟨?_, ih.sublist (List.filter_sublist.map _)⟩
    simp [List.mem_map, List.mem_filter]

/-- There is one first entry for each name. -/
theorem length_firsts (entries : List (String × α)) :
    (firsts entries).length = (entries.map Prod.fst).dedup.length := by
  have hperm : (firsts entries).keys.Perm (entries.map Prod.fst).dedup := by
    refine (List.perm_ext_iff_of_nodup (nodup_keys_firsts entries) (List.nodup_dedup _)).mpr ?_
    intro name
    rw [mem_keys_firsts, List.mem_dedup]
  rw [← hperm.length_eq, keys, List.length_map]

end NameMap

/-- Names are in a list or they are not. -/
theorem length_filter_mem_add (names given : List String) :
    (names.filter (· ∈ given)).length + (names.filter (· ∉ given)).length = names.length := by
  rw [List.length_eq_length_filter_add (l := names) (· ∈ given)]
  simp

namespace Source

/-! ### Items and flaws -/

/-- What a constructor gets wrong by itself, whatever its values are. -/
inductive Flaw where
  | positional
  | duplicate (name : String)
  | invalid (name : String)
  | missing (name : String)

namespace Flaw

/-- The violation as it is reported for a type. -/
def violation (target : Ty) : Flaw → Violation
  | .positional => .positionalFieldInTable target
  | .duplicate name => .duplicateInitField name
  | .invalid name => .unknownInitField name target
  | .missing name => .missingInitField name target

/-- Whether the flaw is an entry without a name. -/
def isPositional : Flaw → Bool
  | .positional => true
  | _ => false

/-- The name that is given a value again. -/
def duplicate? : Flaw → Option String
  | .duplicate name => some name
  | _ => none

/-- The name that is not one of a field. -/
def invalid? : Flaw → Option String
  | .invalid name => some name
  | _ => none

/-- The field that is given no value. -/
def missing? : Flaw → Option String
  | .missing name => some name
  | _ => none

/-- Every flaw is of one of the four kinds. -/
theorem length_eq (own : List Flaw) : own.length = own.countP isPositional +
    (own.filterMap duplicate?).length + (own.filterMap invalid?).length +
      (own.filterMap missing?).length := by
  induction own with
  | nil => rfl
  | cons flaw rest ih =>
    rw [List.length_cons, ih]
    cases flaw <;> simp [List.filterMap_cons, List.countP_cons, isPositional, duplicate?, invalid?,
      missing?] <;> omega

end Flaw

/-- What becomes of an entry: an item, with the report on its value, or a flaw at a place. -/
inductive Verdict where
  | item (name : String) (value : Report Typed.Expr)
  | flaw (found : Flaw) (loc : Location)

namespace Verdict

/-- The item of the typed constructor. -/
def item? : Verdict → Option (String × Typed.Expr)
  | .item name value => some (name, value.value)
  | .flaw .. => none

/-- The flaw of the entry itself. -/
def flaw? : Verdict → Option Flaw
  | .item .. => none
  | .flaw found _ => some found

/-- The faults that are found: those in the value of an item, or the flaw alone. -/
def faults (target : Ty) : Verdict → List Fault
  | .item _ value => value.faults
  | .flaw found loc => [⟨found.violation target, loc⟩]

variable {verdicts : List Verdict}

@[simp]
theorem flaws_item {name : String} {value : Report Typed.Expr} :
    (item name value :: verdicts).filterMap flaw? = verdicts.filterMap flaw? :=
  rfl

@[simp]
theorem flaws_flaw {found : Flaw} {loc : Location} :
    (flaw found loc :: verdicts).filterMap flaw? = found :: verdicts.filterMap flaw? :=
  rfl

end Verdict

namespace Entry

/-- Whether the entry has a name. -/
def isNamed : Entry → Bool
  | .positional _ => false
  | .named .. => true

/-- The names of the entries with their values. -/
def bindings : List Entry → List (String × Expr)
  | [] => []
  | .positional _ :: rest => bindings rest
  | .named key value _ :: rest => (key, value) :: bindings rest

/-- The report on a value for a field. -/
def fieldReport (Γ : Context) (key : String) (value : Expr) (ty : Ty) : Report Typed.Expr :=
  value.check Γ (.ofType ⟨ty, .initializerField key⟩)

/-- What an entry may come to by itself. -/
inductive Comes (Γ : Context) (fields : NameMap Ty) : Entry → Verdict → Prop
  | item {key : String} {value : Expr} {loc : Location} {ty : Ty} :
      fields.lookup key = some ty →
        Comes Γ fields (.named key value loc) (.item key (fieldReport Γ key value ty))
  | positional {value : Expr} : Comes Γ fields (.positional value) (.flaw .positional value.loc)
  | duplicate {key : String} {value : Expr} {loc : Location} :
      Comes Γ fields (.named key value loc) (.flaw (.duplicate key) loc)
  | invalid {key : String} {value : Expr} {loc : Location} :
      Comes Γ fields (.named key value loc) (.flaw (.invalid key) loc)

/-- The item that a name with a value makes, if the name is one of a field. -/
def item? (Γ : Context) (fields : NameMap Ty) (binding : String × Expr) :
    Option (String × Typed.Expr) :=
  (fields.lookup binding.1).map fun ty =>
    (binding.1, (fieldReport Γ binding.1 binding.2 ty).value)

/-- The balance of a constructor with given entries for a type with given fields: `items` are the
names of its items and `own` its flaws. -/
structure Accounts (fields : NameMap Ty) (entries : List Entry) (items : List String)
    (own : List Flaw) : Prop where
  entries_length : entries.length = items.length + own.countP Flaw.isPositional +
    (own.filterMap Flaw.duplicate?).length + (own.filterMap Flaw.invalid?).length
  fields_length : fields.length = items.length + (own.filterMap Flaw.missing?).length
  nodup_items : items.Nodup
  mem_items : ∀ name, name ∈ items ↔ name ∈ fields.keys ∧ name ∈ names entries
  missing : own.filterMap Flaw.missing? = fields.keys.filter (· ∉ names entries)
  nodup_invalid : (own.filterMap Flaw.invalid?).Nodup
  mem_invalid : ∀ name, name ∈ own.filterMap Flaw.invalid? ↔
    name ∈ names entries ∧ name ∉ fields.keys
  duplicates : (own.filterMap Flaw.duplicate?).length + (names entries).dedup.length =
    (names entries).length
  none_iff : own = [] ↔ (∀ entry ∈ entries, entry.isNamed = true) ∧
    (names entries).Perm fields.keys

/-! ### What the entries come to one after another -/

/-- The verdicts of entries behind others with the names `seen`. -/
def verdicts (Γ : Context) (fields : NameMap Ty) : List Entry → List String → List Verdict
  | [], _ => []
  | .positional value :: rest, seen => .flaw .positional value.loc :: verdicts Γ fields rest seen
  | .named key value loc :: rest, seen =>
    if key ∈ seen then
      .flaw (.duplicate key) loc :: verdicts Γ fields rest seen
    else
      match fields.lookup key with
      | some ty =>
        .item key (fieldReport Γ key value ty) :: verdicts Γ fields rest (key :: seen)
      | none => .flaw (.invalid key) loc :: verdicts Γ fields rest (key :: seen)

/-- The first of the entries for each name that is not seen yet. -/
def unseen (entries : List Entry) (seen : List String) : NameMap Expr :=
  (NameMap.firsts (bindings entries)).filter (·.1 ∉ seen)

variable {Γ : Context} {fields : NameMap Ty} {entries rest : List Entry} {seen : List String}
  {key : String} {value : Expr} {loc : Location}

theorem names_eq_map_fst (entries : List Entry) :
    names entries = (bindings entries).map Prod.fst := by
  fun_induction bindings entries with
  | case1 => rfl
  | case2 value rest ih => exact ih
  | case3 key value loc rest ih => exact congrArg (key :: ·) ih

theorem unseen_of_mem (h : key ∈ seen) :
    unseen (.named key value loc :: rest) seen = unseen rest seen := by
  simp only [unseen, bindings, NameMap.firsts]
  rw [List.filter_cons_of_neg (by simpa using h), List.filter_filter]
  refine List.filter_congr fun binding _ => ?_
  by_cases hb : binding.1 ∈ seen
  · simp [hb]
  · have hne : binding.1 ≠ key := fun he => hb (he ▸ h)
    simp [hb, hne]

theorem unseen_of_not_mem (h : key ∉ seen) :
    unseen (.named key value loc :: rest) seen = (key, value) :: unseen rest (key :: seen) := by
  simp only [unseen, bindings, NameMap.firsts]
  rw [List.filter_cons_of_pos (by simpa using h), List.filter_filter]
  congr 1
  refine List.filter_congr fun binding _ => ?_
  simp [Bool.and_comm]

theorem comes_verdicts :
    List.Forall₂ (Comes Γ fields) entries (verdicts Γ fields entries seen) := by
  fun_induction verdicts Γ fields entries seen with
  | case1 => exact .nil
  | case2 value rest seen ih => exact .cons .positional ih
  | case3 key value loc rest seen h ih => exact .cons .duplicate ih
  | case4 key value loc rest seen h ty hl ih => exact .cons (.item hl) ih
  | case5 key value loc rest seen h hl ih => exact .cons .invalid ih

/-- The items are the first entries for names of fields. -/
theorem items_verdicts : (verdicts Γ fields entries seen).filterMap Verdict.item? =
    (unseen entries seen).filterMap (item? Γ fields) := by
  fun_induction verdicts Γ fields entries seen with
  | case1 => rfl
  | case2 value rest seen ih => exact ih
  | case3 key value loc rest seen h ih =>
    rw [unseen_of_mem h]
    exact ih
  | case4 key value loc rest seen h ty hl ih =>
    have hitem : item? Γ fields (key, value) = some (key, (fieldReport Γ key value ty).value) := by
      simp [item?, hl]
    rw [unseen_of_not_mem h, List.filterMap_cons_some hitem, ← ih]
    rfl
  | case5 key value loc rest seen h hl ih =>
    have hitem : item? Γ fields (key, value) = none := by simp [item?, hl]
    rw [unseen_of_not_mem h, List.filterMap_cons_none hitem, ← ih]
    rfl

/-- The flaws of entries behind others with the names `seen`. -/
def flaws (Γ : Context) (fields : NameMap Ty) (entries : List Entry) (seen : List String) :
    List Flaw :=
  (verdicts Γ fields entries seen).filterMap Verdict.flaw?

/-- An entry without a name is a flaw, and no other flaw is of this kind. -/
theorem countP_isPositional_flaws : (bindings entries).length +
    (flaws Γ fields entries seen).countP Flaw.isPositional = entries.length := by
  unfold flaws
  fun_induction verdicts Γ fields entries seen with
  | case1 => rfl
  | case2 value rest seen ih =>
    rw [Verdict.flaws_flaw, List.countP_cons_of_pos rfl, List.length_cons, bindings, ← ih]
    omega
  | case3 key value loc rest seen h ih =>
    rw [Verdict.flaws_flaw, List.countP_cons_of_neg (by simp [Flaw.isPositional]),
      List.length_cons, bindings, List.length_cons, ← ih]
    omega
  | case4 key value loc rest seen h ty hl ih =>
    rw [Verdict.flaws_item, List.length_cons, bindings, List.length_cons, ← ih]
    omega
  | case5 key value loc rest seen h hl ih =>
    rw [Verdict.flaws_flaw, List.countP_cons_of_neg (by simp [Flaw.isPositional]),
      List.length_cons, bindings, List.length_cons, ← ih]
    omega

/-- Every entry for a name is the first or a duplicate. -/
theorem length_duplicates_flaws : ((flaws Γ fields entries seen).filterMap Flaw.duplicate?).length +
    (unseen entries seen).length = (bindings entries).length := by
  unfold flaws
  fun_induction verdicts Γ fields entries seen with
  | case1 => rfl
  | case2 value rest seen ih => exact ih
  | case3 key value loc rest seen h ih =>
    have hdup : (Flaw.duplicate key).duplicate? = some key := rfl
    rw [unseen_of_mem h, Verdict.flaws_flaw, List.filterMap_cons_some hdup, List.length_cons,
      bindings, List.length_cons, ← ih]
    omega
  | case4 key value loc rest seen h ty hl ih =>
    rw [unseen_of_not_mem h, Verdict.flaws_item, bindings, List.length_cons, List.length_cons, ← ih]
    omega
  | case5 key value loc rest seen h hl ih =>
    have hdup : (Flaw.invalid key).duplicate? = none := rfl
    rw [unseen_of_not_mem h, Verdict.flaws_flaw, List.filterMap_cons_none hdup, bindings,
      List.length_cons, List.length_cons, ← ih]
    omega

/-- The first entries for other names than those of fields are invalid. -/
theorem invalid_flaws : (flaws Γ fields entries seen).filterMap Flaw.invalid? =
    (unseen entries seen).keys.filter (· ∉ fields.keys) := by
  unfold flaws
  fun_induction verdicts Γ fields entries seen with
  | case1 => rfl
  | case2 value rest seen ih => exact ih
  | case3 key value loc rest seen h ih =>
    rw [unseen_of_mem h]
    exact ih
  | case4 key value loc rest seen h ty hl ih =>
    have hkey : key ∈ fields.keys := List.mem_map_of_mem (NameMap.mem_of_lookup hl)
    rw [unseen_of_not_mem h, NameMap.keys_cons, List.filter_cons_of_neg (by simpa using hkey)]
    exact ih
  | case5 key value loc rest seen h hl ih =>
    have hkey : key ∉ fields.keys := NameMap.lookup_eq_none_iff.mp hl
    rw [unseen_of_not_mem h, NameMap.keys_cons, List.filter_cons_of_pos (by simpa using hkey)]
    exact congrArg (key :: ·) ih

theorem missing_flaws : (flaws Γ fields entries seen).filterMap Flaw.missing? = [] := by
  unfold flaws
  fun_induction verdicts Γ fields entries seen with
  | case1 => rfl
  | case2 value rest seen ih => exact ih
  | case3 key value loc rest seen h ih => exact ih
  | case4 key value loc rest seen h ty hl ih => exact ih
  | case5 key value loc rest seen h hl ih => exact ih

/-- The items have the names that are names of fields. -/
theorem keys_items (bindings : NameMap Expr) :
    NameMap.keys (bindings.filterMap (item? Γ fields)) =
      bindings.keys.filter (· ∈ fields.keys) := by
  induction bindings with
  | nil => rfl
  | cons binding rest ih =>
    cases hl : fields.lookup binding.1 with
    | none =>
      have hkey : binding.1 ∉ fields.keys := NameMap.lookup_eq_none_iff.mp hl
      rw [List.filterMap_cons_none (by simp [item?, hl]), ih, NameMap.keys_cons,
        List.filter_cons_of_neg (by simpa using hkey)]
    | some ty =>
      have hkey : binding.1 ∈ fields.keys := List.mem_map_of_mem (NameMap.mem_of_lookup hl)
      have hitem : item? Γ fields binding =
          some (binding.1, (fieldReport Γ binding.1 binding.2 ty).value) := by simp [item?, hl]
      rw [List.filterMap_cons_some hitem, NameMap.keys_cons, NameMap.keys_cons,
        List.filter_cons_of_pos (by simpa using hkey), ih]

end Entry

/-! ### The whole constructor -/

namespace Expr

variable {Γ : Context} {target : Ty} {fields : NameMap Ty} {entries : List Entry}
  {seen : List String}

/-- The check of the entries is made of their verdicts. -/
theorem checkFields_eq : checkFields Γ target fields entries seen =
    ⟨(Entry.verdicts Γ fields entries seen).filterMap Verdict.item?,
      (Entry.verdicts Γ fields entries seen).flatMap (Verdict.faults target)⟩ := by
  fun_induction Entry.verdicts Γ fields entries seen with
  | case1 => rfl
  | case2 value rest seen ih =>
    rw [checkFields, ih]
    rfl
  | case3 key value loc rest seen h ih =>
    rw [checkFields, if_pos (by simpa using h), ih]
    rfl
  | case4 key value loc rest seen h ty hl ih =>
    rw [checkFields, if_neg (by simpa using h), hl]
    simp only [ih]
    refine (congrArg (Report.mk _) ?_ : Report.mk _ _ = Report.mk _ _)
    exact congrArg _ (List.append_nil _)
  | case5 key value loc rest seen h hl ih =>
    rw [checkFields, if_neg (by simpa using h), hl]
    simp only [ih]
    rfl

end Expr

/-- A fault for each field that is not among the given names. -/
theorem requireFields_eq {target : Ty} {loc : Location} {given : List String}
    (fields : NameMap Ty) : requireFields target loc given fields =
      ⟨(), (fields.keys.filter (· ∉ given)).map fun name =>
        ⟨.missingInitField name target, loc⟩⟩ := by
  induction fields with
  | nil => rfl
  | cons field rest ih =>
    rw [requireFields, ih]
    by_cases h : field.1 ∈ given
    · rw [Report.require, if_pos (by simpa using h)]
      simp [NameMap.keys, h]
    · rw [Report.require, if_neg (by simpa using h)]
      simp [NameMap.keys, h]
      rfl

namespace Entry

variable {Γ : Context} {fields : NameMap Ty} {entries : List Entry}

/-- The fields that no entry names. -/
def missing (fields : NameMap Ty) (entries : List Entry) : List String :=
  fields.keys.filter (· ∉ names entries)

/-- All flaws of a constructor, those of its entries and the missing fields. -/
def allFlaws (Γ : Context) (fields : NameMap Ty) (entries : List Entry) : List Flaw :=
  flaws Γ fields entries [] ++ (missing fields entries).map Flaw.missing

/-- The names of the items, in the order of the entries. -/
def itemNames (fields : NameMap Ty) (entries : List Entry) : List String :=
  (NameMap.firsts (bindings entries)).keys.filter (· ∈ fields.keys)

theorem unseen_nil (entries : List Entry) :
    unseen entries [] = NameMap.firsts (bindings entries) := by
  simp [unseen]

theorem mem_keys_firsts_bindings {name : String} :
    name ∈ (NameMap.firsts (bindings entries)).keys ↔ name ∈ names entries := by
  rw [NameMap.mem_keys_firsts, names_eq_map_fst]

theorem mem_itemNames {name : String} :
    name ∈ itemNames fields entries ↔ name ∈ fields.keys ∧ name ∈ names entries := by
  rw [itemNames, List.mem_filter, mem_keys_firsts_bindings, and_comm]
  simp

theorem nodup_itemNames : (itemNames fields entries).Nodup :=
  (NameMap.nodup_keys_firsts _).filter _

/-- Every field has an item or is missing. -/
theorem length_itemNames_add_missing (hf : fields.keys.Nodup) :
    (itemNames fields entries).length + (missing fields entries).length = fields.length := by
  have hperm : (itemNames fields entries).Perm (fields.keys.filter (· ∈ names entries)) := by
    refine (List.perm_ext_iff_of_nodup nodup_itemNames (hf.filter _)).mpr fun name => ?_
    rw [mem_itemNames, List.mem_filter]
    simp
  rw [hperm.length_eq, missing, length_filter_mem_add, NameMap.keys, List.length_map]

theorem isPositional_allFlaws : (allFlaws Γ fields entries).countP Flaw.isPositional =
    (flaws Γ fields entries []).countP Flaw.isPositional := by
  simp [allFlaws, List.countP_append, List.countP_map, Function.comp_def, Flaw.isPositional]

theorem duplicates_allFlaws : (allFlaws Γ fields entries).filterMap Flaw.duplicate? =
    (flaws Γ fields entries []).filterMap Flaw.duplicate? := by
  simp [allFlaws, List.filterMap_append, List.filterMap_map, Function.comp_def, Flaw.duplicate?]

theorem invalid_allFlaws : (allFlaws Γ fields entries).filterMap Flaw.invalid? =
    (NameMap.firsts (bindings entries)).keys.filter (· ∉ fields.keys) := by
  rw [← unseen_nil, ← invalid_flaws (Γ := Γ)]
  simp [allFlaws, List.filterMap_append, List.filterMap_map, Function.comp_def, Flaw.invalid?]

theorem missing_allFlaws : (allFlaws Γ fields entries).filterMap Flaw.missing? =
    missing fields entries := by
  simp [allFlaws, List.filterMap_append, missing_flaws, List.filterMap_map, Function.comp_def,
    Flaw.missing?]

/-- The first entries make items or are invalid. -/
theorem length_itemNames_add_invalid (Γ : Context) (fields : NameMap Ty) (entries : List Entry) :
    (itemNames fields entries).length +
      ((allFlaws Γ fields entries).filterMap Flaw.invalid?).length =
        (names entries).dedup.length := by
  rw [invalid_allFlaws, itemNames, length_filter_mem_add, NameMap.keys, List.length_map,
    NameMap.length_firsts, names_eq_map_fst]

/-- Every entry with a name is a duplicate or the first for it. -/
theorem length_duplicates_add_dedup (Γ : Context) (fields : NameMap Ty) (entries : List Entry) :
    ((allFlaws Γ fields entries).filterMap Flaw.duplicate?).length +
      (names entries).dedup.length = (names entries).length := by
  rw [duplicates_allFlaws, names_eq_map_fst, ← NameMap.length_firsts, ← unseen_nil,
    length_duplicates_flaws, List.length_map]

/-- Every entry has a name or is positional. -/
theorem length_names_add_positional (Γ : Context) (fields : NameMap Ty) (entries : List Entry) :
    (names entries).length + (allFlaws Γ fields entries).countP Flaw.isPositional =
      entries.length := by
  rw [isPositional_allFlaws, names_eq_map_fst, List.length_map, countP_isPositional_flaws]

theorem length_names_le (entries : List Entry) : (names entries).length ≤ entries.length := by
  induction entries with
  | nil => exact Nat.le_refl _
  | cons entry rest ih =>
    cases entry with
    | positional value => exact Nat.le_succ_of_le ih
    | named key value loc => exact Nat.succ_le_succ ih

theorem all_isNamed_iff :
    (∀ entry ∈ entries, entry.isNamed = true) ↔ (names entries).length = entries.length := by
  induction entries with
  | nil => simp [names]
  | cons entry rest ih =>
    rw [List.forall_mem_cons, ih]
    cases entry with
    | positional value =>
      have := length_names_le rest
      simp [names, isNamed]
      omega
    | named key value loc => simp [names, isNamed]

/-- There is no flaw where every entry has a name and the names are those of the fields. -/
theorem allFlaws_eq_nil_iff (hf : fields.keys.Nodup) : allFlaws Γ fields entries = [] ↔
    (∀ entry ∈ entries, entry.isNamed = true) ∧ (names entries).Perm fields.keys := by
  have hnamed := length_names_add_positional Γ fields entries
  have hdedup := length_duplicates_add_dedup Γ fields entries
  rw [all_isNamed_iff, ← List.length_eq_zero_iff, Flaw.length_eq]
  constructor
  · intro hnone
    have hnodup : (names entries).Nodup := by
      rw [← List.dedup_eq_self]
      exact (List.dedup_sublist _).eq_of_length (by omega)
    have hinvalid : (allFlaws Γ fields entries).filterMap Flaw.invalid? = [] :=
      List.eq_nil_of_length_eq_zero (by omega)
    have hmissing : (allFlaws Γ fields entries).filterMap Flaw.missing? = [] :=
      List.eq_nil_of_length_eq_zero (by omega)
    rw [invalid_allFlaws, List.filter_eq_nil_iff] at hinvalid
    rw [missing_allFlaws, missing, List.filter_eq_nil_iff] at hmissing
    refine ⟨by omega, (List.perm_ext_iff_of_nodup hnodup hf).mpr fun name =>
      ⟨fun h => ?_, fun h => ?_⟩⟩
    · simpa using hinvalid name (mem_keys_firsts_bindings.mpr h)
    · simpa using hmissing name h
  · rintro ⟨hlength, hperm⟩
    have hsame : (names entries).dedup.length = (names entries).length := by
      rw [(hperm.nodup_iff.mpr hf).dedup]
    have hinvalid : (allFlaws Γ fields entries).filterMap Flaw.invalid? = [] := by
      rw [invalid_allFlaws, List.filter_eq_nil_iff]
      intro name hname
      simpa using hperm.mem_iff.mp (mem_keys_firsts_bindings.mp hname)
    have hmissing : (allFlaws Γ fields entries).filterMap Flaw.missing? = [] := by
      rw [missing_allFlaws, missing, List.filter_eq_nil_iff]
      intro name hname
      simpa using hperm.mem_iff.mpr hname
    rw [hinvalid, hmissing]
    simp only [List.length_nil]
    omega

/-- **Items and flaws balance.** -/
theorem accounts (hf : fields.keys.Nodup) :
    Accounts fields entries (itemNames fields entries) (allFlaws Γ fields entries) where
  entries_length := by
    rw [← length_names_add_positional Γ fields,
      ← length_duplicates_add_dedup Γ fields,
      ← length_itemNames_add_invalid Γ fields]
    omega
  fields_length := by rw [missing_allFlaws, length_itemNames_add_missing hf]
  nodup_items := nodup_itemNames
  mem_items name := mem_itemNames
  missing := missing_allFlaws
  nodup_invalid := by
    rw [invalid_allFlaws]
    exact (NameMap.nodup_keys_firsts _).filter _
  mem_invalid name := by
    rw [invalid_allFlaws, List.mem_filter, mem_keys_firsts_bindings]
    simp
  duplicates := length_duplicates_add_dedup Γ fields entries
  none_iff := allFlaws_eq_nil_iff hf

end Entry

namespace Expr

variable {Γ : Context} {target : Ty} {fields : NameMap Ty} {entries : List Entry} {loc : Location}

/-- The check of a constructor for a table or record type is made of the verdicts of its entries and
the missing fields. -/
theorem check_init_eq {site : Site} (ht : target.fields? = some fields) :
    check Γ (.init entries loc) (.ofType ⟨target, site⟩) =
      ⟨⟨.tableInit ((Entry.verdicts Γ fields entries []).filterMap Verdict.item?), target, loc⟩,
        (Entry.verdicts Γ fields entries []).flatMap (Verdict.faults target) ++
          (Entry.missing fields entries).map fun name => ⟨.missingInitField name target, loc⟩⟩ := by
  cases target with
  | table _ | record _ _ =>
    cases ht
    rw [check, checkFields_eq, requireFields_eq]
    refine (congrArg (Report.mk _) ?_ : Report.mk _ _ = Report.mk _ _)
    exact congrArg _ (List.append_nil _)
  | _ => cases ht

/-- **Entries are all accounted for.**  In a constructor for a table or record type that repeats no
field, each entry gives an item, with the faults in its value, or one flaw of its own, and behind
them stand the missing fields, in the order of the type.  The items are the first entries for names
of fields, in the order of the text.  Items and flaws balance, and there is no flaw exactly if every
entry has a name and the names are the fields in some order. -/
theorem check_init_accounts (Γ : Context) (entries : List Entry) (target : Ty) (fields : NameMap Ty)
    (loc : Location) (site : Site) (ht : target.fields? = some fields) (hf : fields.keys.Nodup) :
    ∃ (verdicts : List Verdict) (missing : List String),
      let items := verdicts.filterMap Verdict.item?
      let own := verdicts.filterMap Verdict.flaw? ++ missing.map Flaw.missing
      List.Forall₂ (Entry.Comes Γ fields) entries verdicts ∧
        check Γ (.init entries loc) (.ofType ⟨target, site⟩) =
          ⟨⟨.tableInit items, target, loc⟩, verdicts.flatMap (Verdict.faults target) ++
            missing.map fun name => ⟨(Flaw.missing name).violation target, loc⟩⟩ ∧
        items = (NameMap.firsts (Entry.bindings entries)).filterMap (Entry.item? Γ fields) ∧
        Entry.Accounts fields entries (NameMap.keys items) own := by
  have hitems : (Entry.verdicts Γ fields entries []).filterMap Verdict.item? =
      (NameMap.firsts (Entry.bindings entries)).filterMap (Entry.item? Γ fields) := by
    rw [Entry.items_verdicts, Entry.unseen_nil]
  refine ⟨Entry.verdicts Γ fields entries [], Entry.missing fields entries,
    Entry.comes_verdicts, check_init_eq ht, hitems, ?_⟩
  rw [hitems, Entry.keys_items]
  exact Entry.accounts hf

/-- The fields of a point. -/
def pointFields : NameMap Ty :=
  [("x", .integer), ("y", .integer)]

/-- A constructor of a point with each kind of flaw: `x` twice, an entry without a name, `z`, which
is no field, and no `y`. -/
def flawedPoint : List Entry :=
  let here := Location.nowhere
  [.named "x" (.integer 1 here) here, .named "z" (.name "w" here) here,
    .named "x" (.integer 2 here) here, .positional (.integer 3 here)]

theorem flawedPoint_accounts :
    (Ty.record "Point" pointFields).fields? = some pointFields ∧ pointFields.keys.Nodup ∧
      ∃ own : List Flaw, Entry.Accounts pointFields flawedPoint ["x"] own ∧ own.length = 4 := by
  have hnodup : pointFields.keys.Nodup := by decide
  obtain ⟨verdicts, missing, -, -, hitems, haccounts⟩ := check_init_accounts (.start .standard)
    flawedPoint (.record "Point" pointFields) pointFields .nowhere .assignment rfl hnodup
  have hnames : NameMap.keys (verdicts.filterMap Verdict.item?) = ["x"] := by
    rw [hitems, Entry.keys_items]
    decide
  rw [hnames] at haccounts
  refine ⟨rfl, hnodup, _, haccounts, ?_⟩
  have hentries : 4 = _ := haccounts.entries_length
  have hfields : 2 = _ := haccounts.fields_length
  rw [Flaw.length_eq]
  simp only [List.length_singleton] at hentries hfields
  omega

end Expr

end Source

end LuaTyping
