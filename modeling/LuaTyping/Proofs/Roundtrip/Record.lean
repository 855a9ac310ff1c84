import LuaTyping.Source.Decoding

/-!
# Records as JSON objects

A record is written as an object.  `Member` says what is known of a field: its name, what its value
looks like, and whether the field may be left out.  `Json.IsRecord members` are the objects that
stand for a record with these fields: fields that may be left out can be missing, fields with other
names can be added, and all of them can come in any order.

None of this is seen by a reader that looks its fields up by name (`IsRecord.found`): a field is
there with a value of its form, or it is missing and may be.  `Found.required`, `Found.defaulted`
and `Found.optional` are the three ways in which a field is read.
-/

namespace LuaTyping

namespace Json

/-! ### Depth -/

theorem depth_le_depthItems {item : Json} : ∀ {items : List Json}, item ∈ items →
    item.depth ≤ depthItems items := by
  intro items h
  induction items with
  | nil => cases h
  | cons first rest ih =>
    rw [depthItems]
    cases h with
    | head => exact Nat.le_max_left _ _
    | tail _ hrest => exact Nat.le_trans (ih hrest) (Nat.le_max_right _ _)

theorem depth_lt_of_mem {fields : List (String × Json)} {name : String} {value : Json}
    (h : (name, value) ∈ fields) : value.depth < (Json.object fields).depth := by
  rw [depth, Nat.lt_succ_iff]
  induction fields with
  | nil => cases h
  | cons first rest ih =>
    rw [depthFields]
    cases h with
    | head => exact Nat.le_max_left _ _
    | tail _ hrest => exact Nat.le_trans (ih hrest) (Nat.le_max_right _ _)

/-! ### Slots -/

/-- A field of a record: its name, what its value looks like, and whether it may be left out. -/
structure Member where
  name : String
  form : Json → Prop
  omittable : Prop

/-- A field that is always there. -/
def Member.required (name : String) (form : Json → Prop) : Member :=
  ⟨name, form, False⟩

/-- Fields for the members, in order, without some that may be left out. -/
inductive Fills : List Member → List (String × Json) → Prop
  | nil : Fills [] []
  | keep {member : Member} {members : List Member} {value : Json} {kept : List (String × Json)}
      (hvalue : member.form value) (hkept : Fills members kept) :
      Fills (member :: members) ((member.name, value) :: kept)
  | leave {member : Member} {members : List Member} {kept : List (String × Json)}
      (homit : member.omittable) (hkept : Fills members kept) : Fills (member :: members) kept

/-- An object for a record: its fields and any fields with other names, in any order. -/
def IsRecord (members : List Member) (json : Json) : Prop :=
  ∃ fields kept extra, json = .object fields ∧ Fills members kept ∧
    (∀ entry ∈ extra, entry.1 ∉ members.map Member.name) ∧ fields.Perm (kept ++ extra)

/-- A form with contents: an object with one field, named for the form, that holds a record. -/
def IsVariant (tag : String) (members : List Member) (json : Json) : Prop :=
  ∃ contents, json = .tagged tag contents ∧ contents.IsRecord members

/-- An array whose items are described by a list. -/
def IsArray (items : List Json → Prop) (json : Json) : Prop :=
  ∃ values, json = .array values ∧ items values

/-- All fields as they are written. -/
theorem IsRecord.of_fills {members : List Member} {fields : List (String × Json)}
    (h : Fills members fields) : (Json.object fields).IsRecord members :=
  ⟨fields, fields, [], rfl, h, by simp, by rw [List.append_nil]⟩

theorem IsVariant.of_fills {tag : String} {members : List Member} {fields : List (String × Json)}
    (h : Fills members fields) : (Json.tagged tag (.object fields)).IsVariant tag members :=
  ⟨_, rfl, .of_fills h⟩

/-! ### Looking fields up -/

/-- The field is there with a value of its form, or it is missing and may be. -/
def Member.Found (member : Member) (fields : List (String × Json)) : Prop :=
  (∃ value, fields.lookup member.name = some value ∧ member.form value ∧
    value.depth < (Json.object fields).depth) ∨ fields.lookup member.name = none ∧ member.omittable

/-- All fields are there or may be missing. -/
def AllFound (fields : List (String × Json)) : List Member → Prop
  | [] => True
  | member :: rest => member.Found fields ∧ AllFound fields rest

theorem allFound_of_forall {fields : List (String × Json)} {members : List Member}
    (h : ∀ member ∈ members, member.Found fields) : AllFound fields members := by
  induction members with
  | nil => trivial
  | cons member rest ih =>
    rw [List.forall_mem_cons] at h
    exact ⟨h.1, ih h.2⟩

theorem lookup_of_mem {fields : List (String × Json)} {name : String} {value : Json}
    (h : (name, value) ∈ fields) (honly : ∀ other, (name, other) ∈ fields → other = value) :
    fields.lookup name = some value := by
  induction fields with
  | nil => cases h
  | cons first rest ih =>
    obtain ⟨key, found⟩ := first
    rw [List.lookup_cons]
    by_cases hkey : name = key
    · subst hkey
      rw [beq_self_eq_true, honly found List.mem_cons_self]
    · rw [beq_false_of_ne hkey]
      refine ih ?_ fun other hother => honly other (List.mem_cons_of_mem _ hother)
      exact (List.mem_cons.mp h).resolve_left fun heq => hkey (Prod.mk.inj heq).1

theorem lookup_of_not_mem {fields : List (String × Json)} {name : String}
    (h : ∀ value, (name, value) ∉ fields) : fields.lookup name = none := by
  rw [List.lookup_eq_none_iff]
  rintro ⟨key, value⟩ hmem
  rw [bne_iff_ne]
  rintro rfl
  exact h value hmem

theorem Fills.name_mem {members : List Member} {kept : List (String × Json)}
    (h : Fills members kept) {name : String} {value : Json} (hmem : (name, value) ∈ kept) :
    name ∈ members.map Member.name := by
  induction h with
  | nil => cases hmem
  | keep hvalue hkept ih =>
    rcases List.mem_cons.mp hmem with heq | hmem
    · rw [(Prod.mk.inj heq).1]
      exact List.mem_cons_self
    · exact List.mem_cons_of_mem _ (ih hmem)
  | leave homit hkept ih => exact List.mem_cons_of_mem _ (ih hmem)

/-- Of the fields for members with different names, one at most has the name of a member. -/
theorem Fills.value {members : List Member} {kept : List (String × Json)} (h : Fills members kept)
    (hnames : (members.map Member.name).Nodup) {member : Member} (hmember : member ∈ members) :
    (∃ value, member.form value ∧ (member.name, value) ∈ kept ∧
      ∀ other, (member.name, other) ∈ kept → other = value) ∨
        (∀ value, (member.name, value) ∉ kept) ∧ member.omittable := by
  induction h with
  | nil => cases hmember
  | @keep first members value kept hvalue hkept ih =>
    rw [List.map_cons, List.nodup_cons] at hnames
    rcases List.mem_cons.mp hmember with rfl | hmember
    · refine .inl ⟨value, hvalue, List.mem_cons_self, fun other hother => ?_⟩
      rcases List.mem_cons.mp hother with heq | hother
      · exact (Prod.mk.inj heq).2
      · exact absurd (hkept.name_mem hother) hnames.1
    · have hne : member.name ≠ first.name := fun heq =>
        hnames.1 (heq ▸ List.mem_map_of_mem hmember)
      have hmem : ∀ other, (member.name, other) ∈ (first.name, value) :: kept ↔
          (member.name, other) ∈ kept := by
        intro other
        rw [List.mem_cons, or_iff_right fun heq => hne (Prod.mk.inj heq).1]
      simp only [hmem]
      exact ih hnames.2 hmember
  | @leave first members kept homit hkept ih =>
    rw [List.map_cons, List.nodup_cons] at hnames
    rcases List.mem_cons.mp hmember with rfl | hmember
    · exact .inr ⟨fun value hmem => hnames.1 (hkept.name_mem hmem), homit⟩
    · exact ih hnames.2 hmember

/-- **Only the names count**: neither the order of the fields nor fields with other names matter. -/
theorem IsRecord.found {members : List Member} {json : Json} (h : json.IsRecord members)
    (hnames : (members.map Member.name).Nodup) :
    ∃ fields, json = .object fields ∧ AllFound fields members := by
  obtain ⟨fields, kept, extra, rfl, hkept, hextra, hperm⟩ := h
  refine ⟨fields, rfl, allFound_of_forall fun member hmember => ?_⟩
  have hmem : ∀ value, (member.name, value) ∈ fields ↔ (member.name, value) ∈ kept := by
    intro value
    rw [hperm.mem_iff, List.mem_append, or_iff_left]
    exact fun hvalue => hextra _ hvalue (List.mem_map_of_mem hmember)
  rcases hkept.value hnames hmember with ⟨value, hform, hvalue, honly⟩ | ⟨hnone, homit⟩
  · simp only [← hmem] at hvalue honly
    exact .inl ⟨value, lookup_of_mem hvalue honly, hform, depth_lt_of_mem hvalue⟩
  · simp only [← hmem] at hnone
    exact .inr ⟨lookup_of_not_mem hnone, homit⟩

theorem IsVariant.found {tag : String} {members : List Member} {json : Json}
    (h : json.IsVariant tag members) (hnames : (members.map Member.name).Nodup) :
    ∃ fields, json = .tagged tag (.object fields) ∧ AllFound fields members := by
  obtain ⟨contents, rfl, hcontents⟩ := h
  obtain ⟨fields, rfl, hfound⟩ := hcontents.found hnames
  exact ⟨fields, rfl, hfound⟩

@[simp]
theorem choice?_tagged (tag : String) (contents : Json) :
    (tagged tag contents).choice? = some (tag, contents) :=
  rfl

@[simp]
theorem fields?_object (fields : List (String × Json)) :
    (Json.object fields).fields? = some fields :=
  rfl

@[simp]
theorem depth_tagged (tag : String) (contents : Json) :
    (tagged tag contents).depth = contents.depth + 1 := by
  simp [tagged, depth, depthFields]

/-! ### Reading fields -/

section Reading

variable {α : Type} {fields : List (String × Json)} {name : String} {form : Json → Prop}
  {read : Json → Option α}

theorem Member.Found.required {value : α} (h : (Member.required name form).Found fields)
    (hread : ∀ json, form json → json.depth < (Json.object fields).depth → read json = some value) :
    Json.required fields name read = some value := by
  rcases h with ⟨json, hlookup, hform, hdepth⟩ | ⟨-, hfalse⟩
  · exact (congrArg (·.bind read) hlookup).trans (hread json hform hdepth)
  · exact hfalse.elim

/-- A field with one possible value. -/
theorem Member.Found.exact {json : Json} {value : α}
    (h : (Member.required name (· = json)).Found fields) (read : Json → Option α)
    (hread : read json = some value) : Json.required fields name read = some value :=
  h.required fun _ hjson _ => hjson ▸ hread

theorem Member.Found.defaulted {value default : α}
    (h : (Member.mk name form (value = default)).Found fields)
    (hread : ∀ json, form json → json.depth < (Json.object fields).depth → read json = some value) :
    Json.defaulted fields name read default = some value := by
  rcases h with ⟨json, hlookup, hform, hdepth⟩ | ⟨hlookup, hdefault⟩
  · rw [Json.defaulted, hlookup]
    exact hread json hform hdepth
  · rw [Json.defaulted, hlookup, hdefault]

/-- A field without a value, missing or null. -/
theorem Member.Found.optional_none {omittable : Prop}
    (h : (Member.mk name form omittable).Found fields) (hform : ∀ json, form json → json = .null) :
    Json.optional fields name read = some none := by
  rcases h with ⟨json, hlookup, hjson, -⟩ | ⟨hlookup, -⟩
  · rw [Json.optional, hlookup, hform json hjson]
  · rw [Json.optional, hlookup]

/-- A field with a value, which is there because it has one. -/
theorem Member.Found.optional_some {value : α}
    (h : (Member.mk name form (some value = none)).Found fields) (hnull : read .null = none)
    (hread : ∀ json, form json → json.depth < (Json.object fields).depth → read json = some value) :
    Json.optional fields name read = some (some value) := by
  rcases h with ⟨json, hlookup, hjson, hdepth⟩ | ⟨-, hnone⟩
  · have hvalue := hread json hjson hdepth
    rw [Json.optional, hlookup]
    cases json with
    | null => rw [hnull] at hvalue; cases hvalue
    | _ => exact congrArg (Option.map some) hvalue
  · cases hnone

/-- What an optional value looks like. -/
def IsOption (form : α → Json → Prop) : Option α → Json → Prop
  | none, json => json = .null
  | some value, json => form value json

theorem isOption_ofOption {form : α → Json → Prop} {write : α → Json}
    (hwrite : ∀ value, form value (write value)) (value : Option α) :
    IsOption form value (ofOption write value) := by
  cases value with
  | none => rfl
  | some value => exact hwrite value

theorem Member.Found.optional {form : α → Json → Prop} {value : Option α}
    (h : (Member.mk name (IsOption form value) (value = none)).Found fields)
    (hnull : read .null = none)
    (hread : ∀ found json, form found json → read json = some found) :
    Json.optional fields name read = some value := by
  cases value with
  | none => exact h.optional_none fun _ hjson => hjson
  | some value => exact h.optional_some hnull fun json hjson _ => hread value json hjson

theorem IsArray.list?_eq {values : List α} {items : List Json → Prop} {json : Json} {bound : Nat}
    (h : json.IsArray items) (hbound : json.depth < bound)
    (hread : ∀ jsons, items jsons → depthItems jsons < bound → jsons.mapM read = some values) :
    list? read json = some values := by
  obtain ⟨jsons, rfl, hitems⟩ := h
  rw [depth] at hbound
  exact hread jsons hitems (Nat.lt_of_succ_lt hbound)

/-- Of a list and JSON values: there is one value for each item, in order. -/
structure ItemByItem (form : α → Json → Prop) (listed : List α → List Json → Prop) : Prop where
  nil : ∀ {jsons}, listed [] jsons → jsons = []
  cons : ∀ {item rest jsons}, listed (item :: rest) jsons →
    ∃ first others, jsons = first :: others ∧ form item first ∧ listed rest others

theorem ItemByItem.list?_eq {form : α → Json → Prop} {listed : List α → List Json → Prop}
    (h : ItemByItem form listed) (hread : ∀ item json, form item json → read json = some item)
    {items : List α} {json : Json} (hjson : json.IsArray (listed items)) :
    list? read json = some items := by
  obtain ⟨jsons, rfl, hjsons⟩ := hjson
  rw [list?]
  induction items generalizing jsons with
  | nil =>
    rw [h.nil hjsons]
    rfl
  | cons item rest ih =>
    obtain ⟨first, others, rfl, hfirst, hothers⟩ := h.cons hjsons
    simp [List.mapM_cons, hread item first hfirst, ih others hothers]

/-- One value of the form for each item. -/
def Each (form : α → Json → Prop) : List α → List Json → Prop
  | [], jsons => jsons = []
  | item :: rest, jsons =>
    ∃ first others, jsons = first :: others ∧ form item first ∧ Each form rest others

theorem itemByItem_each (form : α → Json → Prop) : ItemByItem form (Each form) :=
  ⟨id, id⟩

theorem each_map {form : α → Json → Prop} {write : α → Json}
    (hwrite : ∀ item, form item (write item)) (items : List α) :
    Each form items (items.map write) := by
  induction items with
  | nil => rfl
  | cons item rest ih => exact ⟨_, _, rfl, hwrite item, ih⟩

end Reading

end Json

end LuaTyping
