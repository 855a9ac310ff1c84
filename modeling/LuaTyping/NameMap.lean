/-!
# Maps from names, in order of first insertion

A `NameMap` lists its entries in the order in which their names first appeared: inserting a name
again replaces its value and keeps its place.  Types list their fields this way, and scopes,
builtins and modules their names.  `lookup_insert` says what an insertion does to a look-up and
`keys_insert` what it does to the order; `firsts` keeps the first of several entries for a name.
-/

namespace LuaTyping

/-- Entries in the order in which their names first appeared. -/
abbrev NameMap (α : Type) := List (String × α)

namespace NameMap

variable {α β : Type}

/-- Replaces the value of a name that is present and appends the entry otherwise. -/
def insert : NameMap α → String → α → NameMap α
  | [], name, value => [(name, value)]
  | (key, old) :: rest, name, value =>
    if key = name then (key, value) :: rest else (key, old) :: insert rest name value

/-- The map obtained by inserting the entries one after another. -/
def ofEntries (entries : List (String × α)) : NameMap α :=
  entries.foldl (fun map entry => insert map entry.1 entry.2) []

/-- Whether the name has an entry. -/
def contains (map : NameMap α) (name : String) : Bool :=
  (map.lookup name).isSome

/-- The names in order. -/
def keys (map : NameMap α) : List String :=
  map.map Prod.fst

/-- The same names in the same order, with their values changed by `f`. -/
def mapValues (f : α → β) (map : NameMap α) : NameMap β :=
  map.map fun entry => (entry.1, f entry.2)

/-! ### Look-ups and order after an insertion -/

/-- The first entry hides later ones of its name. -/
theorem lookup_cons (map : NameMap α) (key other : String) (value : α) :
    ((key, value) :: map).lookup other = if other = key then some value else map.lookup other := by
  by_cases h : other = key
  · subst h; simp
  · rw [List.lookup_cons, beq_false_of_ne h, if_neg h]

/-- An insertion changes what its own name stands for and nothing else. -/
theorem lookup_insert (map : NameMap α) (name other : String) (value : α) :
    (insert map name value).lookup other =
      if other = name then some value else map.lookup other := by
  induction map with
  | nil => rw [insert, lookup_cons]
  | cons entry rest ih =>
    obtain ⟨key, old⟩ := entry
    by_cases hk : key = name
    · subst hk
      rw [insert, if_pos rfl, lookup_cons, lookup_cons]
      split <;> rfl
    · rw [insert, if_neg hk, lookup_cons, lookup_cons, ih]
      by_cases ho : other = key <;> simp [ho, hk]

/-- A name that is present keeps its place; a new one comes last. -/
theorem keys_insert (map : NameMap α) (name : String) (value : α) :
    keys (insert map name value) = if name ∈ keys map then keys map else keys map ++ [name] := by
  induction map with
  | nil => rfl
  | cons entry rest ih =>
    obtain ⟨key, old⟩ := entry
    by_cases hk : key = name
    · subst hk
      simp [insert, keys]
    · have hk' : name ≠ key := fun h => hk h.symm
      by_cases hr : name ∈ keys rest
      · simp only [insert, if_neg hk]
        simp only [keys, List.map_cons] at ih hr ⊢
        simp [ih, hr]
      · simp only [insert, if_neg hk]
        simp only [keys, List.map_cons] at ih hr ⊢
        simp [ih, hr, hk']

theorem mem_keys_insert {map : NameMap α} {name other : String} {value : α} :
    other ∈ (map.insert name value).keys ↔ other ∈ map.keys ∨ other = name := by
  rw [keys_insert]
  by_cases hmem : name ∈ map.keys
  · rw [if_pos hmem]
    refine ⟨Or.inl, fun h => h.elim id ?_⟩
    rintro rfl
    exact hmem
  · rw [if_neg hmem, List.mem_append, List.mem_singleton]

theorem nodup_keys_insert {map : NameMap α} {name : String} {value : α}
    (h : map.keys.Nodup) : (map.insert name value).keys.Nodup := by
  rw [keys_insert]
  split
  · exact h
  · next hmem => simpa [List.nodup_append] using ⟨h, fun key hkey he => hmem (he ▸ hkey)⟩

/-- A new name comes last, with its value. -/
theorem insert_eq_append {map : NameMap α} {name : String} (h : map.lookup name = none)
    (value : α) :
    map.insert name value = map ++ [(name, value)] := by
  induction map with
  | nil => rfl
  | cons entry rest ih =>
    obtain ⟨key, old⟩ := entry
    rw [lookup_cons] at h
    split at h
    · cases h
    · next hk => rw [insert, if_neg (Ne.symm hk), ih h, List.cons_append]

theorem lookup_eq_none_iff {map : NameMap α} {name : String} :
    map.lookup name = none ↔ name ∉ map.keys := by
  induction map with
  | nil => simp [keys]
  | cons entry rest ih =>
    obtain ⟨key, old⟩ := entry
    rw [lookup_cons]
    by_cases hk : name = key
    · simp [hk, keys]
    · simpa [hk, keys] using ih

theorem keys_mapValues (f : α → β) (map : NameMap α) : (map.mapValues f).keys = map.keys := by
  simp [keys, mapValues]

theorem lookup_mapValues (f : α → β) (map : NameMap α) (name : String) :
    (map.mapValues f).lookup name = (map.lookup name).map f := by
  induction map with
  | nil => rfl
  | cons entry rest ih =>
    obtain ⟨key, old⟩ := entry
    have hcons : mapValues f ((key, old) :: rest) = (key, f old) :: mapValues f rest := rfl
    rw [hcons, lookup_cons, lookup_cons, ih]
    split <;> rfl

theorem mapValues_insert (f : α → β) (map : NameMap α) (name : String) (value : α) :
    (map.insert name value).mapValues f = (map.mapValues f).insert name (f value) := by
  induction map with
  | nil => rfl
  | cons entry rest ih =>
    obtain ⟨key, old⟩ := entry
    have hcons : mapValues f ((key, old) :: rest) = (key, f old) :: mapValues f rest := rfl
    rw [hcons, insert, insert, ← ih]
    split <;> rfl

/-! ### Entries -/

/-- What a look-up finds is an entry. -/
theorem mem_of_lookup {map : NameMap α} {name : String} {value : α}
    (h : map.lookup name = some value) : (name, value) ∈ map := by
  induction map with
  | nil => simp at h
  | cons entry rest ih =>
    obtain ⟨key, old⟩ := entry
    rw [lookup_cons] at h
    split at h
    · next hk =>
      cases h
      rw [hk]
      exact List.mem_cons_self
    · exact List.mem_cons_of_mem _ (ih h)

/-- The entries after an insertion are old ones and the new one. -/
theorem mem_insert {map : NameMap α} {name : String} {value : α} {entry : String × α}
    (h : entry ∈ map.insert name value) : entry ∈ map ∨ entry = (name, value) := by
  induction map with
  | nil => exact Or.inr (List.mem_singleton.mp h)
  | cons first rest ih =>
    obtain ⟨key, old⟩ := first
    unfold insert at h
    split at h
    · next hk =>
      rcases List.mem_cons.mp h with rfl | h
      · exact Or.inr (by rw [hk])
      · exact Or.inl (List.mem_cons_of_mem _ h)
    · rcases List.mem_cons.mp h with rfl | h
      · exact Or.inl List.mem_cons_self
      · rcases ih h with h | h
        · exact Or.inl (List.mem_cons_of_mem _ h)
        · exact Or.inr h

/-- In a map without repeated names a look-up finds every entry. -/
theorem lookup_eq_some_iff {map : NameMap α} {name : String} {value : α} (h : map.keys.Nodup) :
    map.lookup name = some value ↔ (name, value) ∈ map := by
  refine ⟨mem_of_lookup, fun hmem => ?_⟩
  induction map with
  | nil => simp at hmem
  | cons entry rest ih =>
    obtain ⟨key, old⟩ := entry
    simp only [keys, List.map_cons, List.nodup_cons] at h
    rw [lookup_cons]
    rcases List.mem_cons.mp hmem with heq | hmem
    · cases heq
      simp
    · have hne : name ≠ key := fun he => h.1 (he ▸ List.mem_map_of_mem hmem)
      rw [if_neg hne]
      exact ih h.2 hmem

/-! ### The first entry for each name -/

/-- The first entry for each name, in order. -/
def firsts : List (String × α) → NameMap α
  | [] => []
  | entry :: rest => entry :: (firsts rest).filter (·.1 ≠ entry.1)

theorem mem_keys_firsts {name : String} {entries : List (String × α)} :
    name ∈ (firsts entries).keys ↔ name ∈ entries.map Prod.fst := by
  induction entries with
  | nil => rfl
  | cons entry rest ih =>
    simp only [keys, List.mem_map, firsts, List.map_cons, List.mem_cons, List.mem_filter] at ih ⊢
    constructor
    · rintro (heq | ⟨found, ⟨hmem, -⟩, rfl⟩)
      · exact Or.inl heq
      · exact Or.inr (ih.mp ⟨found, hmem, rfl⟩)
    · rintro (heq | hmem)
      · exact Or.inl heq
      · by_cases hname : name = entry.1
        · exact Or.inl hname
        · obtain ⟨found, hfound, rfl⟩ := ih.mpr hmem
          exact Or.inr ⟨found, ⟨hfound, by simpa using hname⟩, rfl⟩

/-- An entry counts if there is none for its name before it. -/
theorem firsts_concat (entries : List (String × α)) (entry : String × α) :
    firsts (entries ++ [entry]) =
      if entry.1 ∈ entries.map Prod.fst then firsts entries else firsts entries ++ [entry] := by
  induction entries with
  | nil => rfl
  | cons first rest ih =>
    rw [List.cons_append, firsts, ih, firsts, List.map_cons]
    by_cases hrest : entry.1 ∈ rest.map Prod.fst
    · rw [if_pos hrest, if_pos (List.mem_cons_of_mem _ hrest)]
    · rw [if_neg hrest, List.filter_append]
      by_cases hfirst : entry.1 = first.1 <;> simp [hfirst, hrest]

/-- The first entry is what a look-up finds. -/
theorem lookup_firsts (entries : List (String × α)) (name : String) :
    (firsts entries).lookup name = entries.lookup name := by
  have hfilter : ∀ {map : NameMap α} {key : String}, name ≠ key →
      (map.filter (·.1 ≠ key)).lookup name = map.lookup name := by
    intro map key hne
    induction map with
    | nil => rfl
    | cons entry rest ih =>
      obtain ⟨other, value⟩ := entry
      rw [List.filter_cons, lookup_cons]
      by_cases hk : other = key
      · rw [if_neg (by simp [hk]), if_neg (by rwa [hk]), ih]
      · rw [if_pos (by simp [hk]), lookup_cons, ih]
  induction entries with
  | nil => rfl
  | cons entry rest ih =>
    obtain ⟨key, value⟩ := entry
    rw [firsts, lookup_cons, lookup_cons]
    split
    · rfl
    · next hne => rw [hfilter hne, ih]

/-- A name that has an entry keeps it. -/
theorem firsts_concat_of_some {entries : List (String × α)} {name : String} {old : α}
    (h : (firsts entries).lookup name = some old) (value : α) :
    firsts (entries ++ [(name, value)]) = firsts entries := by
  have hmem : name ∈ (firsts entries).keys := List.mem_map_of_mem (mem_of_lookup h)
  rw [firsts_concat, if_pos (mem_keys_firsts.mp hmem)]

/-- A new name comes last. -/
theorem firsts_concat_of_none {entries : List (String × α)} {name : String}
    (h : (firsts entries).lookup name = none) (value : α) :
    firsts (entries ++ [(name, value)]) = (firsts entries).insert name value := by
  rw [insert_eq_append h, firsts_concat, if_neg]
  rwa [← mem_keys_firsts, ← lookup_eq_none_iff]

end NameMap

end LuaTyping
