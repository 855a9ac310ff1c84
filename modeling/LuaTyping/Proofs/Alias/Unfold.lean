import LuaTyping.Checking.TypeExpr
import LuaTyping.Proofs.Revision.Tree
import LuaTyping.Proofs.Yields

/-!
# Unfolded type names

`unfolded aliases` puts in the place of a type name what an alias says it stands for, and goes on
with the names in there.  A list of aliases has the latest first, and an alias can only use those
behind it, so that the unfolding ends by recursion on the list.

Where the aliases of a program are declared before they are used (`Ordered`), this is the unfolding
of all aliases everywhere: an alias stands for what is on its right-hand side with everything in it
unfolded (`unfolded_of_mem`), and no alias is left (`names_unfolded`).
-/

namespace LuaTyping

/-! ### The names in a type expression -/

namespace TypeExpr

mutual

/-- The type names in a type expression. -/
def names : TypeExpr → List String
  | .nil | .boolean | .integer | .float | .string | .any | .module => []
  | .name text _ => [text]
  | .array elem _ => names elem
  | .table fields _ => fieldNames fields
  | .function params returns _ => listNames params ++ listNames returns

/-- The type names in the type expressions of a list. -/
def listNames : List TypeExpr → List String
  | [] => []
  | type :: rest => names type ++ listNames rest

/-- The type names in the fields of a table type. -/
def fieldNames : List TypeField → List String
  | [] => []
  | ⟨_, type, _⟩ :: rest => names type ++ fieldNames rest

end

mutual

/-- Two revisions agree on a type expression if they agree on the names in it. -/
theorem revise_congr {r r' : Revision} (hloc : r.loc = r'.loc) : ∀ {type : TypeExpr},
    (∀ text ∈ type.names, r.name text = r'.name text) → type.revise r = type.revise r'
  | .nil, _ | .boolean, _ | .integer, _ | .float, _ | .string, _ | .any, _ | .module, _ => by
    simp only [revise]
  | .name text loc, h => by
    simp only [revise, h text List.mem_cons_self]
  | .array elem loc, h => by
    simp only [names] at h
    simp only [revise, hloc, revise_congr hloc h]
  | .table fields loc, h => by
    simp only [names] at h
    simp only [revise, hloc, reviseFields_congr hloc h]
  | .function params returns loc, h => by
    simp only [names, List.forall_mem_append] at h
    simp only [revise, hloc, reviseList_congr hloc h.1, reviseList_congr hloc h.2]

theorem reviseList_congr {r r' : Revision} (hloc : r.loc = r'.loc) : ∀ {types : List TypeExpr},
    (∀ text ∈ listNames types, r.name text = r'.name text) →
      reviseList r types = reviseList r' types
  | [], _ => by simp only [reviseList]
  | type :: rest, h => by
    simp only [listNames, List.forall_mem_append] at h
    simp only [reviseList, revise_congr hloc h.1, reviseList_congr hloc h.2]

theorem reviseFields_congr {r r' : Revision} (hloc : r.loc = r'.loc) : ∀ {fields : List TypeField},
    (∀ text ∈ fieldNames fields, r.name text = r'.name text) →
      reviseFields r fields = reviseFields r' fields
  | [], _ => by simp only [reviseFields]
  | ⟨key, type, loc⟩ :: rest, h => by
    simp only [fieldNames, List.forall_mem_append] at h
    simp only [reviseFields, hloc, revise_congr hloc h.1, reviseFields_congr hloc h.2]

end

mutual

/-- The names in a revised type expression come from what the revision makes of its names. -/
theorem names_revise {r : Revision} {P : String → Prop} : ∀ {type : TypeExpr},
    (∀ text ∈ type.names, ∀ loc, ∀ name ∈ (r.name text loc).names, P name) →
      ∀ name ∈ (type.revise r).names, P name
  | .nil, _ | .boolean, _ | .integer, _ | .float, _ | .string, _ | .any, _ | .module, _ => by
    simp [revise, names]
  | .name text loc, h => by
    simp only [revise]
    exact h text List.mem_cons_self loc
  | .array elem loc, h => by
    simp only [names] at h
    simp only [revise, names]
    exact names_revise h
  | .table fields loc, h => by
    simp only [names] at h
    simp only [revise, names]
    exact fieldNames_revise h
  | .function params returns loc, h => by
    simp only [names, List.forall_mem_append] at h
    simp only [revise, names, List.forall_mem_append]
    exact ⟨listNames_revise h.1, listNames_revise h.2⟩

theorem listNames_revise {r : Revision} {P : String → Prop} : ∀ {types : List TypeExpr},
    (∀ text ∈ listNames types, ∀ loc, ∀ name ∈ (r.name text loc).names, P name) →
      ∀ name ∈ listNames (reviseList r types), P name
  | [], _ => by simp [reviseList, listNames]
  | type :: rest, h => by
    simp only [listNames, List.forall_mem_append] at h
    simp only [reviseList, listNames, List.forall_mem_append]
    exact ⟨names_revise h.1, listNames_revise h.2⟩

theorem fieldNames_revise {r : Revision} {P : String → Prop} : ∀ {fields : List TypeField},
    (∀ text ∈ fieldNames fields, ∀ loc, ∀ name ∈ (r.name text loc).names, P name) →
      ∀ name ∈ fieldNames (reviseFields r fields), P name
  | [], _ => by simp [reviseFields, fieldNames]
  | ⟨key, type, loc⟩ :: rest, h => by
    simp only [fieldNames, List.forall_mem_append] at h
    simp only [reviseFields, fieldNames, List.forall_mem_append]
    exact ⟨names_revise h.1, fieldNames_revise h.2⟩

end

mutual

/-- The names in a type expression that resolves are declared. -/
theorem names_declared {scopes : Scopes} : ∀ {type : TypeExpr} {site : Location} {ty : Ty},
    (type.resolve scopes site).Yields ty → ∀ text ∈ type.names, text ∈ scopes.types.keys
  | .nil, _, _, _ | .boolean, _, _, _ | .integer, _, _, _ | .float, _, _, _ | .string, _, _, _
  | .any, _, _, _ | .module, _, _, _ => by simp [names]
  | .name text loc, _, ty, h => by
    simp only [resolve, Report.yields_orUnknown, Scopes.lookupType] at h
    obtain ⟨declared, hdeclared, -⟩ := Option.map_eq_some_iff.mp h
    simp only [names, List.mem_singleton, forall_eq]
    exact List.mem_map_of_mem (NameMap.mem_of_lookup hdeclared)
  | .array elem loc, _, _, h => by
    simp only [resolve, Report.yields_bind] at h
    obtain ⟨_, h, -⟩ := h
    simp only [names]
    exact names_declared h
  | .table fields loc, _, _, h => by
    simp only [resolve, Report.yields_bind] at h
    obtain ⟨_, h, -⟩ := h
    simp only [names]
    exact fieldNames_declared h
  | .function params returns loc, _, _, h => by
    simp only [resolve, Report.yields_bind] at h
    obtain ⟨_, hparams, _, hreturns, -⟩ := h
    simp only [names, List.forall_mem_append]
    exact ⟨listNames_declared hparams, listNames_declared hreturns⟩

theorem listNames_declared {scopes : Scopes} : ∀ {types : List TypeExpr} {site : Location}
    {tys : List Ty}, (resolveList scopes types site).Yields tys →
      ∀ text ∈ listNames types, text ∈ scopes.types.keys
  | [], _, _, _ => by simp [listNames]
  | type :: rest, _, _, h => by
    simp only [resolveList, Report.yields_bind] at h
    obtain ⟨_, hfirst, _, hrest, -⟩ := h
    simp only [listNames, List.forall_mem_append]
    exact ⟨names_declared hfirst, listNames_declared hrest⟩

theorem fieldNames_declared {scopes : Scopes} : ∀ {fields : List TypeField}
    {known resolved : NameMap Ty}, (resolveFields scopes fields known).Yields resolved →
      ∀ text ∈ fieldNames fields, text ∈ scopes.types.keys
  | [], _, _, _ => by simp [fieldNames]
  | ⟨key, type, loc⟩ :: rest, known, _, h => by
    simp only [resolveFields, Report.yields_bind] at h
    obtain ⟨_, hfirst, h⟩ := h
    simp only [fieldNames, List.forall_mem_append]
    refine ⟨names_declared hfirst, ?_⟩
    split at h
    · simp at h
    · exact fieldNames_declared h

end

end TypeExpr

/-! ### Unfolding -/

/-- What becomes of a type name when the aliases are unfolded. -/
def unfolded : List (String × TypeExpr) → String → Location → TypeExpr
  | [], text, loc => .name text loc
  | (name, type) :: earlier, text, loc =>
    if text = name then type.revise ⟨unfolded earlier, id⟩ else unfolded earlier text loc

/-- The revision that unfolds aliases. -/
def Revision.unfolding (aliases : List (String × TypeExpr)) : Revision :=
  ⟨unfolded aliases, id⟩

/-- Each alias is new, is not the module type, and uses neither itself nor a later one. -/
def Ordered : List (String × TypeExpr) → Prop
  | [] => True
  | (name, type) :: earlier =>
    name ∉ earlier.map Prod.fst ∧ type.isModule = false ∧
      (∀ entry ∈ (name, type) :: earlier, name ∉ entry.2.names) ∧ Ordered earlier

variable {aliases : List (String × TypeExpr)}

/-- A name that is no alias stays. -/
theorem unfolded_of_not_mem {text : String} (h : text ∉ aliases.map Prod.fst) (loc : Location) :
    unfolded aliases text loc = .name text loc := by
  induction aliases with
  | nil => rfl
  | cons entry earlier ih =>
    obtain ⟨name, type⟩ := entry
    simp only [List.map_cons, List.mem_cons, not_or] at h
    rw [unfolded, if_neg h.1, ih h.2]

/-- A type expression that does not use the latest alias. -/
theorem revise_unfolding_cons {entry : String × TypeExpr} {earlier : List (String × TypeExpr)}
    {type : TypeExpr} (h : entry.1 ∉ type.names) :
    type.revise (.unfolding (entry :: earlier)) = type.revise (.unfolding earlier) := by
  have hloc : (Revision.unfolding (entry :: earlier)).loc = (Revision.unfolding earlier).loc := rfl
  refine TypeExpr.revise_congr hloc fun text htext => ?_
  have hne : text ≠ entry.1 := fun heq => h (heq ▸ htext)
  funext loc
  exact if_neg hne

/-- **An alias stands for its right-hand side with all aliases in it unfolded.** -/
theorem unfolded_of_mem (ho : Ordered aliases) {name : String} {type : TypeExpr}
    (h : (name, type) ∈ aliases) (loc : Location) :
    unfolded aliases name loc = type.revise (.unfolding aliases) := by
  induction aliases with
  | nil => cases h
  | cons entry earlier ih =>
    obtain ⟨latest, target⟩ := entry
    obtain ⟨hnew, -, hunused, hearlier⟩ := ho
    rw [revise_unfolding_cons (hunused _ h)]
    rcases List.mem_cons.mp h with heq | hmem
    · cases heq
      exact if_pos rfl
    · have hne : name ≠ latest := by
        rintro rfl
        exact hnew (List.mem_map_of_mem hmem)
      rw [unfolded, if_neg hne, ih hearlier hmem]

/-- A name in what a name is unfolded to was there before, as the name itself or on the right-hand
side of an alias. -/
theorem names_unfolded_from (text : String) (loc : Location) :
    ∀ name ∈ (unfolded aliases text loc).names,
      name = text ∨ ∃ entry ∈ aliases, name ∈ entry.2.names := by
  induction aliases generalizing text loc with
  | nil =>
    intro name hname
    exact Or.inl (List.mem_singleton.mp hname)
  | cons entry earlier ih =>
    obtain ⟨latest, target⟩ := entry
    rw [unfolded]
    split
    · refine TypeExpr.names_revise fun source hsource loc name hname => Or.inr ?_
      rcases ih source loc name hname with rfl | ⟨entry, hentry, hname⟩
      · exact ⟨_, List.mem_cons_self, hsource⟩
      · exact ⟨entry, List.mem_cons_of_mem _ hentry, hname⟩
    · intro name hname
      rcases ih text loc name hname with rfl | ⟨entry, hentry, hname⟩
      · exact Or.inl rfl
      · exact Or.inr ⟨entry, List.mem_cons_of_mem _ hentry, hname⟩

/-- **No alias is left in what a name is unfolded to.** -/
theorem names_unfolded (ho : Ordered aliases) (text : String) (loc : Location) :
    ∀ name ∈ (unfolded aliases text loc).names, name ∉ aliases.map Prod.fst := by
  induction aliases generalizing text loc with
  | nil => exact fun _ _ => List.not_mem_nil
  | cons entry earlier ih =>
    obtain ⟨latest, target⟩ := entry
    obtain ⟨-, -, hunused, hearlier⟩ := ho
    -- without the latest alias itself, only right-hand sides before it can bring in names
    have hstep : ∀ source loc, source ≠ latest → ∀ name ∈ (unfolded earlier source loc).names,
        name ∉ ((latest, target) :: earlier).map Prod.fst := by
      intro source loc hsource name hname
      have hne : name ≠ latest := by
        rintro rfl
        rcases names_unfolded_from source loc name hname with rfl | ⟨entry, hentry, hmem⟩
        · exact hsource rfl
        · exact hunused entry (List.mem_cons_of_mem _ hentry) hmem
      simpa only [List.map_cons, List.mem_cons, not_or] using ⟨hne, ih hearlier source loc name hname⟩
    rw [unfolded]
    split
    · refine TypeExpr.names_revise fun source hsource loc => hstep source loc ?_
      rintro rfl
      exact hunused _ List.mem_cons_self hsource
    · next hne => exact hstep text loc hne

/-- Unfolding puts the module type nowhere. -/
theorem unfolded_isModule (ho : Ordered aliases) (text : String) (loc : Location) :
    (unfolded aliases text loc).isModule = false := by
  induction aliases generalizing text loc with
  | nil => rfl
  | cons entry earlier ih =>
    obtain ⟨latest, target⟩ := entry
    obtain ⟨-, htarget, -, hearlier⟩ := ho
    rw [unfolded]
    split
    · cases target with
      | module => cases htarget
      | name text loc =>
        rw [TypeExpr.revise]
        exact ih hearlier text loc
      | _ => simp only [TypeExpr.revise, TypeExpr.isModule]
    · exact ih hearlier text loc

end LuaTyping
