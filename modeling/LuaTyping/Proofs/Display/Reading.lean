import LuaTyping.Checking.Expr
import LuaTyping.Proofs.Sameness.Filling

/-!
# The text of a type can be read back

The text of a type shows the names of records alone, so it determines a type up to the fields of its
records and modules: `ty.bare` is the type without them.  Where names are words and no record has
the name of a basic type, types with one text agree in all the rest, the order of fields included.

The texts of types are no prefix code: `float` begins the text of a record `floats`.  But no type is
followed by a character that could continue a word, and two texts with such rests are equal only if
the types are and the rests are (`readsBack`).
-/

namespace LuaTyping

/-! ### Words -/

/-- A character of a word: an ASCII letter, a digit or an underscore. -/
def isWordChar (c : Char) : Bool :=
  c.isAlphanum || c == '_'

/-- A name of one or more word characters. -/
def IsWord (name : String) : Prop :=
  name.toList ≠ [] ∧ ∀ c ∈ name.toList, isWordChar c = true

instance (name : String) : Decidable (IsWord name) :=
  decidable_of_iff (name.toList ≠ [] ∧ name.toList.all isWordChar = true)
    (and_congr_right' List.all_eq_true)

/-- A text that does not go on with a word. -/
def EndsWord (rest : List Char) : Prop :=
  ∀ c ∈ rest.head?, isWordChar c = false

theorem endsWord_nil : EndsWord [] := by
  simp [EndsWord]

theorem endsWord_cons {c : Char} {rest : List Char} (h : isWordChar c = false) :
    EndsWord (c :: rest) := by
  simpa [EndsWord] using h

theorem takeWhile_word {word : String} {rest : List Char} (hw : IsWord word)
    (hr : EndsWord rest) : (word.toList ++ rest).takeWhile isWordChar = word.toList := by
  rw [List.takeWhile_append_of_pos hw.2]
  cases rest with
  | nil => simp
  | cons c rest => rw [List.takeWhile_cons_of_neg (by simp [hr c rfl]), List.append_nil]

/-- A word ends where the first other character stands. -/
theorem word_append_inj {word word' : String} {rest rest' : List Char} (hw : IsWord word)
    (hw' : IsWord word') (hr : EndsWord rest) (hr' : EndsWord rest')
    (h : word.toList ++ rest = word'.toList ++ rest') : word = word' ∧ rest = rest' := by
  have hwords : word.toList = word'.toList := by
    rw [← takeWhile_word hw hr, h, takeWhile_word hw' hr']
  exact ⟨String.toList_inj.mp hwords, List.append_cancel_left (hwords ▸ h)⟩

/-- A word does not begin like something that is none. -/
theorem IsWord.append_ne {word : String} {rest rest' : List Char} {c : Char} (hw : IsWord word)
    (hc : isWordChar c = false) : word.toList ++ rest ≠ c :: rest' := by
  intro h
  obtain ⟨hne, hall⟩ := hw
  cases hword : word.toList with
  | nil => exact hne hword
  | cons first others =>
    rw [hword, List.cons_append, List.cons.injEq] at h
    have hfirst := hall first (by rw [hword]; exact List.mem_cons_self)
    rw [h.1, hc] at hfirst
    cases hfirst

namespace Ty

/-! ### What the text shows -/

mutual

/-- The type without the fields of its records and modules. -/
def bare : Ty → Ty
  | .array elem => .array (bare elem)
  | .table fields => .table (bareFields fields)
  | .record name _ => .record name []
  | .function params returns => .function (bareList params) (bareList returns)
  | .module _ => .module []
  | ty => ty

/-- Types without the fields of their records and modules. -/
def bareList : List Ty → List Ty
  | [] => []
  | ty :: rest => bare ty :: bareList rest

/-- Fields of types without the fields of their records and modules. -/
def bareFields : List (String × Ty) → List (String × Ty)
  | [] => []
  | (name, ty) :: rest => (name, bare ty) :: bareFields rest

end

/-- The words that stand for types other than records. -/
def reserved : List String :=
  ["nil", "boolean", "integer", "float", "string", "any", "module", "unknown"]

/-- The name of a record. -/
def recordName? : Ty → Option String
  | .record name _ => some name
  | _ => none

/-- The names of fields and records in the type are words, and no record is named like another
type. -/
def Legible (ty : Ty) : Prop :=
  ∀ node ∈ ty.nodes, (∀ name ∈ node.fieldNames, IsWord name) ∧
    ∀ name ∈ node.recordName?, IsWord name ∧ name ∉ reserved

instance (ty : Ty) : Decidable ty.Legible :=
  inferInstanceAs (Decidable (∀ node ∈ ty.nodes, _ ∧ _))

variable {ty left right : Ty} {rest rest' : List Char}

theorem Legible.mono (h : left.Legible) (hsub : right.nodes ⊆ left.nodes) : right.Legible :=
  fun node hnode => h node (hsub hnode)

theorem Legible.elem (h : (array ty).Legible) : ty.Legible :=
  h.mono (List.subset_cons_self _ _)

theorem Legible.field {fields : List (String × Ty)} (h : (table fields).Legible) :
    ∀ entry ∈ fields, IsWord entry.1 ∧ entry.2.Legible := by
  intro entry hentry
  refine ⟨(h _ self_mem_nodes).1 entry.1 (List.mem_map_of_mem hentry), h.mono fun node hnode => ?_⟩
  exact List.mem_cons_of_mem _ (mem_fieldNodes.mpr ⟨entry, hentry, hnode⟩)

theorem Legible.param {params returns : List Ty} (h : (function params returns).Legible) :
    ∀ ty ∈ params, ty.Legible := by
  intro ty hty
  refine h.mono fun node hnode => List.mem_cons_of_mem _ (List.mem_append_left _ ?_)
  exact mem_listNodes.mpr ⟨ty, hty, hnode⟩

theorem Legible.result {params returns : List Ty} (h : (function params returns).Legible) :
    ∀ ty ∈ returns, ty.Legible := by
  intro ty hty
  refine h.mono fun node hnode => List.mem_cons_of_mem _ (List.mem_append_right _ ?_)
  exact mem_listNodes.mpr ⟨ty, hty, hnode⟩

/-! ### Types that are shown as one word -/

/-- The word that a type is shown as, if it is one. -/
def word? : Ty → Option String
  | .nil => some "nil"
  | .boolean => some "boolean"
  | .integer => some "integer"
  | .float => some "float"
  | .string => some "string"
  | .any => some "any"
  | .record name _ => some name
  | .module _ => some "module"
  | .unknown => some "unknown"
  | .array _ | .table _ | .function .. => none

theorem display_of_word {word : String} (h : ty.word? = some word) : ty.display = word := by
  cases ty <;> cases h <;> rfl

theorem Legible.isWord {word : String} (h : ty.Legible) (hw : ty.word? = some word) :
    IsWord word := by
  cases ty with
  | record name fields =>
    cases hw
    exact ((h _ self_mem_nodes).2 _ rfl).1
  | array | table | function => cases hw
  | _ =>
    cases hw
    decide

/-- The type that is shown as a word. -/
def ofWord : String → Ty
  | "nil" => .nil
  | "boolean" => .boolean
  | "integer" => .integer
  | "float" => .float
  | "string" => .string
  | "any" => .any
  | "module" => .module []
  | "unknown" => .unknown
  | name => .record name []

theorem ofWord_of_not_mem {name : String} (h : name ∉ reserved) :
    ofWord name = .record name [] := by
  unfold ofWord
  split <;> first | rfl | exact absurd (by decide) h

/-- The word tells which type it is. -/
theorem Legible.bare_eq_ofWord {word : String} (h : ty.Legible) (hw : ty.word? = some word) :
    ty.bare = ofWord word := by
  cases ty with
  | record name fields =>
    cases hw
    exact (ofWord_of_not_mem ((h _ self_mem_nodes).2 _ rfl).2).symm
  | array | table | function => cases hw
  | _ =>
    cases hw
    rfl

/-! ### The texts of types with parts -/

theorem display_array {elem : Ty} : (array elem).display.toList ++ rest =
    '\x7b' :: ' ' :: (elem.display.toList ++ ' ' :: '\x7d' :: rest) := by
  simp [display]

theorem display_table_nil : (table []).display.toList ++ rest = '\x7b' :: '\x7d' :: rest := by
  simp [display]

theorem display_table_cons {name : String} {others : List (String × Ty)} :
    (table ((name, ty) :: others)).display.toList ++ rest =
      '\x7b' :: ' ' :: (name.toList ++ ':' :: ' ' :: (ty.display.toList ++
        ((displayFields others).toList ++ ' ' :: '\x7d' :: rest))) := by
  simp [display]

theorem display_function {params returns : List Ty} :
    (function params returns).display.toList ++ rest =
      '(' :: ((displayList params).toList ++ ')' :: ' ' :: '-' :: '>' :: ' ' :: '(' ::
        ((displayList returns).toList ++ ')' :: rest)) := by
  simp [display]

theorem displayFields_cons {name : String} {others : List (String × Ty)} :
    (displayFields ((name, ty) :: others)).toList ++ rest =
      ',' :: ' ' :: (name.toList ++ ':' :: ' ' :: (ty.display.toList ++
        ((displayFields others).toList ++ rest))) := by
  simp [displayFields]

/-- Types, each after a comma. -/
def displayMore (tys : List Ty) : List Char :=
  tys.flatMap fun ty => ',' :: ' ' :: ty.display.toList

theorem displayList_cons {others : List Ty} : (displayList (ty :: others)).toList ++ rest =
    ty.display.toList ++ (displayMore others ++ rest) := by
  induction others generalizing ty with
  | nil => simp [displayList, displayMore]
  | cons next others ih =>
    rw [displayList, String.toList_append, String.toList_append, List.append_assoc, ih]
    · simp [displayMore]
    · simp

theorem displayMore_cons {others : List Ty} : displayMore (ty :: others) ++ rest =
    ',' :: ' ' :: (ty.display.toList ++ (displayMore others ++ rest)) := by
  simp [displayMore]

/-- The text of a type that is not a word begins with a bracket. -/
theorem display_of_not_word (rest : List Char) (h : ty.word? = none) : ∃ first others,
    ty.display.toList ++ rest = first :: others ∧ (first = '\x7b' ∨ first = '(') := by
  cases ty with
  | array elem => exact ⟨_, _, display_array, .inl rfl⟩
  | table fields =>
    cases fields with
    | nil => exact ⟨_, _, display_table_nil, .inl rfl⟩
    | cons entry others => exact ⟨_, _, display_table_cons, .inl rfl⟩
  | function params returns => exact ⟨_, _, display_function, .inr rfl⟩
  | _ => cases h

/-- No text of a type begins with a closing bracket. -/
theorem Legible.display_ne (h : ty.Legible) : ty.display.toList ++ rest ≠ ')' :: rest' := by
  cases hw : ty.word? with
  | some word =>
    rw [display_of_word hw]
    exact (h.isWord hw).append_ne (by decide)
  | none =>
    obtain ⟨first, others, hfirst, hbracket⟩ := display_of_not_word rest hw
    rw [hfirst]
    rintro ⟨⟩
    rcases hbracket with h | h <;> cases h

/-- A type with parts is not shown as a word. -/
theorem word?_of_bracket {first : Char} {others : List Char} (h : ty.Legible)
    (ht : ty.display.toList ++ rest = first :: others) (hfirst : isWordChar first = false) :
    ty.word? = none := by
  cases hw : ty.word? with
  | none => rfl
  | some word =>
    rw [display_of_word hw] at ht
    exact absurd ht ((h.isWord hw).append_ne hfirst)

/-- An array is not shown like a table: what follows a field name is a colon. -/
theorem display_array_ne_table {elem : Ty} {name : String} {others : List (String × Ty)}
    (h : elem.Legible) (hname : IsWord name) :
    (array elem).display.toList ++ rest ≠
      (table ((name, ty) :: others)).display.toList ++ rest' := by
  rw [display_array, display_table_cons]
  intro heq
  rw [List.cons.injEq, List.cons.injEq] at heq
  obtain ⟨-, -, heq⟩ := heq
  cases hw : elem.word? with
  | some word =>
    rw [display_of_word hw] at heq
    have hrest := (word_append_inj (h.isWord hw) hname (endsWord_cons (by decide))
      (endsWord_cons (by decide)) heq).2
    cases hrest
  | none =>
    obtain ⟨first, others, hfirst, hbracket⟩ := display_of_not_word (' ' :: '\x7d' :: rest) hw
    rw [hfirst] at heq
    refine hname.append_ne ?_ heq.symm
    rcases hbracket with rfl | rfl <;> decide

/-! ### What else can have the text of a type with parts -/

theorem eq_array_of_display {elem : Ty} (hl : elem.Legible) (hr : right.Legible)
    (h : (array elem).display.toList ++ rest = right.display.toList ++ rest') :
    ∃ elem', right = array elem' := by
  have hw := word?_of_bracket hr (h.symm.trans display_array) (by decide)
  cases right with
  | array elem' => exact ⟨elem', rfl⟩
  | table fields =>
    cases fields with
    | nil =>
      rw [display_array, display_table_nil] at h
      simp at h
    | cons entry others =>
      exact absurd h (display_array_ne_table hl (hr.field _ List.mem_cons_self).1)
  | function params returns =>
    rw [display_array, display_function] at h
    simp at h
  | _ => cases hw

theorem eq_table_nil_of_display (hr : right.Legible)
    (h : (table []).display.toList ++ rest = right.display.toList ++ rest') : right = table [] := by
  have hw := word?_of_bracket hr (h.symm.trans display_table_nil) (by decide)
  rw [display_table_nil] at h
  cases right with
  | array elem =>
    rw [display_array] at h
    simp at h
  | table fields =>
    cases fields with
    | nil => rfl
    | cons entry others =>
      rw [display_table_cons] at h
      simp at h
  | function params returns =>
    rw [display_function] at h
    simp at h
  | _ => cases hw

theorem eq_table_cons_of_display {entry : String × Ty} {others : List (String × Ty)}
    (hl : IsWord entry.1) (hr : right.Legible)
    (h : (table (entry :: others)).display.toList ++ rest = right.display.toList ++ rest') :
    ∃ entry' others', right = table (entry' :: others') := by
  have hw := word?_of_bracket hr (h.symm.trans display_table_cons) (by decide)
  cases right with
  | array elem => exact absurd h.symm (display_array_ne_table hr.elem hl)
  | table fields =>
    cases fields with
    | nil =>
      rw [display_table_cons, display_table_nil] at h
      simp at h
    | cons entry' others' => exact ⟨entry', others', rfl⟩
  | function params returns =>
    rw [display_table_cons, display_function] at h
    simp at h
  | _ => cases hw

theorem eq_function_of_display {params returns : List Ty} (hr : right.Legible)
    (h : (function params returns).display.toList ++ rest = right.display.toList ++ rest') :
    ∃ params' returns', right = function params' returns' := by
  have hw := word?_of_bracket hr (h.symm.trans display_function) (by decide)
  rw [display_function] at h
  cases right with
  | array elem =>
    rw [display_array] at h
    simp at h
  | table fields =>
    cases fields with
    | nil =>
      rw [display_table_nil] at h
      simp at h
    | cons entry others =>
      rw [display_table_cons] at h
      simp at h
  | function params' returns' => exact ⟨params', returns', rfl⟩
  | _ => cases hw

/-! ### Reading a type back -/

/-- What is shown as a word is read as that word. -/
theorem readsBack_of_word {word : String} (hl : left.Legible) (hr : right.Legible)
    (hrest : EndsWord rest) (hrest' : EndsWord rest') (hw : left.word? = some word)
    (h : left.display.toList ++ rest = right.display.toList ++ rest') :
    left.bare = right.bare ∧ rest = rest' := by
  rw [display_of_word hw] at h
  cases hw' : right.word? with
  | some word' =>
    rw [display_of_word hw'] at h
    obtain ⟨rfl, hrests⟩ := word_append_inj (hl.isWord hw) (hr.isWord hw') hrest hrest' h
    exact ⟨(hl.bare_eq_ofWord hw).trans (hr.bare_eq_ofWord hw').symm, hrests⟩
  | none =>
    obtain ⟨first, others, hfirst, hbracket⟩ := display_of_not_word rest' hw'
    rw [hfirst] at h
    refine absurd h ((hl.isWord hw).append_ne ?_)
    rcases hbracket with rfl | rfl <;> decide

theorem endsWord_displayMore {tys : List Ty} : EndsWord (displayMore tys ++ ')' :: rest) := by
  cases tys with
  | nil => exact endsWord_cons (by decide)
  | cons ty others =>
    rw [displayMore_cons]
    exact endsWord_cons (by decide)

theorem endsWord_displayFields {fields : List (String × Ty)} :
    EndsWord ((displayFields fields).toList ++ ' ' :: '\x7d' :: rest) := by
  cases fields with
  | nil => exact endsWord_cons (by decide)
  | cons entry others =>
    rw [displayFields_cons]
    exact endsWord_cons (by decide)

/-- The direct parts of a type. -/
def children : Ty → List Ty
  | .array elem => [elem]
  | .table fields | .record _ fields | .module fields => fields.map Prod.snd
  | .function params returns => params ++ returns
  | _ => []

theorem sizeOf_lt_of_mem_children {child : Ty} (h : child ∈ ty.children) :
    sizeOf child < sizeOf ty := by
  have hfield : ∀ {fields : List (String × Ty)}, child ∈ fields.map Prod.snd →
      sizeOf child < sizeOf fields := by
    intro fields hmem
    obtain ⟨entry, hentry, rfl⟩ := List.mem_map.mp hmem
    have hlt := List.sizeOf_lt_of_mem hentry
    have hpair : sizeOf entry = 1 + sizeOf entry.1 + sizeOf entry.2 := rfl
    omega
  cases ty with
  | array elem =>
    cases List.mem_singleton.mp h
    simp
  | table fields | record _ fields | module fields =>
    have := hfield h
    simp
    omega
  | function params returns =>
    rw [function.sizeOf_spec]
    rcases List.mem_append.mp h with h | h
    · have := List.sizeOf_lt_of_mem h
      omega
    · have := List.sizeOf_lt_of_mem h
      omega
  | _ => simp [children] at h

/-- Induction from the direct parts of a type to the type. -/
@[elab_as_elim]
theorem children_induction {motive : Ty → Prop}
    (h : ∀ ty, (∀ child ∈ ty.children, motive child) → motive ty) (ty : Ty) : motive ty :=
  h ty fun child _ => children_induction h child
termination_by sizeOf ty
decreasing_by exact sizeOf_lt_of_mem_children ‹_›

/-- A type with the same text is the same as far as the text shows, where no word goes on behind the
texts. -/
def ReadsBack (left : Ty) : Prop :=
  ∀ (right : Ty) (rest rest' : List Char), left.Legible → right.Legible → EndsWord rest →
    EndsWord rest' → left.display.toList ++ rest = right.display.toList ++ rest' →
      left.bare = right.bare ∧ rest = rest'

theorem displayMore_append_inj {tys tys' : List Ty} (hread : ∀ ty ∈ tys, ty.ReadsBack)
    (hl : ∀ ty ∈ tys, ty.Legible) (hr : ∀ ty ∈ tys', ty.Legible)
    (h : displayMore tys ++ ')' :: rest = displayMore tys' ++ ')' :: rest') :
    bareList tys = bareList tys' ∧ rest = rest' := by
  induction tys generalizing tys' with
  | nil =>
    cases tys' with
    | nil => exact ⟨rfl, (List.cons.inj h).2⟩
    | cons ty' others' =>
      rw [displayMore_cons] at h
      simp [displayMore] at h
  | cons ty others ih =>
    cases tys' with
    | nil =>
      rw [displayMore_cons] at h
      simp [displayMore] at h
    | cons ty' others' =>
      rw [List.forall_mem_cons] at hread hl hr
      rw [displayMore_cons, displayMore_cons, List.cons.injEq, List.cons.injEq] at h
      obtain ⟨hty, hmore⟩ := hread.1 ty' _ _ hl.1 hr.1 endsWord_displayMore endsWord_displayMore
        h.2.2
      obtain ⟨hothers, hrests⟩ := ih hread.2 hl.2 hr.2 hmore
      exact ⟨by rw [bareList, bareList, hty, hothers], hrests⟩

theorem displayList_append_inj {tys tys' : List Ty} (hread : ∀ ty ∈ tys, ty.ReadsBack)
    (hl : ∀ ty ∈ tys, ty.Legible) (hr : ∀ ty ∈ tys', ty.Legible)
    (h : (displayList tys).toList ++ ')' :: rest = (displayList tys').toList ++ ')' :: rest') :
    bareList tys = bareList tys' ∧ rest = rest' := by
  cases tys with
  | nil =>
    cases tys' with
    | nil => exact ⟨rfl, (List.cons.inj h).2⟩
    | cons ty' others' =>
      rw [displayList_cons] at h
      exact absurd h.symm (hr ty' List.mem_cons_self).display_ne
  | cons ty others =>
    cases tys' with
    | nil =>
      rw [displayList_cons] at h
      exact absurd h (hl ty List.mem_cons_self).display_ne
    | cons ty' others' =>
      rw [List.forall_mem_cons] at hread hl hr
      rw [displayList_cons, displayList_cons] at h
      obtain ⟨hty, hmore⟩ := hread.1 ty' _ _ hl.1 hr.1 endsWord_displayMore endsWord_displayMore h
      obtain ⟨hothers, hrests⟩ := displayMore_append_inj hread.2 hl.2 hr.2 hmore
      exact ⟨by rw [bareList, bareList, hty, hothers], hrests⟩

/-- A field name, a colon and a type in front of other fields. -/
theorem displayField_append_inj {entry entry' : String × Ty} {others others' : List (String × Ty)}
    (hread : entry.2.ReadsBack) (hl : IsWord entry.1 ∧ entry.2.Legible)
    (hr : IsWord entry'.1 ∧ entry'.2.Legible)
    (h : entry.1.toList ++ ':' :: ' ' :: (entry.2.display.toList ++
        ((displayFields others).toList ++ ' ' :: '\x7d' :: rest)) =
      entry'.1.toList ++ ':' :: ' ' :: (entry'.2.display.toList ++
        ((displayFields others').toList ++ ' ' :: '\x7d' :: rest'))) :
    entry.1 = entry'.1 ∧ entry.2.bare = entry'.2.bare ∧
      (displayFields others).toList ++ ' ' :: '\x7d' :: rest =
        (displayFields others').toList ++ ' ' :: '\x7d' :: rest' := by
  obtain ⟨hname, h⟩ := word_append_inj hl.1 hr.1 (endsWord_cons (by decide))
    (endsWord_cons (by decide)) h
  rw [List.cons.injEq, List.cons.injEq] at h
  exact ⟨hname, hread _ _ _ hl.2 hr.2 endsWord_displayFields endsWord_displayFields h.2.2⟩

theorem displayFields_append_inj {fields fields' : List (String × Ty)}
    (hread : ∀ entry ∈ fields, entry.2.ReadsBack)
    (hl : ∀ entry ∈ fields, IsWord entry.1 ∧ entry.2.Legible)
    (hr : ∀ entry ∈ fields', IsWord entry.1 ∧ entry.2.Legible)
    (h : (displayFields fields).toList ++ ' ' :: '\x7d' :: rest =
      (displayFields fields').toList ++ ' ' :: '\x7d' :: rest') :
    bareFields fields = bareFields fields' ∧ rest = rest' := by
  induction fields generalizing fields' with
  | nil =>
    cases fields' with
    | nil => exact ⟨rfl, by simpa using h⟩
    | cons entry' others' =>
      rw [displayFields_cons] at h
      simp [displayFields] at h
  | cons entry others ih =>
    cases fields' with
    | nil =>
      rw [displayFields_cons] at h
      simp [displayFields] at h
    | cons entry' others' =>
      rw [List.forall_mem_cons] at hread hl hr
      rw [displayFields_cons, displayFields_cons, List.cons.injEq, List.cons.injEq] at h
      obtain ⟨hname, hty, hmore⟩ := displayField_append_inj hread.1 hl.1 hr.1 h.2.2
      obtain ⟨hothers, hrests⟩ := ih hread.2 hl.2 hr.2 hmore
      exact ⟨by rw [bareFields, bareFields, hname, hty, hothers], hrests⟩

/-- **Texts of types are read in one way only**, as far as the next character shows that no word
goes on. -/
theorem readsBack (left : Ty) : left.ReadsBack := by
  induction left using children_induction with
  | h left ih =>
    intro right rest rest' hl hr hrest hrest' h
    cases left with
    | array elem =>
      obtain ⟨elem', rfl⟩ := eq_array_of_display hl.elem hr h
      rw [display_array, display_array, List.cons.injEq, List.cons.injEq] at h
      obtain ⟨helem, hrests⟩ := ih elem (List.mem_singleton_self _) elem' _ _ hl.elem hr.elem
        (endsWord_cons (by decide)) (endsWord_cons (by decide)) h.2.2
      rw [List.cons.injEq, List.cons.injEq] at hrests
      exact ⟨by rw [bare, bare, helem], hrests.2.2⟩
    | table fields =>
      cases fields with
      | nil =>
        cases eq_table_nil_of_display hr h
        exact ⟨rfl, List.append_cancel_left h⟩
      | cons entry others =>
        have hfields := hl.field
        rw [List.forall_mem_cons] at hfields
        obtain ⟨entry', others', rfl⟩ := eq_table_cons_of_display hfields.1.1 hr h
        have hfields' := hr.field
        rw [List.forall_mem_cons] at hfields'
        have hread : ∀ field ∈ entry :: others, field.2.ReadsBack := fun field hfield =>
          ih field.2 (List.mem_map_of_mem hfield)
        rw [List.forall_mem_cons] at hread
        rw [display_table_cons, display_table_cons, List.cons.injEq, List.cons.injEq] at h
        obtain ⟨hname, hty, hmore⟩ := displayField_append_inj hread.1 hfields.1 hfields'.1 h.2.2
        obtain ⟨hothers, hrests⟩ := displayFields_append_inj hread.2 hfields.2 hfields'.2 hmore
        exact ⟨by rw [bare, bare, bareFields, bareFields, hname, hty, hothers], hrests⟩
    | function params returns =>
      obtain ⟨params', returns', rfl⟩ := eq_function_of_display hr h
      rw [display_function, display_function, List.cons.injEq] at h
      obtain ⟨hparams, h⟩ := displayList_append_inj
        (fun ty hty => ih ty (List.mem_append_left _ hty)) hl.param hr.param h.2
      simp only [List.cons.injEq, true_and] at h
      obtain ⟨hreturns, hrests⟩ := displayList_append_inj
        (fun ty hty => ih ty (List.mem_append_right _ hty)) hl.result hr.result h
      exact ⟨by rw [bare, bare, hparams, hreturns], hrests⟩
    | _ => exact readsBack_of_word hl hr hrest hrest' rfl h

/-! ### From what the text shows to the type -/

theorem bareList_eq_map (tys : List Ty) : bareList tys = tys.map bare := by
  induction tys with
  | nil => rfl
  | cons ty rest ih => rw [bareList, ih, List.map_cons]

theorem bareFields_eq_mapValues (fields : NameMap Ty) :
    bareFields fields = fields.mapValues bare := by
  induction fields with
  | nil => rfl
  | cons entry rest ih =>
    rw [bareFields, ih]
    rfl

theorem head_bare : ty.bare.head = ty.head := by
  cases ty <;> rfl

/-- The parts of a type that is neither a record nor a module are kept, without the fields of
records and modules in them. -/
theorem part_bare (h : ty.isNominal = false) (step : Step) :
    ty.bare.part step = (ty.part step).map bare := by
  cases ty with
  | table fields =>
    rw [bare, bareFields_eq_mapValues]
    cases step <;> first | rfl | exact NameMap.lookup_mapValues bare fields _
  | function params returns =>
    rw [bare, bareList_eq_map, bareList_eq_map]
    cases step <;> first | rfl | exact List.getElem?_map
  | record | module => cases h
  | _ => cases step <;> rfl

/-- Types that are the same as far as their texts show are the same, where this is so for records
with one name and for modules. -/
theorem same_of_bare_eq (hl : left.Distinct) (hr : right.Distinct)
    (hc : Coherent (left.nodes ++ right.nodes)) (h : left.bare = right.bare) :
    left.same right = true := by
  induction left using part_induction generalizing right with
  | h left ih =>
    have hhead : left.head = right.head := by rw [← head_bare, h, head_bare]
    cases hnominal : left.isNominal with
    | true => exact hc.same_of_isNominal hnominal hhead
    | false =>
      rw [same_iff hl.fieldNames hr.fieldNames]
      refine ⟨hhead, fun step => ?_⟩
      have hparts : (left.part step).map bare = (right.part step).map bare := by
        rw [← part_bare hnominal, ← part_bare (isNominal_of_head hhead ▸ hnominal), h]
      cases hp : left.part step <;> cases hq : right.part step <;> rw [hp, hq] at hparts <;>
        simp at hparts
      · exact .none
      · next p q => exact .some (ih step p hp (hl.part hp) (hr.part hq) (hc.of_part hp hq) hparts)

/-- Of the types, records with one name have the same list of fields, and so have modules. -/
structure Uniform (types : List Ty) : Prop where
  record : ∀ {name : String} {fields fields' : List (String × Ty)}, .record name fields ∈ types →
    .record name fields' ∈ types → fields = fields'
  module : ∀ {fields fields' : List (String × Ty)}, .module fields ∈ types →
    .module fields' ∈ types → fields = fields'

theorem Uniform.mono {types types' : List Ty} (h : Uniform types) (hsub : types' ⊆ types) :
    Uniform types' :=
  ⟨fun hmem hmem' => h.record (hsub hmem) (hsub hmem'),
    fun hmem hmem' => h.module (hsub hmem) (hsub hmem')⟩

theorem nodes_subset_of_mem_children {child : Ty} (h : child ∈ ty.children) :
    child.nodes ⊆ ty.nodes := by
  have hfield : ∀ {fields : List (String × Ty)}, child ∈ fields.map Prod.snd →
      child.nodes ⊆ fieldNodes fields := by
    intro fields hmem node hnode
    obtain ⟨entry, hentry, rfl⟩ := List.mem_map.mp hmem
    exact mem_fieldNodes.mpr ⟨entry, hentry, hnode⟩
  cases ty with
  | array elem =>
    cases List.mem_singleton.mp h
    exact List.subset_cons_self _ _
  | table fields | record _ fields | module fields =>
    exact List.subset_cons_of_subset _ (hfield h)
  | function params returns =>
    refine List.subset_cons_of_subset _ fun node hnode => ?_
    rcases List.mem_append.mp h with h | h
    · exact List.mem_append_left _ (mem_listNodes.mpr ⟨child, h, hnode⟩)
    · exact List.mem_append_right _ (mem_listNodes.mpr ⟨child, h, hnode⟩)
  | _ => simp [children] at h

/-- Lists with equal images are equal if members with equal images are. -/
theorem eq_of_map_eq_map {α β : Type} {f : α → β} {xs ys : List α}
    (hmem : ∀ x ∈ xs, ∀ y ∈ ys, f x = f y → x = y) (h : xs.map f = ys.map f) : xs = ys := by
  induction xs generalizing ys with
  | nil => exact (List.map_eq_nil_iff.mp h.symm).symm
  | cons x xs ih =>
    cases ys with
    | nil => cases h
    | cons y ys =>
      rw [List.map_cons, List.map_cons, List.cons.injEq] at h
      rw [hmem x List.mem_cons_self y List.mem_cons_self h.1,
        ih (fun x hx y hy => hmem x (List.mem_cons_of_mem _ hx) y (List.mem_cons_of_mem _ hy)) h.2]

/-- Types that are the same as far as their texts show are equal, where this is so for records with
one name and for modules. -/
theorem eq_of_bare_eq (hu : Uniform (left.nodes ++ right.nodes)) (h : left.bare = right.bare) :
    left = right := by
  induction left using children_induction generalizing right with
  | h left ih =>
    have hpart : ∀ child ∈ left.children, ∀ child' ∈ right.children, child.bare = child'.bare →
        child = child' := by
      intro child hchild child' hchild'
      refine ih child hchild (hu.mono (List.append_subset_of_subset_of_subset ?_ ?_))
      · exact List.subset_append_of_subset_left _ (nodes_subset_of_mem_children hchild)
      · exact List.subset_append_of_subset_right _ (nodes_subset_of_mem_children hchild')
    have hself : left ∈ left.nodes ++ right.nodes := List.mem_append_left _ self_mem_nodes
    have hself' : right ∈ left.nodes ++ right.nodes := List.mem_append_right _ self_mem_nodes
    cases left with
    | array elem =>
      cases right <;> simp [bare] at h
      rw [hpart elem (List.mem_singleton_self _) _ (List.mem_singleton_self _) h]
    | table fields =>
      cases right <;> simp [bare] at h
      rw [bareFields_eq_mapValues, bareFields_eq_mapValues] at h
      refine congrArg table (eq_of_map_eq_map (fun entry hentry entry' hentry' heq => ?_) h)
      rw [Prod.mk.injEq] at heq
      exact Prod.ext heq.1
        (hpart _ (List.mem_map_of_mem hentry) _ (List.mem_map_of_mem hentry') heq.2)
    | record name fields =>
      cases right <;> simp [bare] at h
      subst h
      rw [hu.record hself hself']
    | function params returns =>
      cases right <;> simp [bare, bareList_eq_map] at h
      rw [eq_of_map_eq_map (fun ty hty ty' hty' => hpart ty (List.mem_append_left _ hty) ty'
          (List.mem_append_left _ hty')) h.1,
        eq_of_map_eq_map (fun ty hty ty' hty' => hpart ty (List.mem_append_right _ hty) ty'
          (List.mem_append_right _ hty')) h.2]
    | module fields =>
      cases right <;> simp [bare] at h
      rw [hu.module hself hself']
    | _ => cases right <;> first | rfl | simp [bare] at h

/-- Types that are not compatible have different texts. -/
theorem display_ne_of_not_compatible (hl : left.Legible) (hr : right.Legible)
    (hdl : left.Distinct) (hdr : right.Distinct) (hc : Coherent (left.nodes ++ right.nodes))
    (h : left.compatible right = false) : left.display ≠ right.display := by
  intro heq
  have hbare := (readsBack left right [] [] hl hr endsWord_nil endsWord_nil (by rw [heq])).1
  have hsame := same_of_bare_eq hdl hdr hc hbare
  rw [← fill_unknown left, ← fill_unknown right] at hsame
  rw [compatible_of_fill hdl hdr hc hsame] at h
  cases h

/-- **The text of a type is unambiguous.**  Where names are words, no record is named like a basic
type, and the fields of a record are determined by its name and those of modules altogether, types
with one text are the same; they agree in all that the text shows, the order of fields included, and
are equal if records with one name list their fields alike.  So a message about a mismatch or a
refused cast shows two different texts. -/
theorem display_unambiguous {left right : Ty} (hl : left.Legible) (hr : right.Legible)
    (hdl : left.Distinct) (hdr : right.Distinct) (hc : Coherent (left.nodes ++ right.nodes)) :
    (left.display = right.display → left.same right = true ∧ left.bare = right.bare ∧
        (Uniform (left.nodes ++ right.nodes) → left = right)) ∧
      (∀ kind loc site, ∀ fault ∈ (Typed.Expr.coerce ⟨kind, right, loc⟩ ⟨left, site⟩).faults,
        fault.cause.message = "expected " ++ left.display ++ " but found " ++ right.display ++
          " in " ++ site.display ∧ left.display ≠ right.display) ∧
      ∀ loc, ∀ fault ∈ (Report.require (left.castable right) (.invalidCast left right) loc).faults,
        fault.cause.message = "cannot cast " ++ Violation.quoted left.display ++ " to " ++
          Violation.quoted right.display ∧ left.display ≠ right.display := by
  refine ⟨fun h => ?_, fun kind loc site fault hfault => ?_, fun loc fault hfault => ?_⟩
  · have hbare := (readsBack left right [] [] hl hr endsWord_nil endsWord_nil (by rw [h])).1
    exact ⟨same_of_bare_eq hdl hdr hc hbare, hbare, fun hu => eq_of_bare_eq hu hbare⟩
  · unfold Typed.Expr.coerce at hfault
    split at hfault
    · cases hfault
    · next hcompatible =>
      split at hfault
      · cases hfault
      · cases List.mem_singleton.mp hfault
        refine ⟨rfl, display_ne_of_not_compatible hl hr hdl hdr hc ?_⟩
        exact Bool.eq_false_iff.mpr fun h => hcompatible (compatible_symm hdl hdr h)
  · rw [Report.faults_require] at hfault
    split at hfault
    · cases hfault
    · next hcast =>
      rw [List.mem_singleton.mp hfault]
      refine ⟨rfl, display_ne_of_not_compatible hl hr hdl hdr hc ?_⟩
      simp only [castable, Bool.or_eq_true, not_or, Bool.not_eq_true] at hcast
      exact hcast.1.1

/-- A function that takes records and a field of the same name. -/
def sampler (samples : Ty) : Ty :=
  .function [samples, .table [("at", .record "floats" [("floats", .float)])]] [.array .unknown]

theorem coherent_sampler :
    Coherent ((sampler (.array (.record "floats" [("floats", .float)]))).nodes ++
      (sampler (.table [("floats", .float)])).nodes) := by
  constructor
  · intro record fields fields' h h'
    simp [sampler, nodes, listNodes, fieldNodes] at h h'
    obtain ⟨rfl, rfl⟩ := h
    obtain ⟨-, rfl⟩ := h'
    rfl
  · intro fields fields' h
    simp [sampler, nodes, listNodes, fieldNodes] at h

/-- An array of records and a table with a field of their name have different texts, and a mismatch
between functions on them shows both. -/
theorem sampler_unambiguous :
    let records := sampler (.array (.record "floats" [("floats", .float)]))
    let fields := sampler (.table [("floats", .float)])
    records.display = "(\x7b floats \x7d, \x7b at: floats \x7d) -> (\x7b unknown \x7d)" ∧
      records.display ≠ fields.display ∧
        (Typed.Expr.coerce ⟨.nil, fields, .nowhere⟩ ⟨records, .assignment⟩).faults.length = 1 := by
  have hsampler := @display_unambiguous (sampler (.array (.record "floats" [("floats", .float)])))
    (sampler (.table [("floats", .float)])) (by decide +kernel) (by decide +kernel)
    (by decide +kernel) (by decide +kernel) coherent_sampler
  refine ⟨by decide +kernel, fun heq => ?_, by decide +kernel⟩
  have hsame := (hsampler.1 heq).1
  revert hsame
  decide +kernel

end Ty

end LuaTyping
