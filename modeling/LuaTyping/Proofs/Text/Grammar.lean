import LuaTyping.Json.Writer
import Mathlib.Data.List.Basic

/-!
# The grammar of JSON

`Grammar.Value s t` says that the text `s` begins with a JSON value and that `t` is what follows it.
The rules are those of the format itself: blanks around values, names and punctuation, every form of
numeral, every escape.  They mention neither the reader nor the writer.

Whatever is written is a value by these rules (`value_write`), so a written text is well formed
(`wellFormed_render`).
-/

namespace LuaTyping.Json

namespace Grammar

/-! ### Tokens -/

/-- Any number of blanks. -/
inductive Blanks : List Char → List Char → Prop
  | nil {s : List Char} : Blanks s s
  | cons {c : Char} {s t : List Char} : c ∈ [' ', '\t', '\n', '\r'] → Blanks s t →
      Blanks (c :: s) t

/-- Whether the character is a hexadecimal digit, in either case. -/
def isHex (c : Char) : Bool :=
  c.isDigit || ['a', 'b', 'c', 'd', 'e', 'f', 'A', 'B', 'C', 'D', 'E', 'F'].contains c

/-- The characters of a string and its closing quotation mark. -/
inductive Chars : List Char → List Char → Prop
  | close {t : List Char} : Chars ('"' :: t) t
  | literal {c : Char} {s t : List Char} : c ≠ '"' → c ≠ '\\' → 32 ≤ c.toNat → Chars s t →
      Chars (c :: s) t
  | short {c : Char} {s t : List Char} : c ∈ ['"', '\\', '/', 'b', 'f', 'n', 'r', 't'] →
      Chars s t → Chars ('\\' :: c :: s) t
  | code {a b c d : Char} {s t : List Char} : (∀ x ∈ [a, b, c, d], isHex x = true) → Chars s t →
      Chars ('\\' :: 'u' :: a :: b :: c :: d :: s) t

/-- Any number of decimal digits. -/
inductive Digits : List Char → List Char → Prop
  | nil {s : List Char} : Digits s s
  | cons {c : Char} {s t : List Char} : c.isDigit = true → Digits s t → Digits (c :: s) t

/-- The whole part of a numeral, which starts with zero only if it is zero. -/
inductive Whole : List Char → List Char → Prop
  | zero {t : List Char} : Whole ('0' :: t) t
  | nonzero {c : Char} {s t : List Char} : c.isDigit = true → c ≠ '0' → Digits s t →
      Whole (c :: s) t

/-- The fraction of a numeral, which may be missing. -/
inductive Fraction : List Char → List Char → Prop
  | none {s : List Char} : Fraction s s
  | some {c : Char} {s t : List Char} : c.isDigit = true → Digits s t → Fraction ('.' :: c :: s) t

/-- The exponent of a numeral, which may be missing. -/
inductive Exponent : List Char → List Char → Prop
  | none {s : List Char} : Exponent s s
  | plain {e c : Char} {s t : List Char} : e ∈ ['e', 'E'] → c.isDigit = true → Digits s t →
      Exponent (e :: c :: s) t
  | signed {e sign c : Char} {s t : List Char} : e ∈ ['e', 'E'] → sign ∈ ['+', '-'] →
      c.isDigit = true → Digits s t → Exponent (e :: sign :: c :: s) t

/-- A numeral without its sign. -/
def Unsigned (s t : List Char) : Prop :=
  ∃ s₁ s₂, Whole s s₁ ∧ Fraction s₁ s₂ ∧ Exponent s₂ t

/-! ### Values -/

mutual

/-- A value with blanks around it. -/
inductive Value : List Char → List Char → Prop
  | before {c : Char} {s t : List Char} : c ∈ [' ', '\t', '\n', '\r'] → Value s t → Value (c :: s) t
  | behind {c : Char} {s t : List Char} : c ∈ [' ', '\t', '\n', '\r'] → Value s (c :: t) → Value s t
  | null {t : List Char} : Value ('n' :: 'u' :: 'l' :: 'l' :: t) t
  | true {t : List Char} : Value ('t' :: 'r' :: 'u' :: 'e' :: t) t
  | false {t : List Char} : Value ('f' :: 'a' :: 'l' :: 's' :: 'e' :: t) t
  | unsigned {s t : List Char} : Unsigned s t → Value s t
  | negative {s t : List Char} : Unsigned s t → Value ('-' :: s) t
  | string {s t : List Char} : Chars s t → Value ('"' :: s) t
  | emptyArray {s t : List Char} : Blanks s (']' :: t) → Value ('[' :: s) t
  | array {s t : List Char} : Items s t → Value ('[' :: s) t
  | emptyObject {s t : List Char} : Blanks s ('\x7d' :: t) → Value ('\x7b' :: s) t
  | object {s t : List Char} : Members s t → Value ('\x7b' :: s) t

/-- The items of an array that has one, and its closing bracket. -/
inductive Items : List Char → List Char → Prop
  | last {s t : List Char} : Value s (']' :: t) → Items s t
  | more {s s' t : List Char} : Value s (',' :: s') → Items s' t → Items s t

/-- A name and a value. -/
inductive Member : List Char → List Char → Prop
  | mk {s s₁ s₂ s₃ t : List Char} : Blanks s ('"' :: s₁) → Chars s₁ s₂ → Blanks s₂ (':' :: s₃) →
      Value s₃ t → Member s t

/-- The members of an object that has one, and its closing brace. -/
inductive Members : List Char → List Char → Prop
  | last {s t : List Char} : Member s ('\x7d' :: t) → Members s t
  | more {s s' t : List Char} : Member s (',' :: s') → Members s' t → Members s t

end

/-! ### Written strings -/

theorem isHex_hexDigit {n : Nat} (h : n < 16) : isHex (hexDigit n) = true := by
  have hall : ∀ n < 16, isHex (hexDigit n) = true := by decide
  exact hall n h

theorem hexDigit_literal {n : Nat} (h : n < 16) :
    hexDigit n ≠ '"' ∧ hexDigit n ≠ '\\' ∧ 32 ≤ (hexDigit n).toNat := by
  have hall : ∀ n < 16, hexDigit n ≠ '"' ∧ hexDigit n ≠ '\\' ∧ 32 ≤ (hexDigit n).toNat := by decide
  exact hall n h

theorem hexDigits_four (n : Nat) : hexDigits 4 n =
    [hexDigit (n / 16 / 16 / 16 % 16), hexDigit (n / 16 / 16 % 16), hexDigit (n / 16 % 16),
      hexDigit (n % 16)] :=
  rfl

/-- A character that is not written as itself is the quotation mark, the backslash or a control
character. -/
theorem escape_eq_singleton_iff {c : Char} :
    escape c = [c] ↔ c ≠ '"' ∧ c ≠ '\\' ∧ 32 ≤ c.toNat := by
  unfold escape
  split_ifs with hquote hback hb hf hn hr ht hcontrol
  · simp [hquote]
  · simp [hback]
  · simp [hb]
  · simp [hf]
  · simp [hn]
  · simp [hr]
  · simp [ht]
  · simp [hexDigits_four, hcontrol]
  · simp [hquote, hback, Nat.le_of_not_lt hcontrol]

/-- An escaped character in front of others. -/
theorem Chars.escape {c : Char} {s t : List Char} (h : Chars s t) :
    Chars (Json.escape c ++ s) t := by
  by_cases hself : Json.escape c = [c]
  · obtain ⟨hquote, hback, hcode⟩ := escape_eq_singleton_iff.mp hself
    rw [hself]
    exact .literal hquote hback hcode h
  · unfold Json.escape at hself ⊢
    split_ifs at hself ⊢
    iterate 7 exact .short (by simp) h
    · rw [hexDigits_four]
      refine .code ?_ h
      simp only [List.forall_mem_cons]
      exact ⟨isHex_hexDigit (Nat.mod_lt _ (by decide)), isHex_hexDigit (Nat.mod_lt _ (by decide)),
        isHex_hexDigit (Nat.mod_lt _ (by decide)), isHex_hexDigit (Nat.mod_lt _ (by decide)),
        by simp⟩
    · exact absurd rfl hself

theorem chars_escaped (text : List Char) (rest : List Char) :
    Chars (text.foldr (fun c rest => Json.escape c ++ rest) ('"' :: rest)) rest := by
  induction text with
  | nil => exact .close
  | cons c text ih => exact ih.escape

theorem Chars.hexDigits {s t : List Char} (h : Chars s t) (width n : Nat) :
    Chars (Json.hexDigits width n ++ s) t := by
  induction width generalizing n s with
  | zero => exact h
  | succ width ih =>
    obtain ⟨hquote, hback, hcode⟩ := hexDigit_literal (Nat.mod_lt n (show 16 > 0 by decide))
    rw [Json.hexDigits, List.append_assoc]
    exact ih (Chars.literal hquote hback hcode h) _

/-! ### Written numbers -/

theorem digits_append {ds : List Char} (h : ∀ c ∈ ds, c.isDigit = true) (rest : List Char) :
    Digits (ds ++ rest) rest := by
  induction ds with
  | nil => exact .nil
  | cons c ds ih =>
    rw [List.forall_mem_cons] at h
    exact .cons h.1 (ih h.2)

/-- The decimal digits of a positive number do not start with zero. -/
theorem toDigits_eq_cons {n : Nat} (h : 0 < n) :
    ∃ c ds, Nat.toDigits 10 n = c :: ds ∧ c ≠ '0' := by
  induction n using Nat.strongRecOn with
  | ind n ih =>
    by_cases hn : n < 10
    · refine ⟨_, [], Nat.toDigits_of_lt_base hn, ?_⟩
      rw [Ne, Nat.digitChar_eq_zero]
      omega
    · obtain ⟨c, ds, hds, hc⟩ := ih (n / 10) (by omega) (by omega)
      refine ⟨c, ds ++ [(n % 10).digitChar], ?_, hc⟩
      rw [Nat.toDigits_of_base_le (by decide) (by omega), hds, List.cons_append]

theorem whole_toDigits (n : Nat) (rest : List Char) : Whole (Nat.toDigits 10 n ++ rest) rest := by
  rcases Nat.eq_zero_or_pos n with rfl | hpos
  · exact .zero
  · have hdigit : ∀ c ∈ Nat.toDigits 10 n, c.isDigit = true :=
      fun c hc => Nat.isDigit_of_mem_toDigits (by decide) (by decide) hc
    obtain ⟨c, ds, hds, hc⟩ := toDigits_eq_cons hpos
    rw [hds, List.forall_mem_cons] at hdigit
    rw [hds]
    exact .nonzero hdigit.1 hc (digits_append hdigit.2 rest)

theorem value_decimal (n : Int) (rest : List Char) : Value (decimal n ++ rest) rest := by
  have hunsigned : Unsigned (Nat.toDigits 10 n.natAbs ++ rest) rest :=
    ⟨rest, rest, whole_toDigits _ rest, .none, .none⟩
  unfold decimal
  split
  · exact .negative hunsigned
  · exact .unsigned hunsigned

/-! ### Written values -/

theorem member_quote {name : String} {s t : List Char} (h : Value s t) :
    Member (quote name (':' :: s)) t :=
  .mk .nil (chars_escaped name.toList (':' :: s)) .nil h

mutual

/-- **Whatever is written is a value of the grammar.** -/
theorem value_write (json : Json) (rest : List Char) : Value (json.write rest) rest := by
  cases json with
  | null => exact .null
  | bool value =>
    cases value with
    | false => exact .false
    | true => exact .true
  | integer value => exact value_decimal value rest
  | float value => exact .string (Chars.close.hexDigits 16 _)
  | string value => exact .string (chars_escaped value.toList rest)
  | array items =>
    cases items with
    | nil => exact .emptyArray .nil
    | cons item items => exact .array (items_write items (value_write item _))
  | object fields =>
    cases fields with
    | nil => exact .emptyObject .nil
    | cons field fields =>
      exact .object (members_write fields (member_quote (value_write field.2 _)))

/-- The items behind one that is written. -/
theorem items_write (items : List Json) {s rest : List Char}
    (h : Value s (writeItems items rest)) : Items s rest := by
  cases items with
  | nil => exact .last h
  | cons item items => exact .more h (items_write items (value_write item _))

/-- The members behind one that is written. -/
theorem members_write (fields : List (String × Json)) {s rest : List Char}
    (h : Member s (writeFields fields rest)) : Members s rest := by
  cases fields with
  | nil => exact .last h
  | cons field fields =>
    exact .more h (members_write fields (member_quote (value_write field.2 _)))

end

end Grammar

/-- The text is one value of the grammar and nothing else. -/
def WellFormed (text : String) : Prop :=
  Grammar.Value text.toList []

theorem wellFormed_render (json : Json) : WellFormed json.render := by
  rw [WellFormed, render, String.toList_ofList]
  exact Grammar.value_write json []

end LuaTyping.Json
