import LuaTyping.Json.Reader
import LuaTyping.Proofs.Text.Grammar

/-!
# Reading what was written

The reader undoes the writer (`parse_render`): a value without floats, whose numbers fit a 64-bit
word and whose objects have different names, is read from its text as it was.  So values with one
text are equal.

Each part is read with the rest of the text behind it.  A numeral is the one part that could go on
into the rest; what follows a value is the end, a comma or a closing bracket (`Ends`).
-/

namespace LuaTyping.Json

/-! ### Strings -/

theorem hexValue_hexDigit {n : Nat} (h : n < 16) : hexValue (hexDigit n) = some n := by
  have hall : ∀ n < 16, hexValue (hexDigit n) = some n := by decide
  exact hall n h

/-- A control character by its number. -/
theorem stringBody_code {c : Char} (h : c.toNat < 32) (rest : List Char) :
    stringBody ('\\' :: 'u' :: hexDigits 4 c.toNat ++ rest) =
      (stringBody rest).map fun (tail, rest) => (c :: tail, rest) := by
  have hunit : hexUnit (hexDigit (c.toNat / 16 / 16 / 16 % 16)) (hexDigit (c.toNat / 16 / 16 % 16))
      (hexDigit (c.toNat / 16 % 16)) (hexDigit (c.toNat % 16)) = some c.toNat := by
    simp only [hexUnit, hexValue_hexDigit (Nat.mod_lt _ (show 16 > 0 by decide))]
    simp
    omega
  have hchar : charOf c.toNat = some c := by
    have hvalid : c.toNat.isValidChar := Or.inl (by omega)
    rw [charOf, if_pos hvalid, Char.ofNat_toNat]
  rw [Grammar.hexDigits_four]
  simp only [List.cons_append, List.nil_append]
  rw [stringBody]
  simp only [hunit]
  rw [if_pos (by omega), hchar]
  cases stringBody rest <;> rfl

/-- A short escape, which is not confused with a number. -/
theorem stringBody_short {c e : Char} (he : shortEscape e = some c) (rest : List Char) :
    stringBody ('\\' :: e :: rest) =
      (stringBody rest).map fun (tail, rest) => (c :: tail, rest) := by
  have hu : e ≠ 'u' := by
    rintro rfl
    cases he
  rw [stringBody, he]
  · cases stringBody rest <;> rfl
  · intro a b c' d rest' heq
    exact absurd heq hu

/-- **An escaped character is read as it was.** -/
theorem stringBody_escape (c : Char) (rest : List Char) :
    stringBody (escape c ++ rest) =
      (stringBody rest).map fun (tail, rest) => (c :: tail, rest) := by
  by_cases hself : escape c = [c]
  · obtain ⟨hquote, hback, hcode⟩ := Grammar.escape_eq_singleton_iff.mp hself
    rw [hself, List.singleton_append, stringBody]
    · rw [if_neg (by omega)]
      cases stringBody rest <;> rfl
    · exact hquote
    · exact fun _ _ _ _ _ heq => absurd heq hback
    · exact fun _ _ heq => absurd heq hback
  · unfold escape at hself ⊢
    split_ifs at hself ⊢ with hquote hback hb hf hn hr ht hcontrol
    · subst hquote; exact stringBody_short rfl rest
    · subst hback; exact stringBody_short rfl rest
    · subst hb; exact stringBody_short rfl rest
    · subst hf; exact stringBody_short rfl rest
    · subst hn; exact stringBody_short rfl rest
    · subst hr; exact stringBody_short rfl rest
    · subst ht; exact stringBody_short rfl rest
    · exact stringBody_code hcontrol rest
    · exact absurd rfl hself

theorem stringBody_escaped (text rest : List Char) :
    stringBody (text.foldr (fun c rest => escape c ++ rest) ('"' :: rest)) = some (text, rest) := by
  induction text with
  | nil => rfl
  | cons c text ih => rw [List.foldr_cons, stringBody_escape, ih, Option.map_some]

/-! ### Numerals -/

/-- What can follow a value: nothing, a comma or a closing bracket. -/
def Ends (rest : List Char) : Prop :=
  ∀ c ∈ rest.head?, c = ',' ∨ c = ']' ∨ c = '\x7d'

theorem ends_nil : Ends [] := by
  simp [Ends]

theorem ends_cons {c : Char} {rest : List Char} (h : c = ',' ∨ c = ']' ∨ c = '\x7d') :
    Ends (c :: rest) := by
  simpa [Ends] using h

theorem digitRun_append {ds rest : List Char} (hne : ds ≠ [])
    (hdigit : ∀ c ∈ ds, c.isDigit = true) (hrest : Ends rest) :
    digitRun (ds ++ rest) = some (ds, rest) := by
  have htake : rest.takeWhile Char.isDigit = [] ∧ rest.dropWhile Char.isDigit = rest := by
    cases rest with
    | nil => exact ⟨rfl, rfl⟩
    | cons c rest => rcases hrest c rfl with rfl | rfl | rfl <;> exact ⟨rfl, rfl⟩
  rw [digitRun, List.takeWhile_append_of_pos hdigit, List.dropWhile_append_of_pos hdigit, htake.1,
    htake.2, List.append_nil]
  cases ds with
  | nil => exact absurd rfl hne
  | cons c ds => rfl

theorem fraction_of_ends {rest : List Char} (h : Ends rest) : fraction rest = some ([], rest) := by
  cases rest with
  | nil => rfl
  | cons c rest => rcases h c rfl with rfl | rfl | rfl <;> rfl

theorem exponent_of_ends {rest : List Char} (h : Ends rest) :
    exponent rest = some (none, rest) := by
  cases rest with
  | nil => rfl
  | cons c rest => rcases h c rfl with rfl | rfl | rfl <;> rfl

theorem ofDigits_toDigits (n : Nat) : ofDigits (Nat.toDigits 10 n) = n :=
  Nat.ofDigitChars_toDigits (by decide) (by decide)

/-- The digits of a number have no zero in front. -/
theorem toDigits_no_leading_zero (n : Nat) :
    ¬((Nat.toDigits 10 n).head? = some '0' ∧ 1 < (Nat.toDigits 10 n).length) := by
  rintro ⟨hhead, hlen⟩
  rcases Nat.eq_zero_or_pos n with rfl | hpos
  · exact absurd hlen (by decide)
  · obtain ⟨c, ds, hds, hc⟩ := Grammar.toDigits_eq_cons hpos
    rw [hds] at hhead
    exact hc (Option.some.inj hhead)

theorem numeral_toDigits (negative : Bool) (n : Nat) {rest : List Char} (h : Ends rest) :
    numeral negative (Nat.toDigits 10 n ++ rest) =
      (ofInteger negative n).map fun value => (value, rest) := by
  have hrun : digitRun (Nat.toDigits 10 n ++ rest) = some (Nat.toDigits 10 n, rest) :=
    digitRun_append Nat.toDigits_ne_nil
      (fun c hc => Nat.isDigit_of_mem_toDigits (by decide) (by decide) hc) h
  simp only [numeral, hrun, Option.bind_eq_bind, Option.bind_some,
    if_neg (toDigits_no_leading_zero n), fraction_of_ends h, exponent_of_ends h, ofDigits_toDigits]
  cases ofInteger negative n <;> rfl

theorem isBlank_of_isDigit {c : Char} (h : c.isDigit = true) : isBlank c = false := by
  simp only [isBlank, Bool.or_eq_false_iff, decide_eq_false_iff_not]
  refine ⟨⟨⟨?_, ?_⟩, ?_⟩, ?_⟩ <;> rintro rfl <;> cases h

theorem skipBlanks_of_not_blank {c : Char} (h : isBlank c = false) (cs : List Char) :
    skipBlanks (c :: cs) = c :: cs := by
  rw [skipBlanks, List.dropWhile_cons_of_neg (by simp [h])]

theorem readValue_digit {c : Char} (h : c.isDigit = true) (fuel : Nat) (cs : List Char) :
    readValue (fuel + 1) (c :: cs) = numeral false (c :: cs) := by
  rw [readValue, skipBlanks_of_not_blank (isBlank_of_isDigit h)]
  -- no other value starts with a digit
  split
  case h_8 => rfl
  all_goals next heq =>
    cases heq
    cases h

theorem toDigits_eq_digit_cons (n : Nat) :
    ∃ c ds, Nat.toDigits 10 n = c :: ds ∧ c.isDigit = true := by
  obtain ⟨c, ds, hds⟩ := List.exists_cons_of_ne_nil (Nat.toDigits_ne_nil (n := n) (b := 10))
  exact ⟨c, ds, hds, Nat.isDigit_of_mem_toDigits (b := 10) (n := n) (by decide) (by decide)
    (by simp [hds])⟩

/-- **An integer that fits a 64-bit word is read as it was.** -/
theorem readValue_decimal {n : Int} (hlow : -(Nat.pow 2 63 : Int) ≤ n) (hhigh : n < UInt64.size)
    (fuel : Nat) {rest : List Char} (h : Ends rest) :
    readValue (fuel + 1) (decimal n ++ rest) = some (.integer n, rest) := by
  unfold decimal
  split
  · next hneg =>
    have hread : readValue (fuel + 1) ('-' :: (Nat.toDigits 10 n.natAbs ++ rest)) =
        numeral true (Nat.toDigits 10 n.natAbs ++ rest) := rfl
    have hint : ofInteger true n.natAbs = some (.integer n) := by
      rw [ofInteger, if_pos rfl, if_pos (by omega)]
      congr 2
      omega
    rw [List.cons_append, hread, numeral_toDigits true _ h, hint, Option.map_some]
  · next hneg =>
    have hint : ofInteger false n.natAbs = some (.integer n) := by
      rw [ofInteger, if_neg (by decide), if_pos (by omega)]
      congr 2
      omega
    obtain ⟨c, ds, hds, hdigit⟩ := toDigits_eq_digit_cons n.natAbs
    have hread := numeral_toDigits false n.natAbs h
    rw [hint, Option.map_some, hds, List.cons_append] at hread
    rw [hds, List.cons_append, readValue_digit hdigit, hread]

/-! ### Values -/

mutual

/-- No floats, numbers that fit a 64-bit word, and objects with different names, at any depth. -/
def Plain : Json → Prop
  | .integer value => -(Nat.pow 2 63 : Int) ≤ value ∧ value < UInt64.size
  | .float _ => False
  | .array items => ItemsPlain items
  | .object fields => FieldsPlain fields
  | _ => True

/-- The items of a plain array. -/
def ItemsPlain : List Json → Prop
  | [] => True
  | item :: rest => Plain item ∧ ItemsPlain rest

/-- The fields of a plain object. -/
def FieldsPlain : List (String × Json) → Prop
  | [] => True
  | (name, value) :: rest => Plain value ∧ name ∉ rest.map Prod.fst ∧ FieldsPlain rest

end

theorem consField_of_not_mem {name : String} {value : Json} {fields : List (String × Json)}
    (h : name ∉ fields.map Prod.fst) : consField name value fields = (name, value) :: fields := by
  have hne : ∀ field ∈ fields, (field.1 != name) = true := by
    intro field hfield
    rw [bne_iff_ne]
    rintro rfl
    exact h (List.mem_map_of_mem hfield)
  have hlookup : fields.lookup name = none := by
    rw [List.lookup_eq_none_iff]
    intro field hfield
    rw [bne_comm]
    exact hne field hfield
  rw [consField, hlookup, List.filter_eq_self.mpr hne, Option.getD_none]

theorem ends_writeItems (items : List Json) (rest : List Char) : Ends (writeItems items rest) := by
  cases items <;> exact ends_cons (by decide)

theorem ends_writeFields (fields : List (String × Json)) (rest : List Char) :
    Ends (writeFields fields rest) := by
  cases fields <;> exact ends_cons (by decide)

/-! ### The room that a written value takes -/

theorem length_le_escaped (text rest : List Char) :
    rest.length ≤ (text.foldr (fun c rest => escape c ++ rest) rest).length := by
  induction text with
  | nil => exact Nat.le_refl _
  | cons c text ih =>
    rw [List.foldr_cons, List.length_append]
    omega

theorem length_lt_quote (text : String) (rest : List Char) :
    rest.length + 1 < (quote text rest).length := by
  have hroom := length_le_escaped text.toList ('"' :: rest)
  rw [List.length_cons] at hroom
  rw [quote, List.length_cons]
  omega

theorem decimal_eq_cons (n : Int) :
    ∃ c cs, decimal n = c :: cs ∧ (c = '-' ∨ c.isDigit = true) := by
  obtain ⟨c, ds, hds, hdigit⟩ := toDigits_eq_digit_cons n.natAbs
  unfold decimal
  split
  · exact ⟨_, _, rfl, .inl rfl⟩
  · exact ⟨c, ds, hds, .inr hdigit⟩

mutual

theorem length_lt_write (json : Json) (rest : List Char) :
    rest.length < (json.write rest).length := by
  cases json with
  | null =>
    simp only [write, List.length_cons]
    omega
  | bool value =>
    cases value <;> simp only [write, List.length_cons] <;> omega
  | integer value =>
    obtain ⟨c, cs, hcs, -⟩ := decimal_eq_cons value
    simp only [write, hcs, List.cons_append, List.length_cons, List.length_append]
    omega
  | float value =>
    simp only [write, List.length_cons, List.length_append]
    omega
  | string value => exact Nat.lt_of_succ_lt (length_lt_quote value rest)
  | array items =>
    cases items with
    | nil =>
      simp only [write, List.length_cons]
      omega
    | cons item items =>
      have hitem := length_lt_write item (writeItems items rest)
      have hitems := length_lt_writeItems items rest
      simp only [write, List.length_cons]
      omega
  | object fields =>
    cases fields with
    | nil =>
      simp only [write, List.length_cons]
      omega
    | cons field fields =>
      have hname := length_lt_quote field.1 (':' :: write field.2 (writeFields fields rest))
      have hvalue := length_lt_write field.2 (writeFields fields rest)
      have hfields := length_lt_writeFields fields rest
      simp only [write, List.length_cons] at hname ⊢
      omega

theorem length_lt_writeItems (items : List Json) (rest : List Char) :
    rest.length < (writeItems items rest).length := by
  cases items with
  | nil => simp [writeItems]
  | cons item items =>
    have hitem := length_lt_write item (writeItems items rest)
    have hitems := length_lt_writeItems items rest
    simp only [writeItems, List.length_cons]
    omega

theorem length_lt_writeFields (fields : List (String × Json)) (rest : List Char) :
    rest.length < (writeFields fields rest).length := by
  cases fields with
  | nil => simp [writeFields]
  | cons field fields =>
    have hname := length_lt_quote field.1 (':' :: write field.2 (writeFields fields rest))
    have hvalue := length_lt_write field.2 (writeFields fields rest)
    have hfields := length_lt_writeFields fields rest
    simp only [writeFields, List.length_cons] at hname ⊢
    omega

end

/-! ### Values behind each other -/

/-- A written value starts neither with a blank nor with a closing bracket. -/
theorem write_eq_cons (json : Json) (rest : List Char) :
    ∃ c cs, json.write rest = c :: cs ∧ isBlank c = false ∧ c ≠ ']' := by
  cases json with
  | bool value => cases value <;> exact ⟨_, _, rfl, by decide⟩
  | integer value =>
    obtain ⟨c, cs, hcs, hc⟩ := decimal_eq_cons value
    refine ⟨c, cs ++ rest, by rw [write, hcs, List.cons_append], ?_⟩
    rcases hc with rfl | hdigit
    · decide
    · refine ⟨isBlank_of_isDigit hdigit, ?_⟩
      rintro rfl
      cases hdigit
  | array items => cases items <;> exact ⟨_, _, rfl, by decide⟩
  | object fields => cases fields <;> exact ⟨_, _, rfl, by decide⟩
  | _ => exact ⟨_, _, rfl, by decide⟩

/-- The array around items. -/
theorem readValue_array {c : Char} {cs rest : List Char} {items : List Json} {fuel : Nat}
    (hblank : isBlank c = false) (hclose : c ≠ ']')
    (h : readItems fuel (c :: cs) = some (items, rest)) :
    readValue (fuel + 1) ('[' :: c :: cs) = some (.array items, rest) := by
  have hskip : skipBlanks ('[' :: c :: cs) = '[' :: c :: cs := rfl
  rw [readValue, hskip]
  simp only [skipBlanks_of_not_blank hblank]
  split
  · next heq =>
    cases heq
    exact absurd rfl hclose
  · rw [h]
    rfl

/-- The object around members. -/
theorem readValue_object {cs rest : List Char} {fields : List (String × Json)} {fuel : Nat}
    (h : readFields fuel ('"' :: cs) = some (fields, rest)) :
    readValue (fuel + 1) ('\x7b' :: '"' :: cs) = some (.object fields, rest) := by
  have hread : readValue (fuel + 1) ('\x7b' :: '"' :: cs) =
      (readFields fuel ('"' :: cs)).map _ := rfl
  rw [hread, h]
  rfl

/-- The last item of an array. -/
theorem readItems_last {s rest : List Char} {item : Json} {fuel : Nat}
    (h : readValue fuel s = some (item, ']' :: rest)) :
    readItems (fuel + 1) s = some ([item], rest) := by
  rw [readItems, h]
  rfl

/-- An item with others behind it. -/
theorem readItems_more {s s' rest : List Char} {item : Json} {items : List Json} {fuel : Nat}
    (h : readValue fuel s = some (item, ',' :: s'))
    (hrest : readItems fuel s' = some (items, rest)) :
    readItems (fuel + 1) s = some (item :: items, rest) := by
  rw [readItems, h]
  simp [skipBlanks, isBlank, hrest]

/-- The last member of an object. -/
theorem readFields_last {name : String} {s rest : List Char} {value : Json} {fuel : Nat}
    (h : readValue fuel s = some (value, '\x7d' :: rest)) :
    readFields (fuel + 1) (quote name (':' :: s)) = some ([(name, value)], rest) := by
  have hskip : skipBlanks (quote name (':' :: s)) = quote name (':' :: s) := rfl
  rw [readFields, hskip, quote]
  simp only [stringBody_escaped]
  simp [skipBlanks, isBlank, h]

/-- A member with others behind it, none of which has its name. -/
theorem readFields_more {name : String} {s s' rest : List Char} {value : Json}
    {fields : List (String × Json)} {fuel : Nat} (hname : name ∉ fields.map Prod.fst)
    (h : readValue fuel s = some (value, ',' :: s'))
    (hrest : readFields fuel s' = some (fields, rest)) :
    readFields (fuel + 1) (quote name (':' :: s)) = some ((name, value) :: fields, rest) := by
  have hskip : skipBlanks (quote name (':' :: s)) = quote name (':' :: s) := rfl
  rw [readFields, hskip, quote]
  simp only [stringBody_escaped]
  simp [skipBlanks, isBlank, h, hrest, consField_of_not_mem hname]

mutual

/-- **A written value is read as it was**, with fuel for twice its length. -/
theorem readValue_write (json : Json) (hplain : json.Plain) {rest : List Char} (hrest : Ends rest)
    {fuel : Nat} (hfuel : 2 * (json.write rest).length ≤ fuel + 2 * rest.length) :
    readValue fuel (json.write rest) = some (json, rest) := by
  have hroom := length_lt_write json rest
  obtain ⟨fuel, rfl⟩ : ∃ n, fuel = n + 1 := ⟨fuel - 1, by omega⟩
  cases json with
  | null => rfl
  | bool value => cases value <;> rfl
  | integer value => exact readValue_decimal hplain.1 hplain.2 fuel hrest
  | float value => exact hplain.elim
  | string value =>
    have hread : readValue (fuel + 1) (quote value rest) =
        (stringBody (value.toList.foldr (fun c rest => escape c ++ rest) ('"' :: rest))).map
          fun (text, rest) => (.string (String.ofList text), rest) := rfl
    rw [write, hread, stringBody_escaped]
    exact congrArg (fun text => some (Json.string text, rest)) String.ofList_toList
  | array items =>
    cases items with
    | nil => rfl
    | cons item items =>
      obtain ⟨c, cs, hcs, hblank, hclose⟩ := write_eq_cons item (writeItems items rest)
      simp only [write, List.length_cons] at hfuel
      have hitems := readItems_write items hplain.2 (length_lt_write item _)
        (fun hfuel => readValue_write item hplain.1 (ends_writeItems items rest) hfuel)
        (show _ < fuel + 2 * rest.length by omega)
      rw [hcs] at hitems
      rw [write, hcs]
      exact readValue_array hblank hclose hitems
  | object fields =>
    cases fields with
    | nil => rfl
    | cons field fields =>
      have hname := length_lt_quote field.1 (':' :: write field.2 (writeFields fields rest))
      simp only [write, List.length_cons] at hfuel hname
      refine readValue_object (readFields_write fields hplain.2.1 hplain.2.2
        (length_lt_write field.2 _) ?_ ?_)
      · exact fun hfuel => readValue_write field.2 hplain.1 (ends_writeFields fields rest) hfuel
      · simp only [quote, List.length_cons] at hfuel ⊢
        omega

/-- The items behind one that can be read. -/
theorem readItems_write (items : List Json) (hplain : ItemsPlain items) {rest s : List Char}
    {item : Json} (hroom : (writeItems items rest).length < s.length)
    (hitem : ∀ {fuel}, 2 * s.length ≤ fuel + 2 * (writeItems items rest).length →
      readValue fuel s = some (item, writeItems items rest))
    {fuel : Nat} (hfuel : 2 * s.length < fuel + 2 * rest.length) :
    readItems fuel s = some (item :: items, rest) := by
  have hrest := length_lt_writeItems items rest
  obtain ⟨fuel, rfl⟩ : ∃ n, fuel = n + 1 := ⟨fuel - 1, by omega⟩
  have hfirst := @hitem fuel (by omega)
  cases items with
  | nil => exact readItems_last hfirst
  | cons next items =>
    simp only [writeItems, List.length_cons] at hroom hfuel
    exact readItems_more hfirst (readItems_write items hplain.2 (length_lt_write next _)
      (fun hfuel => readValue_write next hplain.1 (ends_writeItems items rest) hfuel) (by omega))

/-- The members behind one that can be read. -/
theorem readFields_write (fields : List (String × Json)) {name : String}
    (hname : name ∉ fields.map Prod.fst) (hplain : FieldsPlain fields) {rest s : List Char}
    {value : Json} (hroom : (writeFields fields rest).length < s.length)
    (hvalue : ∀ {fuel}, 2 * s.length ≤ fuel + 2 * (writeFields fields rest).length →
      readValue fuel s = some (value, writeFields fields rest))
    {fuel : Nat} (hfuel : 2 * (quote name (':' :: s)).length < fuel + 2 * rest.length) :
    readFields fuel (quote name (':' :: s)) = some ((name, value) :: fields, rest) := by
  have hrest := length_lt_writeFields fields rest
  have hquote := length_lt_quote name (':' :: s)
  rw [List.length_cons] at hquote
  obtain ⟨fuel, rfl⟩ : ∃ n, fuel = n + 1 := ⟨fuel - 1, by omega⟩
  have hfirst := @hvalue fuel (by omega)
  cases fields with
  | nil => exact readFields_last hfirst
  | cons next fields =>
    simp only [writeFields, List.length_cons] at hroom hfuel
    refine readFields_more hname hfirst (readFields_write fields hplain.2.1 hplain.2.2
      (length_lt_write next.2 _) ?_ (by omega))
    exact fun hfuel => readValue_write next.2 hplain.1 (ends_writeFields fields rest) hfuel

end

/-- **The reader undoes the writer.** -/
theorem parse_render {json : Json} (h : json.Plain) : parse json.render = some json := by
  have hread : readValue (2 * (json.write []).length + 2) (json.write []) = some (json, []) :=
    readValue_write json h ends_nil (by simp)
  rw [parse, render]
  simp only [String.toList_ofList, hread]
  rfl

end LuaTyping.Json
