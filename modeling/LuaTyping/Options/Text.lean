import LuaTyping.Json.Reader
import LuaTyping.Options.Basic

/-!
# Options as text

Options can be written as a record in parentheses:

    `CheckOptions(filename: "shapes.lua", allow_scalar_module_fields: false)`

The name in front may be left out, and a comma may follow the last field.  The fields come in any
order; a field that is missing keeps its standard value, a known field that is repeated is an error,
and an unknown field is skipped with its value.  A list in such a value nests at most `maxListDepth`
deep.  Blanks, line comments and nested block comments may stand between any two tokens.

Every reader here takes the characters that are left and gives back those it leaves.
-/

namespace LuaTyping

namespace Options.Text

/-! ### Blanks and comments -/

/-- Where a reader stands among blanks: outside comments, in a line comment, or in a block comment
with a number of further block comments around it. -/
inductive Gap where
  | outside
  | line
  | block (outer : Nat)

/-- Skips blanks and comments.  A block comment has to be closed, and a slash has to open a
comment. -/
def skipGap : Gap → List Char → Option (List Char)
  | .outside, [] => some []
  | .outside, '/' :: '/' :: rest => skipGap .line rest
  | .outside, '/' :: '*' :: rest => skipGap (.block 0) rest
  | .outside, c :: rest =>
    if c = '/' then none else if Json.isBlank c then skipGap .outside rest else some (c :: rest)
  | .line, [] => some []
  | .line, c :: rest => if c = '\n' then skipGap .outside rest else skipGap .line rest
  | .block _, [] => none
  | .block outer, '/' :: '*' :: rest => skipGap (.block (outer + 1)) rest
  | .block 0, '*' :: '/' :: rest => skipGap .outside rest
  | .block (outer + 1), '*' :: '/' :: rest => skipGap (.block outer) rest
  | .block outer, _ :: rest => skipGap (.block outer) rest

/-- Skips to the next token. -/
def skip (cs : List Char) : Option (List Char) :=
  skipGap .outside cs

/-! ### Words -/

/-- A word starts with an ASCII letter or an underscore. -/
def isWordStart (c : Char) : Bool :=
  c.isAlpha || c = '_'

/-- A word goes on with ASCII letters, digits and underscores. -/
def isWordChar (c : Char) : Bool :=
  c.isAlphanum || c = '_'

/-- The word at the front, empty when there is none. -/
def word (cs : List Char) : String × List Char :=
  match cs with
  | c :: _ =>
    if isWordStart c then (String.ofList (cs.takeWhile isWordChar), cs.dropWhile isWordChar)
    else ("", cs)
  | [] => ("", [])

/-! ### Strings -/

/-- A code point that is being written in hexadecimal: its value and the number of its digits so
far. -/
structure CodePoint where
  value : Nat
  digits : Nat

/-- Reads a string after its opening quotation mark.  `pending` is a code point in braces that has
been opened; it has one to six digits. -/
def quotedBody : Option CodePoint → List Char → Option (List Char × List Char)
  | _, [] => none
  | some point, c :: rest =>
    if c = '\x7d' then
      if point.digits = 0 then none
      else do
        let head ← Json.charOf point.value
        let (tail, rest) ← quotedBody none rest
        return (head :: tail, rest)
    else if point.digits < 6 then
      match Json.hexValue c with
      | some digit => quotedBody (some ⟨16 * point.value + digit, point.digits + 1⟩) rest
      | none => none
    else none
  | none, '"' :: rest => some ([], rest)
  | none, '\\' :: 'u' :: '\x7b' :: rest => quotedBody (some ⟨0, 0⟩) rest
  | none, '\\' :: 'x' :: a :: b :: rest => do
    let high ← Json.hexValue a
    let low ← Json.hexValue b
    let (tail, rest) ← quotedBody none rest
    return (Char.ofNat (16 * high + low) :: tail, rest)
  | none, '\\' :: c :: rest => do
    let head ← match c with
      | 'n' => some '\n'
      | 'r' => some '\r'
      | 't' => some '\t'
      | '\x27' => some '\x27'
      | '"' => some '"'
      | '\\' => some '\\'
      | _ => none
    let (tail, rest) ← quotedBody none rest
    return (head :: tail, rest)
  | none, c :: rest => do
    let (tail, rest) ← quotedBody none rest
    return (c :: tail, rest)

/-- Reads a raw string after its opening quotation mark, up to a quotation mark that is followed by
as many hash signs as stood in front. -/
def rawBody (hashes : Nat) : List Char → Option (List Char × List Char)
  | [] => none
  | c :: rest =>
    if c = '"' ∧ rest.take hashes = List.replicate hashes '#' then some ([], rest.drop hashes)
    else do
      let (tail, rest) ← rawBody hashes rest
      return (c :: tail, rest)

/-- Reads a string, either quoted or raw. -/
def string : List Char → Option (String × List Char)
  | '"' :: rest => (quotedBody none rest).map fun (text, rest) => (String.ofList text, rest)
  | 'r' :: rest =>
    let hashes := (rest.takeWhile (· = '#')).length
    match rest.drop hashes with
    | '"' :: rest => (rawBody hashes rest).map fun (text, rest) => (String.ofList text, rest)
    | _ => none
  | _ => none

/-- Reads a truth value. -/
def bool (cs : List Char) : Option (Bool × List Char) :=
  match word cs with
  | ("true", rest) => some (true, rest)
  | ("false", rest) => some (false, rest)
  | _ => none

/-! ### Numbers -/

/-- The value of digits in the given base after digits of value `high`; underscores are passed
over. -/
def digitsValue (base : Nat) : Nat → List Char → Option Nat
  | high, [] => some high
  | high, c :: rest =>
    if c = '_' then digitsValue base high rest
    else match Json.hexValue c with
      | some digit => if digit < base then digitsValue base (base * high + digit) rest else none
      | none => none

/-- The value of digits in the given base.  There is at least one, and no underscore stands in front
of the first. -/
def natural (base : Nat) (digits : List Char) : Option Nat :=
  match digits with
  | [] => none
  | first :: _ => if first = '_' then none else digitsValue base 0 digits

/-- The value of an integer without sign.  `0x`, `0o` and `0b` in front choose the base, which is
ten otherwise. -/
def magnitude : List Char → Option Nat
  | '0' :: 'x' :: digits => natural 16 digits
  | '0' :: 'o' :: digits => natural 8 digits
  | '0' :: 'b' :: digits => natural 2 digits
  | digits => natural 10 digits

/-- Whether the characters are an integer of 64 bits, signed if a sign stands in front. -/
def isInteger : List Char → Bool
  | '+' :: rest => (magnitude rest).any (· < Nat.pow 2 63)
  | '-' :: rest => (magnitude rest).any (· ≤ Nat.pow 2 63)
  | cs => (magnitude cs).any (· < UInt64.size)

/-- The characters after a sign, if there is one. -/
def unsigned : List Char → List Char
  | '+' :: rest | '-' :: rest => rest
  | cs => cs

/-- Whether the characters are digits, and at least one. -/
def isDigits (cs : List Char) : Bool :=
  !cs.isEmpty && cs.all Char.isDigit

/-- Whether the characters are nothing, or the exponent of a decimal. -/
def isExponent : List Char → Bool
  | [] => true
  | c :: rest => (c = 'e' || c = 'E') && isDigits (unsigned rest)

/-- Whether the characters are a decimal of any size.  Digits may be missing on one side of the
point, and there are no underscores. -/
def isDecimal (cs : List Char) : Bool :=
  let whole := (unsigned cs).takeWhile Char.isDigit
  match (unsigned cs).dropWhile Char.isDigit with
  | '.' :: rest =>
    !(whole.isEmpty && (rest.takeWhile Char.isDigit).isEmpty)
      && isExponent (rest.dropWhile Char.isDigit)
  | rest => !whole.isEmpty && isExponent rest

/-- The characters that can belong to a number. -/
def isNumberChar (c : Char) : Bool :=
  isWordChar c || c = '.' || c = '+' || c = '-'

/-- Skips a number, which ends where no character of a number follows.  It is an integer of 64 bits
or a decimal, so that an integer of more bits has to be a plain decimal. -/
def skipNumber (cs : List Char) : Option (List Char) :=
  let number := cs.takeWhile isNumberChar
  if isInteger number || isDecimal number then some (cs.dropWhile isNumberChar) else none

/-! ### Values of unknown fields -/

/-- Skips the items of a list and its closing bracket, with `fuel` bounding their number.  `item`
skips one item; a comma may follow the last. -/
def skipItems (item : List Char → Option (List Char)) : Nat → List Char → Option (List Char)
  | 0, _ => none
  | _ + 1, ']' :: rest => some rest
  | fuel + 1, cs => do
    let rest ← item cs
    match ← skip rest with
    | ']' :: rest => some rest
    | ',' :: rest => skipItems item fuel (← skip rest)
    | _ => none

/-- Skips a number, a truth value, a string, or a list in which lists nest at most `depth` deep,
itself included. -/
def skipValue : Nat → List Char → Option (List Char)
  | 0, '[' :: _ => none
  | depth + 1, '[' :: rest => do
    let items ← skip rest
    skipItems (skipValue depth) (items.length + 1) items
  | _, cs => ((skipNumber cs).or ((bool cs).map Prod.snd)).or ((string cs).map Prod.snd)

/-- How deep lists may nest. -/
def maxListDepth : Nat :=
  63

/-! ### Records -/

/-- The fields read so far. -/
structure Draft where
  filename : Option String
  scalarFields : Option Bool

/-- Reads the value of the field with the given name into the draft. -/
def field (draft : Draft) (name : String) (cs : List Char) : Option (Draft × List Char) :=
  if name = "filename" then
    if draft.filename.isSome then none
    else (string cs).map fun (value, rest) => ({ draft with filename := some value }, rest)
  else if name = "allow_scalar_module_fields" then
    if draft.scalarFields.isSome then none
    else (bool cs).map fun (value, rest) => ({ draft with scalarFields := some value }, rest)
  else if name = "" then none
  else (skipValue maxListDepth cs).map fun rest => (draft, rest)

/-- Reads the fields of a record and its closing parenthesis, with `fuel` bounding their number. -/
def fields : Nat → Draft → List Char → Option (Draft × List Char)
  | 0, _, _ => none
  | _ + 1, draft, ')' :: rest => some (draft, rest)
  | fuel + 1, draft, cs => do
    let (name, rest) := word cs
    match ← skip rest with
    | ':' :: rest =>
      let (draft, rest) ← field draft name (← skip rest)
      match ← skip rest with
      | ')' :: rest => some (draft, rest)
      | ',' :: rest => fields fuel draft (← skip rest)
      | _ => none
    | _ => none

/-- Reads a whole text. -/
def read (cs : List Char) : Option Draft := do
  let (name, rest) := word (← skip cs)
  if name = "" ∨ name = "CheckOptions" then
    match ← skip rest with
    | '(' :: rest =>
      let (draft, rest) ← fields (rest.length + 1) ⟨none, none⟩ (← skip rest)
      if (← skip rest).isEmpty then some draft else none
    | _ => none
  else none

end Options.Text

/-- Why options cannot be read. -/
inductive OptionsError where
  | malformed
deriving DecidableEq, Repr

/-- The wording of the cause. -/
def OptionsError.message : OptionsError → String
  | .malformed => "invalid checker configuration"

/-- Reads options; fields that are missing keep their standard values. -/
def Options.parse (text : String) : Except OptionsError Options :=
  match Options.Text.read text.toList with
  | some draft => .ok
      { filename := draft.filename.getD Options.standard.filename
        scalarFields := draft.scalarFields.getD Options.standard.scalarFields }
  | none => .error .malformed

end LuaTyping
