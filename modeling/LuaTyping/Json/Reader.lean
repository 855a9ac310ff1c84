import LuaTyping.Json.Basic

/-!
# Reading JSON

`Json.parse` reads one value with blanks around it.  A numeral without fraction and exponent that
fits a signed or an unsigned 64-bit word is an integer; every other numeral is rounded to the
nearest float, and one that is too large for a float is refused.  Of several fields with one name an
object keeps the last value at the first place.
-/

namespace LuaTyping

namespace Json

/-! ### Characters -/

/-- The characters that may stand between tokens. -/
def isBlank (c : Char) : Bool :=
  c = ' ' || c = '\t' || c = '\n' || c = '\r'

/-- The text after the blanks at its front. -/
def skipBlanks (cs : List Char) : List Char :=
  cs.dropWhile isBlank

/-- The value of a hexadecimal digit in either case. -/
def hexValue (c : Char) : Option Nat :=
  if '0' ≤ c ∧ c ≤ '9' then some (c.toNat - 48)
  else if 'a' ≤ c ∧ c ≤ 'f' then some (c.toNat - 87)
  else if 'A' ≤ c ∧ c ≤ 'F' then some (c.toNat - 55)
  else none

/-- The number that four hexadecimal digits denote. -/
def hexUnit (a b c d : Char) : Option Nat := do
  return ((← hexValue a) * 16 + (← hexValue b)) * 256 + (← hexValue c) * 16 + (← hexValue d)

/-- The character with this code point, if there is one. -/
def charOf (code : Nat) : Option Char :=
  if code.isValidChar then some (Char.ofNat code) else none

/-- The character that a short escape denotes. -/
def shortEscape (c : Char) : Option Char :=
  match c with
  | '"' => some '"'
  | '\\' => some '\\'
  | '/' => some '/'
  | 'b' => some '\x08'
  | 'f' => some '\x0c'
  | 'n' => some '\n'
  | 'r' => some '\r'
  | 't' => some '\t'
  | _ => none

/-! ### Strings -/

/-- Reads a string after its opening quotation mark.  Two escaped surrogate halves in a row make one
character; a half alone is refused. -/
def stringBody : List Char → Option (List Char × List Char)
  | [] => none
  | '"' :: rest => some ([], rest)
  | '\\' :: 'u' :: a :: b :: c :: d :: rest =>
    match hexUnit a b c d with
    | none => none
    | some unit =>
      if unit < 0xD800 ∨ 0xDFFF < unit then do
        let head ← charOf unit
        let (tail, rest) ← stringBody rest
        return (head :: tail, rest)
      else
        match rest with
        | '\\' :: 'u' :: e :: f :: g :: h :: rest => do
          let low ← hexUnit e f g h
          if unit < 0xDC00 ∧ 0xDC00 ≤ low ∧ low ≤ 0xDFFF then
            let head ← charOf (0x10000 + (unit - 0xD800) * 0x400 + (low - 0xDC00))
            let (tail, rest) ← stringBody rest
            return (head :: tail, rest)
          else
            none
        | _ => none
  | '\\' :: c :: rest => do
    let head ← shortEscape c
    let (tail, rest) ← stringBody rest
    return (head :: tail, rest)
  | c :: rest =>
    if c.toNat < 32 then none
    else do
      let (tail, rest) ← stringBody rest
      return (c :: tail, rest)

/-! ### Numerals -/

/-- The number that decimal digits denote. -/
def ofDigits (ds : List Char) : Nat :=
  ds.foldl (fun n d => 10 * n + (d.toNat - 48)) 0

/-- The float nearest to `mantissa * 10 ^ exponent`, unless it is too large.  The two bounds keep
the power of ten small: outside them the value overflows or vanishes. -/
def nearestFloat (mantissa : Nat) (exponent : Int) : Option Float :=
  let order : Int := exponent + (Nat.toDigits 10 mantissa).length
  if mantissa = 0 ∨ order < -400 then some 0
  else if 400 < order then none
  else
    let value :=
      if exponent < 0 then Float.ofScientific mantissa true exponent.natAbs
      else Float.ofScientific mantissa false exponent.natAbs
    if value.isInf then none else some value

/-- The value of a numeral without fraction and exponent. -/
def ofInteger (negative : Bool) (n : Nat) : Option Json :=
  if negative then
    if 0 < n ∧ n ≤ Nat.pow 2 63 then some (.integer (-n))
    else (nearestFloat n 0).map fun x => .float (-x)
  else
    if n < UInt64.size then some (.integer n) else (nearestFloat n 0).map .float

/-- The digits at the front and what follows them, if there is a digit. -/
def digitRun (cs : List Char) : Option (List Char × List Char) :=
  match cs.takeWhile Char.isDigit with
  | [] => none
  | ds => some (ds, cs.dropWhile Char.isDigit)

/-- Reads the fraction of a numeral, empty when there is none. -/
def fraction : List Char → Option (List Char × List Char)
  | '.' :: rest => digitRun rest
  | cs => some ([], cs)

/-- Reads the digits of an exponent after its mark. -/
def exponentDigits : List Char → Option (Int × List Char)
  | '-' :: rest => (digitRun rest).map fun (ds, rest) => (-(ofDigits ds : Int), rest)
  | '+' :: rest => (digitRun rest).map fun (ds, rest) => ((ofDigits ds : Int), rest)
  | cs => (digitRun cs).map fun (ds, rest) => ((ofDigits ds : Int), rest)

/-- Reads the exponent of a numeral, if there is one. -/
def exponent : List Char → Option (Option Int × List Char)
  | 'e' :: rest => (exponentDigits rest).map fun (n, rest) => (some n, rest)
  | 'E' :: rest => (exponentDigits rest).map fun (n, rest) => (some n, rest)
  | cs => some (none, cs)

/-- Reads a numeral after its sign.  A whole part of several digits does not start with zero. -/
def numeral (negative : Bool) (cs : List Char) : Option (Json × List Char) := do
  let (whole, rest) ← digitRun cs
  if whole.head? = some '0' ∧ 1 < whole.length then
    none
  else
    let (decimals, rest) ← fraction rest
    let (power, rest) ← exponent rest
    if decimals.isEmpty ∧ power.isNone then
      return (← ofInteger negative (ofDigits whole), rest)
    else
      let value ← nearestFloat (ofDigits (whole ++ decimals)) (power.getD 0 - decimals.length)
      return (.float (if negative then -value else value), rest)

/-! ### Values -/

/-- Puts a field in front of an object: a later field of the same name gives the value. -/
def consField (name : String) (value : Json) (fields : List (String × Json)) :
    List (String × Json) :=
  (name, (fields.lookup name).getD value) :: fields.filter (fun field => field.1 != name)

mutual

/-- Reads a value, with `fuel` bounding the number of nested steps. -/
def readValue : Nat → List Char → Option (Json × List Char)
  | 0, _ => none
  | fuel + 1, cs =>
    match skipBlanks cs with
    | 'n' :: 'u' :: 'l' :: 'l' :: rest => some (.null, rest)
    | 't' :: 'r' :: 'u' :: 'e' :: rest => some (.bool true, rest)
    | 'f' :: 'a' :: 'l' :: 's' :: 'e' :: rest => some (.bool false, rest)
    | '"' :: rest => (stringBody rest).map fun (text, rest) => (.string (String.ofList text), rest)
    | '[' :: rest =>
      match skipBlanks rest with
      | ']' :: rest => some (.array [], rest)
      | rest => (readItems fuel rest).map fun (items, rest) => (.array items, rest)
    | '\x7b' :: rest =>
      match skipBlanks rest with
      | '\x7d' :: rest => some (.object [], rest)
      | rest => (readFields fuel rest).map fun (fields, rest) => (.object fields, rest)
    | '-' :: rest => numeral true rest
    | cs => numeral false cs

/-- Reads the items of an array that has one, and its closing bracket. -/
def readItems : Nat → List Char → Option (List Json × List Char)
  | 0, _ => none
  | fuel + 1, cs => do
    let (item, rest) ← readValue fuel cs
    match skipBlanks rest with
    | ']' :: rest => return ([item], rest)
    | ',' :: rest =>
      let (items, rest) ← readItems fuel rest
      return (item :: items, rest)
    | _ => none

/-- Reads the fields of an object that has one, and its closing brace. -/
def readFields : Nat → List Char → Option (List (String × Json) × List Char)
  | 0, _ => none
  | fuel + 1, cs =>
    match skipBlanks cs with
    | '"' :: rest => do
      let (name, rest) ← stringBody rest
      match skipBlanks rest with
      | ':' :: rest =>
        let (value, rest) ← readValue fuel rest
        match skipBlanks rest with
        | '\x7d' :: rest => return ([(String.ofList name, value)], rest)
        | ',' :: rest =>
          let (fields, rest) ← readFields fuel rest
          return (consField (String.ofList name) value fields, rest)
        | _ => none
      | _ => none
    | _ => none

end

/-- Reads a text that holds one value.  Every bracket and every item takes at most two steps, so
that twice the length of the text is fuel enough. -/
def parse (text : String) : Option Json :=
  let cs := text.toList
  match readValue (2 * cs.length + 2) cs with
  | some (value, rest) => if (skipBlanks rest).isEmpty then some value else none
  | none => none

end Json

end LuaTyping
