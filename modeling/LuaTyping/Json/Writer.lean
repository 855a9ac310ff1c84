import LuaTyping.Json.Basic

/-!
# Writing JSON

`Json.render` writes a value without blanks.  In strings the quotation mark and the backslash are
escaped, the control characters below `U+0020` get their short escape where there is one and four
hexadecimal digits otherwise, and every other character stands for itself.

A float is written as the string of the sixteen hexadecimal digits of its bits, which is exact for
every value, the infinities and NaN included.
-/

namespace LuaTyping

namespace Json

/-- The digit of a number below sixteen, in lower case. -/
def hexDigit (n : Nat) : Char :=
  if n < 10 then Char.ofNat (n + 48) else Char.ofNat (n + 87)

/-- The last `width` hexadecimal digits of a number. -/
def hexDigits : Nat → Nat → List Char
  | 0, _ => []
  | width + 1, n => hexDigits width (n / 16) ++ [hexDigit (n % 16)]

/-- A character as it stands between the quotation marks. -/
def escape (c : Char) : List Char :=
  if c = '"' then ['\\', '"']
  else if c = '\\' then ['\\', '\\']
  else if c = '\x08' then ['\\', 'b']
  else if c = '\x0c' then ['\\', 'f']
  else if c = '\n' then ['\\', 'n']
  else if c = '\r' then ['\\', 'r']
  else if c = '\t' then ['\\', 't']
  else if c.toNat < 32 then '\\' :: 'u' :: hexDigits 4 c.toNat
  else [c]

/-- Writes a string with its quotation marks in front of `rest`. -/
def quote (text : String) (rest : List Char) : List Char :=
  '"' :: text.toList.foldr (fun c rest => escape c ++ rest) ('"' :: rest)

/-- An integer in decimal. -/
def decimal (n : Int) : List Char :=
  if n < 0 then '-' :: Nat.toDigits 10 n.natAbs else Nat.toDigits 10 n.natAbs

mutual

/-- Writes a value in front of `rest`. -/
def write : Json → List Char → List Char
  | .null, rest => 'n' :: 'u' :: 'l' :: 'l' :: rest
  | .bool true, rest => 't' :: 'r' :: 'u' :: 'e' :: rest
  | .bool false, rest => 'f' :: 'a' :: 'l' :: 's' :: 'e' :: rest
  | .integer value, rest => decimal value ++ rest
  | .float value, rest => '"' :: (hexDigits 16 value.toBits.toNat ++ '"' :: rest)
  | .string value, rest => quote value rest
  | .array [], rest => '[' :: ']' :: rest
  | .array (item :: items), rest => '[' :: write item (writeItems items rest)
  | .object [], rest => '\x7b' :: '\x7d' :: rest
  | .object ((name, value) :: fields), rest =>
    '\x7b' :: quote name (':' :: write value (writeFields fields rest))

/-- Writes the items after the first of an array, and its closing bracket. -/
def writeItems : List Json → List Char → List Char
  | [], rest => ']' :: rest
  | item :: items, rest => ',' :: write item (writeItems items rest)

/-- Writes the fields after the first of an object, and its closing brace. -/
def writeFields : List (String × Json) → List Char → List Char
  | [], rest => '\x7d' :: rest
  | (name, value) :: fields, rest =>
    ',' :: quote name (':' :: write value (writeFields fields rest))

end

/-- The text of a value, without blanks. -/
def render (json : Json) : String :=
  String.ofList (json.write [])

end Json

end LuaTyping
