/-!
# JSON values

The tree in which programs and diagnostics are exchanged.  A number is either an integer or a
binary64 float, so that 64-bit words survive unchanged; an object lists its fields in order.

The readers below say what a record of named fields, a tagged choice and the scalar kinds look like.
Each answers `none` for a value of another shape.
-/

namespace LuaTyping

/-- A JSON value; numbers are split into integers and floats. -/
inductive Json where
  | null
  | bool (value : Bool)
  | integer (value : Int)
  | float (value : Float)
  | string (value : String)
  | array (items : List Json)
  | object (fields : List (String × Json))
deriving Inhabited

namespace Json

/-! ### Depth -/

mutual

/-- The number of arrays and objects around the innermost value. -/
def depth : Json → Nat
  | .array items => depthItems items + 1
  | .object fields => depthFields fields + 1
  | _ => 0

/-- The greatest depth in a list of values. -/
def depthItems : List Json → Nat
  | [] => 0
  | item :: rest => max (depth item) (depthItems rest)

/-- The greatest depth among the values of an object. -/
def depthFields : List (String × Json) → Nat
  | [] => 0
  | (_, value) :: rest => max (depth value) (depthFields rest)

end

/-! ### Scalars and lists -/

/-- A truth value. -/
def bool? : Json → Option Bool
  | .bool value => some value
  | _ => none

/-- A string. -/
def string? : Json → Option String
  | .string value => some value
  | _ => none

/-- An integer that fits an unsigned 64-bit word. -/
def uint64? : Json → Option UInt64
  | .integer value =>
    if 0 ≤ value ∧ value.toNat < UInt64.size then some (UInt64.ofNat value.toNat) else none
  | _ => none

/-- An integer that fits a signed 64-bit word. -/
def int64? : Json → Option Int64
  | .integer value =>
    if Int64.minValue.toInt ≤ value ∧ value ≤ Int64.maxValue.toInt then some (Int64.ofInt value)
    else none
  | _ => none

/-- Any number, rounded to the nearest float. -/
def float? : Json → Option Float
  | .float value => some value
  | .integer value => some (Float.ofInt value)
  | _ => none

/-- An array whose items can all be read by `read`. -/
def list? {α : Type} (read : Json → Option α) : Json → Option (List α)
  | .array items => items.mapM read
  | _ => none

/-- An array of pairs of a name and a value that can be read by `read`. -/
def pairs? {α : Type} (read : Json → Option α) : Json → Option (List (String × α)) :=
  list? fun pair =>
    match pair with
    | .array [.string name, value] => (read value).map fun value => (name, value)
    | _ => none

/-- The number of a 64-bit word. -/
def ofUInt64 (value : UInt64) : Json :=
  .integer value.toNat

/-- The number of a signed 64-bit word. -/
def ofInt64 (value : Int64) : Json :=
  .integer value.toInt

/-- An optional value, with `null` for none. -/
def ofOption {α : Type} (write : α → Json) : Option α → Json
  | some value => write value
  | none => .null

/-! ### Tagged choices -/

/-- The tag and the contents of a choice: an object with one field, or the bare tag of a choice
without contents. -/
def choice? : Json → Option (String × Json)
  | .string tag => some (tag, .null)
  | .object [(tag, contents)] => some (tag, contents)
  | _ => none

/-- A choice with contents. -/
def tagged (tag : String) (contents : Json) : Json :=
  .object [(tag, contents)]

/-- The bare tag of a choice, when it has no contents. -/
def tag? (json : Json) : Option String :=
  match json.choice? with
  | some (tag, .null) => some tag
  | _ => none

/-! ### Records -/

/-- The fields of an object. -/
def fields? : Json → Option (List (String × Json))
  | .object fields => some fields
  | _ => none

/-- The fields of a record with the given field names: an object, or an array of the leading fields
in their order. -/
def record? (names : List String) : Json → Option (List (String × Json))
  | .object fields => some fields
  | .array items => if items.length ≤ names.length then some (names.zip items) else none
  | _ => none

/-- A field that has to be present. -/
def required {α : Type} (fields : List (String × Json)) (name : String) (read : Json → Option α) :
    Option α :=
  (fields.lookup name).bind read

/-- A field that may be absent and then has the value `default`. -/
def defaulted {α : Type} (fields : List (String × Json)) (name : String) (read : Json → Option α)
    (default : α) : Option α :=
  match fields.lookup name with
  | some value => read value
  | none => some default

/-- A field that may be absent or `null`, and then has no value. -/
def optional {α : Type} (fields : List (String × Json)) (name : String) (read : Json → Option α) :
    Option (Option α) :=
  match fields.lookup name with
  | none => some none
  | some .null => some none
  | some value => (read value).map some

end Json

end LuaTyping
