import LuaTyping.Json.Basic
import LuaTyping.Ty.Basic

/-!
# Types as JSON

A type without parts is its bare tag, and only that; any other type is an object with one field.
Maps of fields are arrays of pairs, so that their order is kept; a name that is repeated among them
replaces the earlier type.
-/

namespace LuaTyping

namespace Ty

mutual

/-- A type as a JSON value. -/
def toJson : Ty → Json
  | .nil => .string "Nil"
  | .boolean => .string "Boolean"
  | .integer => .string "Integer"
  | .float => .string "Float"
  | .string => .string "String"
  | .any => .string "Any"
  | .array elem => .tagged "Array" (toJson elem)
  | .table fields => .tagged "Table" (.array (fieldsToJson fields))
  | .record name fields =>
    .tagged "Record" (.object [("name", .string name), ("fields", .array (fieldsToJson fields))])
  | .function params returns =>
    .tagged "Function" (.object
      [("params", .array (listToJson params)), ("returns", .array (listToJson returns))])
  | .module fields => .tagged "Module" (.array (fieldsToJson fields))
  | .unknown => .string "Unknown"

/-- Types as the items of an array. -/
def listToJson : List Ty → List Json
  | [] => []
  | ty :: rest => toJson ty :: listToJson rest

/-- Fields as pairs of their name and type. -/
def fieldsToJson : List (String × Ty) → List Json
  | [] => []
  | (name, ty) :: rest => .array [.string name, toJson ty] :: fieldsToJson rest

end

/-- Reads a map of fields. -/
def readFields (read : Json → Option Ty) (json : Json) : Option (NameMap Ty) :=
  (json.pairs? read).map NameMap.ofEntries

/-- The type without parts that has the given tag. -/
def ofTag? : String → Option Ty
  | "Nil" => some .nil
  | "Boolean" => some .boolean
  | "Integer" => some .integer
  | "Float" => some .float
  | "String" => some .string
  | "Any" => some .any
  | "Unknown" => some .unknown
  | _ => none

/-- Reads a type that is nested at most `fuel` deep. -/
def read : Nat → Json → Option Ty
  | 0, _ => none
  | _ + 1, .string tag => ofTag? tag
  | fuel + 1, .object [(tag, contents)] =>
    match tag with
    | "Array" => return .array (← read fuel contents)
    | "Table" => return .table (← readFields (read fuel) contents)
    | "Record" => do
      let fields ← contents.fields?
      return .record (← Json.required fields "name" Json.string?)
        (← Json.required fields "fields" (readFields (read fuel)))
    | "Function" => do
      let fields ← contents.fields?
      return .function (← Json.required fields "params" (Json.list? (read fuel)))
        (← Json.required fields "returns" (Json.list? (read fuel)))
    | "Module" => return .module (← readFields (read fuel) contents)
    | _ => none
  | _ + 1, _ => none

/-- Reads a type. -/
def ofJson? (json : Json) : Option Ty :=
  read (json.depth + 1) json

end Ty

end LuaTyping
