import LuaTyping.Ty.Basic

/-!
# Types as text

`Ty.display` is the text of a type in messages: arrays and tables in braces, functions with an arrow
between parenthesised lists, a record by its name alone.
-/

namespace LuaTyping

namespace Ty

mutual

/-- The text of a type. -/
def display : Ty → String
  | .nil => "nil"
  | .boolean => "boolean"
  | .integer => "integer"
  | .float => "float"
  | .string => "string"
  | .any => "any"
  | .array elem => "\x7b " ++ display elem ++ " \x7d"
  | .table [] => "\x7b\x7d"
  | .table ((name, ty) :: rest) =>
    "\x7b " ++ name ++ ": " ++ display ty ++ displayFields rest ++ " \x7d"
  | .record name _ => name
  | .function params returns =>
    "(" ++ displayList params ++ ") -> (" ++ displayList returns ++ ")"
  | .module _ => "module"
  | .unknown => "unknown"

/-- Types with commas between them. -/
def displayList : List Ty → String
  | [] => ""
  | [ty] => display ty
  | ty :: rest => display ty ++ ", " ++ displayList rest

/-- Fields, each after a comma. -/
def displayFields : List (String × Ty) → String
  | [] => ""
  | (name, ty) :: rest => ", " ++ name ++ ": " ++ display ty ++ displayFields rest

end

end Ty

end LuaTyping
