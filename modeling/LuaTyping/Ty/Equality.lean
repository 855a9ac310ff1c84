import LuaTyping.Ty.Basic

/-!
# Equality and compatibility of types

`Ty.same` compares types by structure, records also by name.  The order of the fields does not
matter, so it is coarser than equality of the trees.  `Ty.compatible` moreover lets `unknown` match
any type, in arrays, tables and functions at any depth; records and modules match only when they are
the same.
-/

namespace LuaTyping

namespace Ty

mutual

/-- Whether two types are the same up to the order of fields. -/
def same : Ty → Ty → Bool
  | .nil, .nil => true
  | .boolean, .boolean => true
  | .integer, .integer => true
  | .float, .float => true
  | .string, .string => true
  | .any, .any => true
  | .array elem, .array elem' => same elem elem'
  | .table fields, .table fields' =>
    fields.length == fields'.length && sameFields fields fields'
  | .record name fields, .record name' fields' =>
    name == name' && fields.length == fields'.length && sameFields fields fields'
  | .function params returns, .function params' returns' =>
    sameList params params' && sameList returns returns'
  | .module fields, .module fields' =>
    fields.length == fields'.length && sameFields fields fields'
  | .unknown, .unknown => true
  | _, _ => false

/-- Whether two lists have the same types, place by place. -/
def sameList : List Ty → List Ty → Bool
  | [], [] => true
  | ty :: rest, ty' :: rest' => same ty ty' && sameList rest rest'
  | _, _ => false

/-- Whether every field of the first map is in the second with the same type. -/
def sameFields : List (String × Ty) → List (String × Ty) → Bool
  | [], _ => true
  | (name, ty) :: rest, fields' =>
    (match fields'.lookup name with
      | some ty' => same ty ty'
      | none => false) && sameFields rest fields'

end

mutual

/-- Whether two types are the same where neither is `unknown`. -/
def compatible : Ty → Ty → Bool
  | .unknown, _ => true
  | _, .unknown => true
  | .array elem, .array elem' => compatible elem elem'
  | .table fields, .table fields' =>
    fields.length == fields'.length && compatibleFields fields fields'
  | .function params returns, .function params' returns' =>
    compatibleList params params' && compatibleList returns returns'
  | ty, ty' => same ty ty'

/-- Whether two lists have compatible types, place by place. -/
def compatibleList : List Ty → List Ty → Bool
  | [], [] => true
  | ty :: rest, ty' :: rest' => compatible ty ty' && compatibleList rest rest'
  | _, _ => false

/-- Whether every field of the first map is in the second with a compatible type. -/
def compatibleFields : List (String × Ty) → List (String × Ty) → Bool
  | [], _ => true
  | (name, ty) :: rest, fields' =>
    (match fields'.lookup name with
      | some ty' => compatible ty ty'
      | none => false) && compatibleFields rest fields'

end

end Ty

end LuaTyping
