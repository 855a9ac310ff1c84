import LuaTyping.Source.Location

/-!
# Type annotations as written

An annotation names its types; what a name stands for is decided where the annotation is resolved.
-/

namespace LuaTyping

mutual

/-- A type as a program writes it. -/
inductive TypeExpr where
  | nil
  | boolean
  | integer
  | float
  | string
  | any
  | module
  | name (name : String) (loc : Location)
  | array (elem : TypeExpr) (loc : Location)
  | table (fields : List TypeField) (loc : Location)
  | function (params returns : List TypeExpr) (loc : Location)

/-- A field `name: type` of a table type. -/
structure TypeField where
  name : String
  type : TypeExpr
  loc : Location

end

instance : Inhabited TypeExpr :=
  ⟨.nil⟩

/-- Whether the annotation is the type of the module variable. -/
def TypeExpr.isModule : TypeExpr → Bool
  | .module => true
  | _ => false

end LuaTyping
