import LuaTyping.NameMap

/-!
# Types

The types that the checker computes with.  `unknown` stands in for the type of something broken that
has been reported already; `any` is the dynamic type, whose values are checked when the program
runs.
-/

namespace LuaTyping

/-- A type.  The fields of tables, records and modules are in order of declaration. -/
inductive Ty where
  | nil
  | boolean
  | integer
  | float
  | string
  | any
  | array (elem : Ty)
  | table (fields : List (String × Ty))
  | record (name : String) (fields : List (String × Ty))
  | function (params returns : List Ty)
  | module (fields : List (String × Ty))
  | unknown
deriving Inhabited

namespace Ty

/-- Whether values of the type live on the garbage-collected heap. -/
def isGc : Ty → Bool
  | .string | .array _ | .table _ | .record .. | .function .. => true
  | _ => false

/-- Whether the type is `integer` or `float`. -/
def isNumeric : Ty → Bool
  | .integer | .float => true
  | _ => false

/-- Whether the type is `integer`. -/
def isInteger : Ty → Bool
  | .integer => true
  | _ => false

/-- Whether the type is `float`. -/
def isFloat : Ty → Bool
  | .float => true
  | _ => false

/-- Whether the type is `boolean`. -/
def isBoolean : Ty → Bool
  | .boolean => true
  | _ => false

/-- Whether the type is `string`. -/
def isString : Ty → Bool
  | .string => true
  | _ => false

/-- Whether the type is `any`. -/
def isAny : Ty → Bool
  | .any => true
  | _ => false

/-- Whether the type is `unknown`. -/
def isUnknown : Ty → Bool
  | .unknown => true
  | _ => false

/-- Whether the type is that of a module. -/
def isModule : Ty → Bool
  | .module _ => true
  | _ => false

/-- The named fields of a table or record type. -/
def fields? : Ty → Option (NameMap Ty)
  | .table fields | .record _ fields => some fields
  | _ => none

/-- Whether a module field may have the type; scalars only where they are allowed. -/
def isModuleField (allowScalars : Bool) : Ty → Bool
  | .function .. | .unknown => true
  | .boolean | .integer | .float | .string => allowScalars
  | _ => false

end Ty

end LuaTyping
