import LuaTyping.Report
import LuaTyping.Scopes
import LuaTyping.Source.TypeExpr

/-!
# Resolving type expressions

A type expression is resolved with the type names that have been declared before it.  A name that is
not among them, and the module type, which has no place inside a type, become `unknown`.  Of several
fields with one name in a table type the first counts.
-/

namespace LuaTyping

namespace TypeExpr

mutual

/-- The type that an expression denotes.  `site` is where a misplaced module type is reported. -/
def resolve (scopes : Scopes) : TypeExpr → Location → Report Ty
  | .nil, _ => pure .nil
  | .boolean, _ => pure .boolean
  | .integer, _ => pure .integer
  | .float, _ => pure .float
  | .string, _ => pure .string
  | .any, _ => pure .any
  | .module, site => do
    Report.fault .misplacedModuleType site
    pure .unknown
  | .name text loc, _ => Report.orUnknown (scopes.lookupType text) (.undeclaredType text) loc
  | .array elem loc, _ => do
    let elem ← resolve scopes elem loc
    pure (.array elem)
  | .table fields _, _ => do
    let fields ← resolveFields scopes fields []
    pure (.table fields)
  | .function params returns loc, _ => do
    let params ← resolveList scopes params loc
    let returns ← resolveList scopes returns loc
    pure (.function params returns)

/-- The types of a list, all reported at the same place. -/
def resolveList (scopes : Scopes) : List TypeExpr → Location → Report (List Ty)
  | [], _ => pure []
  | type :: rest, site => do
    let ty ← resolve scopes type site
    let tys ← resolveList scopes rest site
    pure (ty :: tys)

/-- The fields of a table type behind those that are known already. -/
def resolveFields (scopes : Scopes) : List TypeField → NameMap Ty → Report (NameMap Ty)
  | [], known => pure known
  | ⟨key, type, loc⟩ :: rest, known => do
    let ty ← resolve scopes type loc
    if known.contains key then
      Report.fault (.duplicateTableTypeField key) loc
      resolveFields scopes rest known
    else
      resolveFields scopes rest (known.insert key ty)

end

end TypeExpr

end LuaTyping
