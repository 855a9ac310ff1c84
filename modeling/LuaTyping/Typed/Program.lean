import LuaTyping.Source.Program
import LuaTyping.Typed.Stmt

/-!
# Typed programs and checked modules

A typed program has the items of the source without its type aliases.  A checked module is an
accepted program together with the fields that it exports and its toplevel names.
-/

namespace LuaTyping.Typed

/-- A typed function; `ty` is its function type. -/
structure Function where
  name : Source.FunctionName
  params : List Decl
  ty : Ty
  body : Block
  loc : Location

/-- A typed toplevel item. -/
inductive Item where
  | var (decls : List Decl) (values : List Expr) (loc : Location)
  | function (decl : Function)
  | assign (targets : List Target) (values : List Expr) (loc : Location)
  | record (name : String) (ty : Ty) (loc : Location)
  | ret (value : Expr) (loc : Location)

/-- A typed program. -/
structure Program where
  items : List Item

end LuaTyping.Typed

namespace LuaTyping

/-- A program that breaks no rule, with what others can know of it. -/
structure CheckedModule where
  name : String
  exports : NameMap Ty
  toplevel : NameMap Ty
  program : Typed.Program

namespace CheckedModule

/-- The type of the module as a value. -/
def moduleType (checked : CheckedModule) : Ty :=
  .module checked.exports

/-- The type of an exported field. -/
def export? (checked : CheckedModule) (field : String) : Option Ty :=
  checked.exports.lookup field

end CheckedModule

end LuaTyping
