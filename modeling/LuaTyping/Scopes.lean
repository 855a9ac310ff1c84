import LuaTyping.Builtins
import LuaTyping.Source.Location

/-!
# Lexical scopes

Variables live in layers: the toplevel of the program at the bottom, and above it one layer for each
open function, block and loop.  A look-up goes from the innermost layer outwards and then to the
builtins.  A name can be declared once at the toplevel and freely inside; type names have a
namespace of their own, in which a name can be declared once.
-/

namespace LuaTyping

/-- Where a variable was declared: inside a function, at the toplevel, or as the module variable. -/
inductive VarKind where
  | inner
  | toplevel
  | module
deriving DecidableEq, Repr

/-- A declared variable. -/
structure Binding where
  ty : Ty
  loc : Location
  kind : VarKind

/-- A type with the place of its declaration. -/
structure Declared where
  ty : Ty
  loc : Location

/-- What a name stands for. -/
inductive Resolved where
  | var (binding : Binding)
  | builtin (ty : Ty)
  | library (members : NameMap Ty)

/-- The names in sight.  `inner` lists the open layers above the toplevel, the innermost first. -/
structure Scopes where
  builtins : Builtins
  inner : List (NameMap Binding)
  toplevel : NameMap Binding
  types : NameMap Declared

namespace Scopes

/-- An empty toplevel over the builtins. -/
def start (builtins : Builtins) : Scopes :=
  ⟨builtins, [], [], []⟩

/-- Opens a layer. -/
def enter (scopes : Scopes) : Scopes :=
  { scopes with inner := [] :: scopes.inner }

/-- Closes the innermost layer; the toplevel stays open. -/
def exit (scopes : Scopes) : Scopes :=
  { scopes with inner := scopes.inner.tail }

/-- Whether no layer is open above the toplevel. -/
def isToplevel (scopes : Scopes) : Bool :=
  scopes.inner.isEmpty

/-- Declares a variable in the innermost layer.  At the toplevel a name that is taken is refused
with its earlier declaration. -/
def declare (scopes : Scopes) (name : String) (binding : Binding) : Except Binding Scopes :=
  match scopes.inner with
  | layer :: outer => .ok { scopes with inner := layer.insert name binding :: outer }
  | [] =>
    match scopes.toplevel.lookup name with
    | some previous => .error previous
    | none => .ok { scopes with toplevel := scopes.toplevel.insert name binding }

/-- The innermost declaration of a variable. -/
def var? (scopes : Scopes) (name : String) : Option Binding :=
  (scopes.inner.findSome? (·.lookup name)).or (scopes.toplevel.lookup name)

/-- What a name stands for, variables before builtins. -/
def lookup (scopes : Scopes) (name : String) : Option Resolved :=
  match scopes.var? name with
  | some binding => some (.var binding)
  | none =>
    match scopes.builtins.get? name with
    | some (.function ty) => some (.builtin ty)
    | some (.library members) => some (.library members)
    | none => none

/-- Declares a type name; one that is taken is refused with the place of its declaration. -/
def declareType (scopes : Scopes) (name : String) (ty : Ty) (loc : Location) :
    Except Location Scopes :=
  match scopes.types.lookup name with
  | some previous => .error previous.loc
  | none => .ok { scopes with types := scopes.types.insert name ⟨ty, loc⟩ }

/-- The type that a type name stands for. -/
def lookupType (scopes : Scopes) (name : String) : Option Ty :=
  (scopes.types.lookup name).map (·.ty)

end Scopes

end LuaTyping
