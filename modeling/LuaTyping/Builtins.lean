import LuaTyping.Ty.Basic

/-!
# Builtin names

The names that every program can see and none can assign to.  A function is a typed name of its own;
a library is a table of typed members that are reached as `library.member`.
-/

namespace LuaTyping

/-- What a builtin name stands for. -/
inductive Builtin where
  | function (ty : Ty)
  | library (members : NameMap Ty)

/-- A table of builtin names, in order. -/
structure Builtins where
  entries : NameMap Builtin

namespace Builtins

/-- No builtin names. -/
def empty : Builtins :=
  ⟨[]⟩

/-- Adds a function, or replaces what the name stood for. -/
def withFunction (builtins : Builtins) (name : String) (ty : Ty) : Builtins :=
  ⟨builtins.entries.insert name (.function ty)⟩

/-- Adds a library, or replaces what the name stood for. -/
def withLibrary (builtins : Builtins) (name : String) (members : List (String × Ty)) : Builtins :=
  ⟨builtins.entries.insert name (.library (NameMap.ofEntries members))⟩

/-- What a name stands for. -/
def get? (builtins : Builtins) (name : String) : Option Builtin :=
  builtins.entries.lookup name

/-- The type of `library.member`, if there is such a library with such a member. -/
def member? (builtins : Builtins) (library member : String) : Option Ty :=
  match builtins.get? library with
  | some (.library members) => members.lookup member
  | _ => none

/-- The builtin names, in order. -/
def names (builtins : Builtins) : List String :=
  builtins.entries.keys

/-- The function whose calls have rules of their own in `for … in` loops. -/
def ipairs : String :=
  "ipairs"

/-- The standard builtins. -/
def standard : Builtins :=
  let next := Ty.function [.any, .any] [.any, .any]
  let iteration := Ty.function [.any] [next, .any, .any]
  let real := Ty.function [.float] [.float]
  empty
    |>.withFunction "type" (.function [.any] [.string])
    |>.withFunction "tostring" (.function [.any] [.string])
    |>.withFunction "print" (.function [.any] [])
    |>.withFunction "next" next
    |>.withFunction "pairs" iteration
    |>.withFunction ipairs iteration
    |>.withLibrary "io" [("write", .function [.string] [])]
    |>.withLibrary "math"
      [("sqrt", real), ("exp", real), ("log", real), ("sin", real), ("cos", real),
        ("fmod", .function [.float, .float] [.float]), ("pi", .float), ("huge", .float),
        ("maxinteger", .integer), ("mininteger", .integer)]
    |>.withLibrary "string"
      [("char", .function [.integer] [.string]), ("len", .function [.string] [.integer]),
        ("rep", .function [.string, .integer] [.string]),
        ("sub", .function [.string, .integer, .integer] [.string])]

end Builtins

end LuaTyping
