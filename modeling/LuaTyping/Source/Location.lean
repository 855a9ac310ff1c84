/-!
# Positions in a source text

Lines and columns count from one.  A node without a position of its own has line zero.
-/

namespace LuaTyping

/-- A line and column, with the byte offset where it is known. -/
structure Location where
  line : UInt64
  col : UInt64
  offset : UInt64
deriving DecidableEq, Repr, Inhabited

namespace Location

/-- The location of a node that stands nowhere in a text. -/
def nowhere : Location :=
  ⟨0, 0, 0⟩

/-- A line and column without an offset. -/
def lineCol (line col : UInt64) : Location :=
  ⟨line, col, 0⟩

/-- The location as it is shown to a reader. -/
def display (loc : Location) : String :=
  loc.line.toNat.repr ++ ":" ++ loc.col.toNat.repr

/-- The location some lines further down.  The line number stops at the largest word, and the offset
is forgotten. -/
def shiftLines (loc : Location) (lines : UInt64) : Location :=
  .lineCol (UInt64.ofNat (min (loc.line.toNat + lines.toNat) (UInt64.size - 1))) loc.col

/-- The location itself, or `fallback` if it has no line. -/
def orElse (loc fallback : Location) : Location :=
  if loc.line = 0 then fallback else loc

end Location

/-- A range of byte offsets, the end not included. -/
structure Span where
  start : UInt64
  stop : UInt64
deriving DecidableEq, Repr, Inhabited

end LuaTyping
