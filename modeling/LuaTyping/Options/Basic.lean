/-!
# Options of the checker
-/

namespace LuaTyping

/-- What a caller can choose: the file name shown in diagnostics, and whether module fields may be
scalars in addition to functions. -/
structure Options where
  filename : String
  scalarFields : Bool
deriving DecidableEq, Repr

namespace Options

/-- The options of a caller that chooses nothing. -/
def standard : Options where
  filename := "<input>"
  scalarFields := true

end Options

end LuaTyping
