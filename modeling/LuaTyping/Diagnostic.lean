import LuaTyping.Json.Writer
import LuaTyping.Violation

/-!
# Diagnostics

A diagnostic is what a user sees of a violation: its kind with a stable code, the message, the place
and the file.  It has a one-line text and a JSON form for tools.
-/

namespace LuaTyping

namespace DiagnosticKind

/-- The name of the kind in JSON. -/
def name : DiagnosticKind → String
  | .undeclaredName => "UndeclaredName"
  | .undeclaredType => "UndeclaredType"
  | .duplicateDeclaration => "DuplicateDeclaration"
  | .missingType => "MissingAnnotation"
  | .invalidInitializer => "InvalidInitializer"
  | .invalidOperand => "InvalidOperand"
  | .invalidCast => "InvalidCast"
  | .arityMismatch => "ArityMismatch"
  | .typeMismatch => "TypeMismatch"
  | .notCallable => "NotCallable"
  | .moduleShape => "ModuleShape"
  | .builtinImmutable => "BuiltinImmutable"
  | .bareLibrary => "BareLibrary"
  | .controlFlow => "ControlFlow"

/-- A readable tag. -/
def tag : DiagnosticKind → String
  | .undeclaredName => "undeclared-name"
  | .undeclaredType => "undeclared-type"
  | .duplicateDeclaration => "duplicate-declaration"
  | .missingType => "missing-annotation"
  | .invalidInitializer => "invalid-initializer"
  | .invalidOperand => "invalid-operand"
  | .invalidCast => "invalid-cast"
  | .arityMismatch => "arity-mismatch"
  | .typeMismatch => "type-mismatch"
  | .notCallable => "not-callable"
  | .moduleShape => "module-shape"
  | .builtinImmutable => "builtin-immutable"
  | .bareLibrary => "bare-library"
  | .controlFlow => "control-flow"

/-- The code, which stays the same when wordings change. -/
def code : DiagnosticKind → String
  | .undeclaredName => "E0001"
  | .undeclaredType => "E0002"
  | .duplicateDeclaration => "E0003"
  | .missingType => "E0004"
  | .invalidInitializer => "E0005"
  | .invalidOperand => "E0006"
  | .invalidCast => "E0007"
  | .arityMismatch => "E0008"
  | .typeMismatch => "E0009"
  | .notCallable => "E0010"
  | .moduleShape => "E0011"
  | .builtinImmutable => "E0012"
  | .bareLibrary => "E0013"
  | .controlFlow => "E0014"

/-- All kinds, in the order of their codes. -/
def all : List DiagnosticKind :=
  [.undeclaredName, .undeclaredType, .duplicateDeclaration, .missingType,
    .invalidInitializer, .invalidOperand, .invalidCast, .arityMismatch, .typeMismatch, .notCallable,
    .moduleShape, .builtinImmutable, .bareLibrary, .controlFlow]

/-- The kind with the given name. -/
def ofName? (text : String) : Option DiagnosticKind :=
  all.find? fun kind => kind.name == text

end DiagnosticKind

/-- A message for a place in a file. -/
structure Diagnostic where
  kind : DiagnosticKind
  message : String
  location : Location
  filename : String
  related : Option Location

/-- A location as a JSON object. -/
def Location.toJson (loc : Location) : Json :=
  .object [("line", .ofUInt64 loc.line), ("col", .ofUInt64 loc.col),
    ("offset", .ofUInt64 loc.offset)]

namespace Diagnostic

/-- The code of its kind. -/
def code (diagnostic : Diagnostic) : String :=
  diagnostic.kind.code

/-- The diagnostic in one line. -/
def display (diagnostic : Diagnostic) : String :=
  diagnostic.filename ++ ":" ++ diagnostic.location.display
    ++ ": error[" ++ diagnostic.code ++ "]: " ++ diagnostic.message

/-- The fields of the JSON form; the related location only where there is one. -/
def fields (diagnostic : Diagnostic) : List (String × Json) :=
  [("kind", .string diagnostic.kind.name), ("message", .string diagnostic.message),
    ("location", diagnostic.location.toJson), ("filename", .string diagnostic.filename)]
    ++ (diagnostic.related.map fun loc => ("related", loc.toJson)).toList

/-- The JSON form. -/
def toJson (diagnostic : Diagnostic) : Json :=
  .object diagnostic.fields

end Diagnostic

end LuaTyping
