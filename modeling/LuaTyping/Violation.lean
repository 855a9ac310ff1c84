import LuaTyping.Source.Location
import LuaTyping.Source.Operator
import LuaTyping.Ty.Display

/-!
# Violations

A `Violation` is one way in which a program breaks the rules, with the data that its message shows.
Each has one message, one kind, and for repeated declarations the place of the earlier one.
-/

namespace LuaTyping

/-- The kinds of diagnostics. -/
inductive DiagnosticKind where
  | undeclaredName
  | undeclaredType
  | duplicateDeclaration
  | missingType
  | invalidInitializer
  | invalidOperand
  | invalidCast
  | arityMismatch
  | typeMismatch
  | notCallable
  | moduleShape
  | builtinImmutable
  | bareLibrary
  | controlFlow
deriving DecidableEq, Repr

/-- Where a value was expected to have a given type.  Arguments and return values count from one. -/
inductive Site where
  | declaration (name : String)
  | assignment
  | argument (position : Nat)
  | returnValue (position : Nat)
  | arrayIndex
  | arrayIndexing
  | arrayInitializer
  | initializerField (name : String)
  | condition (keyword : String)
  | forStart
  | forLimit
  | forStep
  | forInState
  | forInControl
  | loopVariable (name : String)
  | ipairsArgument
deriving DecidableEq, Repr

/-- The place as messages name it. -/
def Site.display : Site → String
  | .declaration name => "declaration of '" ++ name ++ "'"
  | .assignment => "assignment"
  | .argument position => "argument " ++ position.repr
  | .returnValue position => "return value " ++ position.repr
  | .arrayIndex => "array index"
  | .arrayIndexing => "array indexing"
  | .arrayInitializer => "array initializer"
  | .initializerField name => "field '" ++ name ++ "' of initializer"
  | .condition keyword => keyword ++ " condition"
  | .forStart => "numeric for-loop initializer"
  | .forLimit => "numeric for-loop limit"
  | .forStep => "numeric for-loop step"
  | .forInState => "for-in loop state"
  | .forInControl => "for-in loop control"
  | .loopVariable name => "loop variable '" ++ name ++ "'"
  | .ipairsArgument => "ipairs argument"

/-- An operand of a binary operator. -/
inductive Side where
  | left
  | right
deriving DecidableEq, Repr

/-- The side as messages name it. -/
def Side.display : Side → String
  | .left => "left"
  | .right => "right"

/-- A way to break the rules. -/
inductive Violation where
  | undeclaredName (name : String)
  | undeclaredType (name : String)
  | duplicateToplevel (name : String) (previous : Location)
  | duplicateType (name : String) (previous : Location)
  | duplicateRecordField (record field : String)
  | duplicateTableTypeField (field : String)
  | duplicateModuleField (field : String) (previous : Location)
  | missingTypeHint
  | missingVarType (name : String)
  | missingParamType (name : String)
  | namedFieldInArray (name : String)
  | positionalFieldInTable (ty : Ty)
  | duplicateInitField (field : String)
  | unknownInitField (field : String) (ty : Ty)
  | missingInitField (field : String) (ty : Ty)
  | notAnInitializerType (ty : Ty)
  | nonEmptyModuleInit
  | typeMismatch (expected found : Ty) (site : Site)
  | callArity (expected found : Nat)
  | returnArity (expected found : Nat)
  | assignArity (expected found : Nat)
  | loopVarCount (expected found : Nat)
  | voidValue
  | notCallable (ty : Ty)
  | notAnArray (ty : Ty) (site : Site)
  | noMembers (ty : Ty)
  | unknownField (field : String) (ty : Ty)
  | unknownModuleField (field : String)
  | unaryOperand (op : UnaryOp) (ty : Ty)
  | binaryOperand (side : Side) (op : BinaryOp) (ty : Ty)
  | comparison (op : BinaryOp) (left right : Ty)
  | invalidCast (source target : Ty)
  | controlVariableType (name : String) (ty : Ty)
  | notAnIterator (ty : Ty)
  | iteratorArity (found : Nat)
  | missingLoopState
  | missingLoopControl
  | tooManyLoopValues (found : Nat)
  | moduleFieldType (field : String) (ty : Ty)
  | notModuleVariable (name : String)
  | assignToModule (name : String)
  | misplacedModuleType
  | emptyProgram
  | noModuleVariable
  | multipleModuleVariables (previous : Location)
  | missingModuleReturn
  | moduleReturnArity (found : Nat)
  | moduleReturnType (ty : Ty)
  | returnNotLast
  | assignToBuiltin (name : String)
  | assignToLibraryField (library field : String)
  | bareLibrary (name : String)
  | unknownLibraryMember (library member : String)
  | invalidAssignTarget
  | breakOutsideLoop
  | missingReturn

namespace Violation

/-- A name or field between the quotation marks of a message. -/
def quoted (name : String) : String :=
  "'" ++ name ++ "'"

/-- The reference to an earlier declaration at the end of a message. -/
def previousLine (previous : Location) : String :=
  ", previous one at line " ++ previous.line.toNat.repr

/-- The message, without the place. -/
def message : Violation → String
  | .undeclaredName name => "variable " ++ quoted name ++ " is not declared"
  | .undeclaredType name => "type " ++ quoted name ++ " is not declared"
  | .duplicateToplevel name previous =>
    "duplicate toplevel declaration for " ++ quoted name ++ previousLine previous
  | .duplicateType name previous => "duplicate type name " ++ quoted name ++ previousLine previous
  | .duplicateRecordField record field =>
    "duplicate field " ++ quoted field ++ " in record " ++ quoted record
  | .duplicateTableTypeField field => "duplicate field " ++ quoted field ++ " in table type"
  | .duplicateModuleField field previous =>
    "duplicate module field " ++ quoted field ++ previousLine previous
  | .missingTypeHint => "missing type hint for array or table initializer"
  | .missingVarType name => "missing type annotation for variable " ++ quoted name
  | .missingParamType name => "missing type annotation for parameter " ++ quoted name
  | .namedFieldInArray name => "named field " ++ quoted name ++ " in array initializer"
  | .positionalFieldInTable ty => "positional field in initializer for " ++ ty.display
  | .duplicateInitField field => "duplicate field " ++ quoted field ++ " in table initializer"
  | .unknownInitField field ty =>
    "invalid field " ++ quoted field ++ " in initializer for " ++ ty.display
  | .missingInitField field ty =>
    "required field " ++ quoted field ++ " is missing in initializer for " ++ ty.display
  | .notAnInitializerType ty =>
    "type hint for initializer is not an array, table or record type: " ++ ty.display
  | .nonEmptyModuleInit => "the module variable must be initialized with an empty table"
  | .typeMismatch expected found site =>
    "expected " ++ expected.display ++ " but found " ++ found.display ++ " in " ++ site.display
  | .callArity expected found =>
    "function expects " ++ expected.repr ++ " argument(s) but received " ++ found.repr
  | .returnArity expected found =>
    "returning " ++ found.repr ++ " value(s) but function expects " ++ expected.repr
  | .assignArity expected found =>
    "left-hand side expects " ++ expected.repr ++ " value(s) but right-hand side produces "
      ++ found.repr
  | .loopVarCount expected found =>
    "expected " ++ expected.repr ++ " variable(s) in for loop but found " ++ found.repr
  | .voidValue => "void function call used where a value is expected"
  | .notCallable ty => "attempting to call a " ++ ty.display ++ " value"
  | .notAnArray ty site =>
    "expected array but found " ++ ty.display ++ " in " ++ site.display
  | .noMembers ty => "trying to access a member of value of type " ++ quoted ty.display
  | .unknownField field ty =>
    "field " ++ quoted field ++ " not found in type " ++ quoted ty.display
  | .unknownModuleField field => "module field " ++ quoted field ++ " does not exist"
  | .unaryOperand op ty =>
    "operand of " ++ quoted op.symbol ++ " operator has type " ++ ty.display
  | .binaryOperand side op ty =>
    side.display ++ " hand side of " ++ quoted op.symbol ++ " operator has type " ++ ty.display
  | .comparison op left right =>
    "cannot compare " ++ left.display ++ " and " ++ right.display ++ " using " ++ quoted op.symbol
  | .invalidCast source target =>
    "cannot cast " ++ quoted source.display ++ " to " ++ quoted target.display
  | .controlVariableType name ty =>
    "expected integer or float but found " ++ ty.display ++ " in for-loop control variable "
      ++ quoted name
  | .notAnIterator ty =>
    "expected an iterator function but found " ++ ty.display ++ " in for-in loop"
  | .iteratorArity found =>
    "the for-in iterator must take 2 arguments but takes " ++ found.repr
  | .missingLoopState => "missing state value in for-in loop"
  | .missingLoopControl => "missing control value in for-in loop"
  | .tooManyLoopValues found =>
    "too many values in for-in loop: expected 3 but found " ++ found.repr
  | .moduleFieldType field ty =>
    "module field " ++ quoted field ++ " cannot have type " ++ ty.display
  | .notModuleVariable name => quoted name ++ " is not the module variable"
  | .assignToModule name => "cannot assign to module variable " ++ quoted name
  | .misplacedModuleType => "module type is only allowed on a toplevel variable"
  | .emptyProgram => "empty program: expected a module variable and a final return statement"
  | .noModuleVariable => "program has no module variable"
  | .multipleModuleVariables previous =>
    "there can only be one module variable per program" ++ previousLine previous
  | .missingModuleReturn => "the program must end by returning the module variable"
  | .moduleReturnArity found =>
    "the module return statement must return exactly one value, found " ++ found.repr
  | .moduleReturnType ty =>
    "the module return statement must return the module variable, found " ++ ty.display
  | .returnNotLast => "return statement must be the last statement of the program"
  | .assignToBuiltin name => "cannot assign to builtin " ++ quoted name
  | .assignToLibraryField library field =>
    "cannot assign to builtin library field " ++ quoted (library ++ "." ++ field)
  | .bareLibrary name => "library " ++ quoted name ++ " can only be used through member access"
  | .unknownLibraryMember library member =>
    quoted member ++ " is not a member of library " ++ quoted library
  | .invalidAssignTarget => "invalid assignment target"
  | .breakOutsideLoop => "break statement outside of a loop"
  | .missingReturn => "control reaches end of function with non-empty return type"

/-- The kind under which the violation is reported. -/
def kind : Violation → DiagnosticKind
  | .undeclaredName .. | .unknownLibraryMember .. => .undeclaredName
  | .undeclaredType .. => .undeclaredType
  | .duplicateToplevel .. | .duplicateType .. | .duplicateRecordField ..
  | .duplicateTableTypeField .. | .duplicateModuleField .. => .duplicateDeclaration
  | .missingVarType .. | .missingParamType .. => .missingType
  | .missingTypeHint | .namedFieldInArray .. | .positionalFieldInTable ..
  | .duplicateInitField .. | .unknownInitField .. | .missingInitField ..
  | .notAnInitializerType .. | .nonEmptyModuleInit => .invalidInitializer
  | .unaryOperand .. | .binaryOperand .. | .comparison .. | .notAnArray .. | .noMembers ..
  | .unknownField .. | .invalidAssignTarget => .invalidOperand
  | .invalidCast .. => .invalidCast
  | .callArity .. | .returnArity .. | .assignArity .. | .loopVarCount .. | .voidValue
  | .iteratorArity .. | .missingLoopState | .missingLoopControl
  | .tooManyLoopValues .. => .arityMismatch
  | .typeMismatch .. | .controlVariableType .. | .notAnIterator .. => .typeMismatch
  | .notCallable .. => .notCallable
  | .unknownModuleField .. | .moduleFieldType .. | .notModuleVariable .. | .assignToModule ..
  | .misplacedModuleType | .emptyProgram | .noModuleVariable | .multipleModuleVariables ..
  | .missingModuleReturn | .moduleReturnArity .. | .moduleReturnType ..
  | .returnNotLast => .moduleShape
  | .assignToBuiltin .. | .assignToLibraryField .. => .builtinImmutable
  | .bareLibrary .. => .bareLibrary
  | .breakOutsideLoop | .missingReturn => .controlFlow

/-- The earlier declaration that the violation refers to. -/
def related : Violation → Option Location
  | .duplicateToplevel _ previous
  | .duplicateType _ previous
  | .duplicateModuleField _ previous
  | .multipleModuleVariables previous => some previous
  | _ => none

end Violation

end LuaTyping
