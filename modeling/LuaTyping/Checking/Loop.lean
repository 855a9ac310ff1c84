import LuaTyping.Checking.Assignment

/-!
# Loop headers

A numeric loop has a control variable of a number type, and its start, limit and step have that type
too.  A `for … in` loop either goes through an array with `ipairs`, or calls an iterator function on
a state and a control value, the three of which are the values of the expressions after `in`.
-/

namespace LuaTyping

/-! ### Numeric loops -/

/-- The header of a numeric loop. -/
structure NumericHeader where
  decl : Typed.Decl
  start : Typed.Expr
  limit : Typed.Expr
  step : Typed.Expr

/-- The type of a control variable, which has to be a number type. -/
def Ty.control (ty : Ty) (name : String) (loc : Location) : Report Ty :=
  if ty.isNumeric || ty.isUnknown then
    pure ty
  else do
    Report.fault (.controlVariableType name ty) loc
    pure .unknown

/-- The step that a numeric loop takes when it states none: one, of the type of its variable. -/
def Typed.Expr.one (ty : Ty) (loc : Location) : Typed.Expr :=
  if ty.isFloat then ⟨.float 1, ty, loc⟩ else ⟨.integer 1, ty, loc⟩

namespace Context

/-- The start of a numeric loop and the type of its control variable. -/
def numericStart (Γ : Context) (decl : Source.Decl) (start : Source.Expr) :
    Report (Typed.Expr × Ty) := do
  match ← decl.stated Γ with
  | some ty =>
    let start ← start.check Γ (.ofType ⟨ty, .forStart⟩)
    pure (start, ty)
  | none =>
    let start ← start.check Γ .value
    pure (start, start.ty)

/-- The step of a numeric loop. -/
def numericStep (Γ : Context) (ty : Ty) (step : Option Source.Expr) (loc : Location) :
    Report Typed.Expr :=
  match step with
  | some step => step.check Γ (.ofType ⟨ty, .forStep⟩)
  | none => pure (.one ty loc)

/-- Types the header of a numeric loop. -/
def numericHeader (Γ : Context) (decl : Source.Decl) (start limit : Source.Expr)
    (step : Option Source.Expr) (loc : Location) : Report NumericHeader := do
  let (start, ty) ← Γ.numericStart decl start
  let ty ← ty.control decl.name decl.loc
  let limit ← limit.check Γ (.ofType ⟨ty, .forLimit⟩)
  let step ← Γ.numericStep ty step loc
  pure ⟨.plain decl.name ty decl.loc, start, limit, step⟩

end Context

/-! ### Iteration over an array -/

/-- What a loop goes through, with the types that it produces in each round where they are known. -/
structure Iterated where
  iteration : Typed.Iteration
  produced : Option (List Ty)

/-- The types that `ipairs` produces for an array. -/
def Typed.Expr.ipairsTypes (array : Typed.Expr) : Report (Option (List Ty)) :=
  match array.ty with
  | .array elem => pure (some [.integer, elem])
  | .unknown => pure none
  | ty => do
    Report.fault (.notAnArray ty .ipairsArgument) array.loc
    pure none

namespace Context

/-- The arguments and the location of a call of `ipairs`, if that is the only expression and the
name still stands for the builtin. -/
def ipairsCall? (Γ : Context) : List Source.Expr → Option (List Source.Expr × Location)
  | [.call (.name name _) args loc] =>
    match Γ.scopes.lookup name with
    | some (.builtin _) => if name = Builtins.ipairs then some (args, loc) else none
    | _ => none
  | _ => none

/-- Types a call of `ipairs` as the source of a loop. -/
def ipairsLoop (Γ : Context) (args : List Source.Expr) (loc : Location) : Report Iterated := do
  let args ← args.mapM fun arg => arg.check Γ .value
  Report.require (args.length == 1) (.callArity 1 args.length) loc
  match args with
  | [] => pure ⟨.generic [], none⟩
  | array :: _ =>
    let types ← array.ipairsTypes
    pure ⟨.ipairs array, types⟩

end Context

/-! ### Iteration with an iterator function -/

namespace LoopValues

/-- Whether the number of values is in doubt because a result of the call at the end is unknown. -/
def uncertain : List Typed.Expr → Bool
  | [] => false
  | [last] => last.isCall && last.valueTypes.any Ty.isUnknown
  | _ :: rest => uncertain rest

/-- Reports a number of loop values other than three. -/
def requireThree (count : Nat) (loc : Location) : Report Unit :=
  match count with
  | 0 | 1 => Report.fault .missingLoopState loc
  | 2 => Report.fault .missingLoopControl loc
  | 3 => pure ()
  | found => Report.fault (.tooManyLoopValues found) loc

/-- What an iterator function with these parameters wants of the loop value at a position. -/
def want (state control : Ty) : Nat → Option Want
  | 1 => some ⟨state, .forInState⟩
  | 2 => some ⟨control, .forInControl⟩
  | _ => none

/-- Coerces the loop values from a position on, spreading a call with several results at the end. -/
def coerce (want : Nat → Option Want) : Nat → List Typed.Expr → Report (List Typed.Expr)
  | _, [] => pure []
  | position, [last] =>
    match last.valueTypes with
    | [] => pure [last]
    | [_] => do
      let value ← last.coerce? (want position)
      pure [value]
    | _ => do
      let value ← last.spread fun j => want (position + j)
      pure [value]
  | position, expr :: rest => do
    let value ← expr.coerce? (want position)
    let values ← coerce want (position + 1) rest
    pure (value :: values)

end LoopValues

namespace Context

/-- Types the expressions after `in`; a call at the end keeps all its results. -/
def loopValues (Γ : Context) : List Source.Expr → Report (List Typed.Expr)
  | [] => pure []
  | expr :: rest => do
    let value ← expr.check Γ (if rest.isEmpty && expr.isCall then .results else .value)
    let values ← loopValues Γ rest
    pure (value :: values)

/-- Types the expressions after `in` as an iterator function with a state and a control value. -/
def iteratorLoop (Γ : Context) (exprs : List Source.Expr) (loc : Location) : Report Iterated := do
  let values ← Γ.loopValues exprs
  let types := Typed.flatTypes values
  match types.headD .nil with
  | .function [state, control] returns =>
    if LoopValues.uncertain values then pure () else LoopValues.requireThree types.length loc
    let values ← LoopValues.coerce (LoopValues.want state control) 0 values
    pure ⟨.generic values, some returns⟩
  | .function params returns =>
    Report.fault (.iteratorArity params.length) loc
    pure ⟨.generic values, some returns⟩
  | .unknown => pure ⟨.generic values, none⟩
  | ty =>
    Report.fault (.notAnIterator ty) loc
    pure ⟨.generic values, none⟩

/-- Types the expressions after `in`. -/
def iterate (Γ : Context) (exprs : List Source.Expr) (loc : Location) : Report Iterated :=
  match Γ.ipairsCall? exprs with
  | some (args, loc) => Γ.ipairsLoop args loc
  | none => Γ.iteratorLoop exprs loc

/-! ### Loop variables -/

/-- A loop variable for a value of type `found`.  A stated type has to be compatible with it, up to
a conversion to or from `any`. -/
def loopVar (Γ : Context) (decl : Source.Decl) (found : Ty) : Report Typed.Decl := do
  match ← decl.stated Γ with
  | none => pure (.plain decl.name found decl.loc)
  | some ty =>
    if found.compatible ty then
      pure (.plain decl.name ty decl.loc)
    else if found.isAny || ty.isAny then
      pure ⟨decl.name, ty, decl.loc, true⟩
    else
      Report.fault (.typeMismatch ty found (.loopVariable decl.name)) decl.loc
      pure (.plain decl.name ty decl.loc)

/-- Loop variables for values of the given types; a variable too many gets `unknown`. -/
def loopVarList (Γ : Context) : List Source.Decl → List Ty → Report (List Typed.Decl)
  | [], _ => pure []
  | decl :: rest, types => do
    let var ← Γ.loopVar decl (types.headD .unknown)
    let vars ← loopVarList Γ rest types.tail
    pure (var :: vars)

/-- Loop variables for what a loop produces, as many as there are values where that is known. -/
def loopVars (Γ : Context) (decls : List Source.Decl) (produced : Option (List Ty))
    (loc : Location) : Report (List Typed.Decl) :=
  match produced with
  | some types => do
    Report.require (types.length == decls.length) (.loopVarCount types.length decls.length) loc
    Γ.loopVarList decls types
  | none => Γ.loopVarList decls []

end Context

end LuaTyping
