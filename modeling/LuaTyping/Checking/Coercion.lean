import LuaTyping.Report
import LuaTyping.Ty.Equality
import LuaTyping.Typed.Expr

/-!
# Coercion

A value goes where its type is compatible with the expected one.  Where one of the two is `any`, it
goes through an implicit cast, and anything else is a mismatch.  A call can stand for any number of
values: `single` insists on one, and `spread` takes them all, each coerced for its own place.

`Demand` is what the surroundings of an expression ask of it, and `Demand.settle` holds a typed
expression against a demand.
-/

namespace LuaTyping

/-- A type that is expected at a place. -/
structure Want where
  ty : Ty
  site : Site

/-- What is wanted `j` places after `position`, where `expected` begins. -/
def Want.at? (expected : List (Option Ty)) (site : Nat → Site) (position j : Nat) : Option Want :=
  expected[j]?.join.map fun ty => ⟨ty, site (position + j)⟩

namespace Typed.Expr

/-- The expression as one value; a call without results has none. -/
def single (expr : Expr) : Report Expr :=
  match expr.kind with
  | .call _ _ [] => do
    Report.fault .voidValue expr.loc
    pure { expr with ty := .unknown }
  | _ => pure expr

/-- The expression as a value of the wanted type. -/
def coerce (expr : Expr) (want : Want) : Report Expr :=
  if expr.ty.compatible want.ty then
    pure expr
  else if expr.ty.isAny || want.ty.isAny then
    pure ⟨.cast expr true, want.ty, expr.loc⟩
  else do
    Report.fault (.typeMismatch want.ty expr.ty want.site) expr.loc
    pure expr

/-- The expression as a value of the wanted type, if one is wanted. -/
def coerce? (expr : Expr) : Option Want → Report Expr
  | some want => expr.coerce want
  | none => pure expr

/-- The results of a call from the given position on, each as the value wanted there. -/
def results (loc : Location) (want : Nat → Option Want) : Nat → List Ty → Report (List Expr)
  | _, [] => pure []
  | position, ty :: rest => do
    let value ← coerce? ⟨.callResult position, ty, loc⟩ (want position)
    let values ← results loc want (position + 1) rest
    pure (value :: values)

/-- A call spread over consecutive places; `want` gives what is wanted of each result. -/
def spread (call : Expr) (want : Nat → Option Want) : Report Expr := do
  let values ← results call.loc want 0 call.valueTypes
  pure ⟨.expand call values, (values.map (·.ty)).headD .nil, call.loc⟩

end Typed.Expr

/-- What the surroundings ask of an expression: all its results, one value, or one value of a
type. -/
inductive Demand where
  | results
  | value
  | ofType (want : Want)

namespace Demand

/-- One value, of a type if one is wanted. -/
def ofWant : Option Want → Demand
  | some want => .ofType want
  | none => .value

/-- The expression in the form that is asked for. -/
def settle : Demand → Typed.Expr → Report Typed.Expr
  | .results, expr => pure expr
  | .value, expr => expr.single
  | .ofType want, expr => do
    let expr ← expr.single
    expr.coerce want

end Demand

/-- The values of a list of expressions.  `types` has one type for each value, and `uncertain` says
that their number means nothing because a fault has been found in the call that produces them. -/
structure Values where
  exprs : List Typed.Expr
  types : List Ty
  uncertain : Bool

namespace Values

/-- No values. -/
def empty : Values :=
  ⟨[], [], false⟩

/-- One more value in front. -/
def cons (expr : Typed.Expr) (values : Values) : Values :=
  ⟨expr :: values.exprs, expr.ty :: values.types, values.uncertain⟩

/-- Whether the number of values can be compared with `count` and is equal to it. -/
def fits (values : Values) (count : Nat) : Bool :=
  values.uncertain || values.types.length == count

/-- The values of a call at the end of a list, from `position` on.  A call without results is a
fault where it is the whole list and something is expected of it. -/
def ofCall (call : Typed.Expr) (expected : List (Option Ty)) (site : Nat → Site) (position : Nat) :
    Report Values :=
  match call.valueTypes with
  | [] =>
    if position == 0 && !expected.isEmpty then do
      Report.fault .voidValue call.loc
      pure ⟨[call], [], true⟩
    else
      pure ⟨[call], [], false⟩
  | [_] => do
    let value ← call.coerce? (Want.at? expected site position 0)
    pure ⟨[value], [value.ty], value.ty.isUnknown⟩
  | types => do
    let value ← call.spread (Want.at? expected site position)
    pure ⟨[value], value.valueTypes, types.any Ty.isUnknown⟩

end Values

end LuaTyping
