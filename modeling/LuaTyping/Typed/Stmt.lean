import LuaTyping.Typed.Expr

/-!
# Typed statements

Statements over typed expressions.  An `elseif` has become a `branch` in the block of the `else`,
and a numeric loop has its step written out.
-/

namespace LuaTyping.Typed

/-- A declared name with its type.  `implicitCast` says that the value bound to it passes a boundary
of `any` and is converted when the program runs. -/
structure Decl where
  name : String
  ty : Ty
  loc : Location
  implicitCast : Bool

/-- A declared name whose value needs no conversion. -/
def Decl.plain (name : String) (ty : Ty) (loc : Location) : Decl :=
  ⟨name, ty, loc, false⟩

/-- What can be assigned to. -/
inductive Target where
  | innerVar (name : String) (ty : Ty)
  | toplevel (name : String) (ty : Ty)
  | moduleField (module field : String) (ty : Ty)
  | index (array index : Expr) (ty : Ty)
  | field (object : Expr) (field : String) (ty : Ty)

/-- The type of the values that a target takes. -/
def Target.ty : Target → Ty
  | .innerVar _ ty
  | .toplevel _ ty
  | .moduleField _ _ ty
  | .index _ _ ty
  | .field _ _ ty => ty

/-- What a `for … in` loop goes through: the elements of an array by `ipairs`, or whatever an
iterator function makes of a state and a control value. -/
inductive Iteration where
  | ipairs (array : Expr)
  | generic (values : List Expr)

/-- A typed statement. -/
inductive Stmt where
  | declare (decls : List Decl) (values : List Expr) (loc : Location)
  | assign (targets : List Target) (values : List Expr) (loc : Location)
  | call (call : Expr) (loc : Location)
  | block (body : List Stmt) (loc : Location)
  | whileDo (condition : Expr) (body : List Stmt) (loc : Location)
  | repeatUntil (body : List Stmt) (condition : Expr) (loc : Location)
  | branch (condition : Expr) (thenBlock elseBlock : List Stmt) (loc : Location)
  | numericFor (decl : Decl) (start limit step : Expr) (body : List Stmt) (loc : Location)
  | genericFor (decls : List Decl) (iteration : Iteration) (body : List Stmt) (loc : Location)
  | ret (values : List Expr) (loc : Location)
  | brk (loc : Location)

/-- Typed statements that are executed one after another. -/
abbrev Block := List Stmt

end LuaTyping.Typed
