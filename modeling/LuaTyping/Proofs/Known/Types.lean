import LuaTyping.Checking.Context
import LuaTyping.Proofs.Proper.Ty

/-!
# The types in a typed program

All types that are stored in a typed tree, in the order of the tree: the types of its nodes, of its
declarations and targets, and the result types that calls carry.  Contexts and checked modules have
their lists of types as well.
-/

namespace LuaTyping

namespace Typed

mutual

/-- The types in an expression. -/
def Expr.types : Expr → List Ty
  | ⟨kind, ty, _⟩ => ty :: kind.types

/-- The types in an expression, apart from its own. -/
def ExprKind.types : ExprKind → List Ty
  | .arrayInit items => Expr.listTypes items
  | .tableInit items => Expr.entryTypes items
  | .index array key => array.types ++ key.types
  | .field object _ => object.types
  | .call callee args returns => callee.types ++ Expr.listTypes args ++ returns
  | .unary _ operand => operand.types
  | .binary _ left right => left.types ++ right.types
  | .cast expr _ | .toFloat expr | .paren expr => expr.types
  | .expand call values => call.types ++ Expr.listTypes values
  | _ => []

/-- The types in the expressions of a list. -/
def Expr.listTypes : List Expr → List Ty
  | [] => []
  | expr :: rest => expr.types ++ Expr.listTypes rest

/-- The types in the values of named entries. -/
def Expr.entryTypes : List (String × Expr) → List Ty
  | [] => []
  | (_, expr) :: rest => expr.types ++ Expr.entryTypes rest

end

/-- The types in a target. -/
def Target.types : Target → List Ty
  | .innerVar _ ty | .toplevel _ ty | .moduleField _ _ ty => [ty]
  | .index array key ty => array.types ++ key.types ++ [ty]
  | .field object _ ty => object.types ++ [ty]

/-- The types in what a loop goes through. -/
def Iteration.types : Iteration → List Ty
  | .ipairs array => array.types
  | .generic values => Expr.listTypes values

mutual

/-- The types in a statement. -/
def Stmt.types : Stmt → List Ty
  | .declare decls values _ => decls.map (·.ty) ++ Expr.listTypes values
  | .assign targets values _ => targets.flatMap Target.types ++ Expr.listTypes values
  | .call expr _ => expr.types
  | .block body _ => Stmt.listTypes body
  | .whileDo condition body _ => condition.types ++ Stmt.listTypes body
  | .repeatUntil body condition _ => Stmt.listTypes body ++ condition.types
  | .branch condition thenBlock elseBlock _ =>
    condition.types ++ Stmt.listTypes thenBlock ++ Stmt.listTypes elseBlock
  | .numericFor decl start limit step body _ =>
    decl.ty :: start.types ++ limit.types ++ step.types ++ Stmt.listTypes body
  | .genericFor decls iteration body _ =>
    decls.map (·.ty) ++ iteration.types ++ Stmt.listTypes body
  | .ret values _ => Expr.listTypes values
  | .brk _ => []

/-- The types in the statements of a block. -/
def Stmt.listTypes : List Stmt → List Ty
  | [] => []
  | stmt :: rest => stmt.types ++ Stmt.listTypes rest

end

/-- The types in an item. -/
def Item.types : Item → List Ty
  | .var decls values _ => decls.map (·.ty) ++ Expr.listTypes values
  | .function decl => decl.ty :: decl.params.map (·.ty) ++ Stmt.listTypes decl.body
  | .assign targets values _ => targets.flatMap Target.types ++ Expr.listTypes values
  | .record _ ty _ => [ty]
  | .ret value _ => value.types

/-- The types in a program. -/
def Program.types (program : Program) : List Ty :=
  program.items.flatMap Item.types

end Typed

/-- The types that a module exports, those of its toplevel names, and those in its program. -/
def CheckedModule.types (checked : CheckedModule) : List Ty :=
  checked.exports.map Prod.snd ++ checked.toplevel.map Prod.snd ++ checked.program.types

/-- The types of the builtins and variables in scope, of the type names and the module fields, and
those that the current function returns. -/
def Context.types (Γ : Context) : List Ty :=
  Γ.scopes.builtins.types ++ Γ.scopes.inner.flatMap (·.map (·.2.ty)) ++
    Γ.scopes.toplevel.map (·.2.ty) ++ Γ.scopes.types.map (·.2.ty) ++
      Γ.module.fields.map (·.2.ty) ++ Γ.returns

/-- Whether `unknown` occurs in none of the types. -/
def Known (tys : List Ty) : Prop :=
  ∀ ty ∈ tys, ty.proper true = true

namespace Known

variable {ty : Ty} {tys tys' : List Ty}

@[simp]
theorem nil_iff : Known [] ↔ True := by simp [Known]

@[simp]
theorem cons_iff : Known (ty :: tys) ↔ ty.proper true = true ∧ Known tys := by simp [Known]

@[simp]
theorem append_iff : Known (tys ++ tys') ↔ Known tys ∧ Known tys' := by
  simp only [Known, List.mem_append, or_imp, forall_and]

@[simp]
theorem map_iff {α : Type} {f : α → Ty} {as : List α} :
    Known (as.map f) ↔ ∀ a ∈ as, (f a).proper true = true := by
  simp [Known]

@[simp]
theorem flatMap_iff {α : Type} {f : α → List Ty} {as : List α} :
    Known (as.flatMap f) ↔ ∀ a ∈ as, Known (f a) := by
  simp only [Known, List.mem_flatMap]
  exact ⟨fun h a ha ty hty => h ty ⟨a, ha, hty⟩, fun h ty ⟨a, ha, hty⟩ => h a ha ty hty⟩

end Known

end LuaTyping
