import LuaTyping.Proofs.Known.Types

/-!
# Where types stand

A typed program says at many places that something has a type: at the nodes of its expressions, at
the results of calls, at declarations and targets, in the signatures of functions and at records.
`places` lists them all, in the order of `types`, so no type is left out (`map_ty_places`).
-/

namespace LuaTyping

namespace Typed

/-- A place at which a typed program says that something has a type. -/
inductive Place where
  | node (expr : Expr)
  | result (ty : Ty)
  | decl (decl : Decl)
  | target (target : Target)
  | signature (ty : Ty)
  | record (ty : Ty)

/-- Whether the place is a toplevel variable that is assigned to. -/
def Place.isToplevelTarget : Place → Bool
  | .target (.toplevel ..) => true
  | _ => false

/-- The type that stands at the place. -/
def Place.ty : Place → Ty
  | .node expr => expr.ty
  | .decl declared => declared.ty
  | .target assigned => assigned.ty
  | .result ty | .signature ty | .record ty => ty

/-! ### The places of a tree -/

mutual

/-- The places in an expression. -/
def Expr.places : Expr → List Place
  | ⟨kind, ty, loc⟩ => .node ⟨kind, ty, loc⟩ :: kind.places

/-- The places below the node of an expression. -/
def ExprKind.places : ExprKind → List Place
  | .arrayInit items => Expr.listPlaces items
  | .tableInit items => Expr.entryPlaces items
  | .index array key => array.places ++ key.places
  | .field object _ => object.places
  | .call callee args returns => callee.places ++ Expr.listPlaces args ++ returns.map .result
  | .unary _ operand => operand.places
  | .binary _ left right => left.places ++ right.places
  | .cast expr _ | .toFloat expr | .paren expr => expr.places
  | .expand call values => call.places ++ Expr.listPlaces values
  | _ => []

/-- The places in the expressions of a list. -/
def Expr.listPlaces : List Expr → List Place
  | [] => []
  | expr :: rest => expr.places ++ Expr.listPlaces rest

/-- The places in the values of named entries. -/
def Expr.entryPlaces : List (String × Expr) → List Place
  | [] => []
  | (_, expr) :: rest => expr.places ++ Expr.entryPlaces rest

end

/-- The places in a target, which is the last of them. -/
def Target.places : Target → List Place
  | .index array key ty => array.places ++ key.places ++ [.target (.index array key ty)]
  | .field object key ty => object.places ++ [.target (.field object key ty)]
  | other => [.target other]

/-- The places in what a loop goes through. -/
def Iteration.places : Iteration → List Place
  | .ipairs array => array.places
  | .generic values => Expr.listPlaces values

mutual

/-- The places in a statement. -/
def Stmt.places : Stmt → List Place
  | .declare decls values _ => decls.map .decl ++ Expr.listPlaces values
  | .assign targets values _ => targets.flatMap Target.places ++ Expr.listPlaces values
  | .call expr _ => expr.places
  | .block body _ => Stmt.listPlaces body
  | .whileDo condition body _ => condition.places ++ Stmt.listPlaces body
  | .repeatUntil body condition _ => Stmt.listPlaces body ++ condition.places
  | .branch condition thenBlock elseBlock _ =>
    condition.places ++ Stmt.listPlaces thenBlock ++ Stmt.listPlaces elseBlock
  | .numericFor decl start limit step body _ =>
    .decl decl :: start.places ++ limit.places ++ step.places ++ Stmt.listPlaces body
  | .genericFor decls iteration body _ =>
    decls.map .decl ++ iteration.places ++ Stmt.listPlaces body
  | .ret values _ => Expr.listPlaces values
  | .brk _ => []

/-- The places in the statements of a block. -/
def Stmt.listPlaces : List Stmt → List Place
  | [] => []
  | stmt :: rest => stmt.places ++ Stmt.listPlaces rest

end

/-- The places in an item. -/
def Item.places : Item → List Place
  | .var decls values _ => decls.map .decl ++ Expr.listPlaces values
  | .function decl => .signature decl.ty :: decl.params.map .decl ++ Stmt.listPlaces decl.body
  | .assign targets values _ => targets.flatMap Target.places ++ Expr.listPlaces values
  | .record _ ty _ => [.record ty]
  | .ret value _ => value.places

/-! ### No type is left out -/

mutual

theorem Expr.map_ty_places : ∀ expr : Expr, expr.places.map Place.ty = expr.types
  | ⟨kind, ty, loc⟩ => by
    rw [Expr.places, Expr.types, List.map_cons, kind.map_ty_places]
    rfl

theorem ExprKind.map_ty_places : ∀ kind : ExprKind, kind.places.map Place.ty = kind.types
  | .arrayInit items => Expr.map_ty_listPlaces items
  | .tableInit items => Expr.map_ty_entryPlaces items
  | .index array key => by
    rw [ExprKind.places, ExprKind.types, List.map_append, array.map_ty_places, key.map_ty_places]
  | .field object _ => object.map_ty_places
  | .call callee args returns => by
    rw [ExprKind.places, ExprKind.types, List.map_append, List.map_append, callee.map_ty_places,
      Expr.map_ty_listPlaces args, List.map_map]
    exact congrArg _ (List.map_id' returns)
  | .unary _ operand => operand.map_ty_places
  | .binary _ left right => by
    rw [ExprKind.places, ExprKind.types, List.map_append, left.map_ty_places, right.map_ty_places]
  | .cast expr _ | .toFloat expr | .paren expr => expr.map_ty_places
  | .expand call values => by
    rw [ExprKind.places, ExprKind.types, List.map_append, call.map_ty_places,
      Expr.map_ty_listPlaces values]
  | .nil | .boolean _ | .integer _ | .float _ | .string _ | .moduleInit | .innerVar _
  | .toplevel _ | .moduleField _ _ | .builtin _ | .libraryField _ _ | .callResult _ => rfl

theorem Expr.map_ty_listPlaces : ∀ exprs : List Expr,
    (Expr.listPlaces exprs).map Place.ty = Expr.listTypes exprs
  | [] => rfl
  | expr :: rest => by
    rw [Expr.listPlaces, Expr.listTypes, List.map_append, expr.map_ty_places,
      Expr.map_ty_listPlaces rest]

theorem Expr.map_ty_entryPlaces : ∀ entries : List (String × Expr),
    (Expr.entryPlaces entries).map Place.ty = Expr.entryTypes entries
  | [] => rfl
  | (_, expr) :: rest => by
    rw [Expr.entryPlaces, Expr.entryTypes, List.map_append, expr.map_ty_places,
      Expr.map_ty_entryPlaces rest]

end

theorem map_ty_decls (decls : List Decl) :
    (decls.map Place.decl).map Place.ty = decls.map (·.ty) := by
  rw [List.map_map]
  rfl

theorem Target.map_ty_places (target : Target) : target.places.map Place.ty = target.types := by
  cases target with
  | index array key ty =>
    simp only [Target.places, Target.types, List.map_append, Expr.map_ty_places]
    rfl
  | field object key ty =>
    simp only [Target.places, Target.types, List.map_append, Expr.map_ty_places]
    rfl
  | innerVar | toplevel | moduleField => rfl

theorem Target.map_ty_flatMap (targets : List Target) :
    (targets.flatMap Target.places).map Place.ty = targets.flatMap Target.types := by
  simp only [List.map_flatMap, Target.map_ty_places]

theorem Iteration.map_ty_places (iteration : Iteration) :
    iteration.places.map Place.ty = iteration.types := by
  cases iteration with
  | ipairs array => exact array.map_ty_places
  | generic values => exact Expr.map_ty_listPlaces values

mutual

theorem Stmt.map_ty_places : ∀ stmt : Stmt, stmt.places.map Place.ty = stmt.types
  | .declare decls values _ => by
    rw [Stmt.places, Stmt.types, List.map_append, map_ty_decls, Expr.map_ty_listPlaces]
  | .assign targets values _ => by
    rw [Stmt.places, Stmt.types, List.map_append, Target.map_ty_flatMap, Expr.map_ty_listPlaces]
  | .call expr _ => expr.map_ty_places
  | .block body _ => Stmt.map_ty_listPlaces body
  | .whileDo condition body _ => by
    rw [Stmt.places, Stmt.types, List.map_append, condition.map_ty_places,
      Stmt.map_ty_listPlaces body]
  | .repeatUntil body condition _ => by
    rw [Stmt.places, Stmt.types, List.map_append, condition.map_ty_places,
      Stmt.map_ty_listPlaces body]
  | .branch condition thenBlock elseBlock _ => by
    rw [Stmt.places, Stmt.types, List.map_append, List.map_append, condition.map_ty_places,
      Stmt.map_ty_listPlaces thenBlock, Stmt.map_ty_listPlaces elseBlock]
  | .numericFor decl start limit step body _ => by
    simp only [Stmt.places, Stmt.types, List.map_append, List.map_cons, Expr.map_ty_places,
      Stmt.map_ty_listPlaces body]
    rfl
  | .genericFor decls iteration body _ => by
    rw [Stmt.places, Stmt.types, List.map_append, List.map_append, map_ty_decls,
      iteration.map_ty_places, Stmt.map_ty_listPlaces body]
  | .ret values _ => Expr.map_ty_listPlaces values
  | .brk _ => rfl

theorem Stmt.map_ty_listPlaces : ∀ stmts : List Stmt,
    (Stmt.listPlaces stmts).map Place.ty = Stmt.listTypes stmts
  | [] => rfl
  | stmt :: rest => by
    rw [Stmt.listPlaces, Stmt.listTypes, List.map_append, stmt.map_ty_places,
      Stmt.map_ty_listPlaces rest]

end

theorem Item.map_ty_places (item : Item) : item.places.map Place.ty = item.types := by
  cases item with
  | var decls values loc =>
    rw [Item.places, Item.types, List.map_append, map_ty_decls, Expr.map_ty_listPlaces]
  | function decl =>
    rw [Item.places, Item.types, List.map_append, List.map_cons, map_ty_decls,
      Stmt.map_ty_listPlaces]
    rfl
  | assign targets values loc =>
    rw [Item.places, Item.types, List.map_append, Target.map_ty_flatMap, Expr.map_ty_listPlaces]
  | record name ty loc => rfl
  | ret value loc => exact value.map_ty_places

/-- **Every type of a program stands at one of its places.** -/
theorem Program.map_ty_places (program : Program) :
    (program.items.flatMap Item.places).map Place.ty = program.types := by
  simp only [List.map_flatMap, Item.map_ty_places]
  rfl

end Typed

end LuaTyping
