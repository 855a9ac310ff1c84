import LuaTyping.Source.Program
import LuaTyping.Typed.Program

/-!
# Revised programs

A revision changes two things in a program: it puts a type expression in the place of each type name,
and it moves every location.  The tree keeps its form otherwise (`Item.revise`).  Relocation, which
moves the locations and keeps all names, and the unfolding of type aliases, which keeps the locations,
are revisions.

A typed tree has types in place of annotations, so that only its locations can be moved
(`Typed.Item.relocate`).
-/

namespace LuaTyping

/-- What a revision makes of a type name that stands at a location, and of a location. -/
structure Revision where
  name : String → Location → TypeExpr
  loc : Location → Location

/-! ### Source trees -/

namespace TypeExpr

mutual

/-- The revised type expression. -/
def revise (r : Revision) : TypeExpr → TypeExpr
  | .nil => .nil
  | .boolean => .boolean
  | .integer => .integer
  | .float => .float
  | .string => .string
  | .any => .any
  | .module => .module
  | .name text loc => r.name text loc
  | .array elem loc => .array (revise r elem) (r.loc loc)
  | .table fields loc => .table (reviseFields r fields) (r.loc loc)
  | .function params returns loc =>
    .function (reviseList r params) (reviseList r returns) (r.loc loc)

/-- The revised type expressions of a list. -/
def reviseList (r : Revision) : List TypeExpr → List TypeExpr
  | [] => []
  | type :: rest => revise r type :: reviseList r rest

/-- The revised fields of a table type. -/
def reviseFields (r : Revision) : List TypeField → List TypeField
  | [] => []
  | ⟨key, type, loc⟩ :: rest => ⟨key, revise r type, r.loc loc⟩ :: reviseFields r rest

end

end TypeExpr

namespace Source

namespace Expr

mutual

/-- The revised expression. -/
def revise (r : Revision) : Expr → Expr
  | .nil loc => .nil (r.loc loc)
  | .boolean value loc => .boolean value (r.loc loc)
  | .integer value loc => .integer value (r.loc loc)
  | .float value loc => .float value (r.loc loc)
  | .string value loc => .string value (r.loc loc)
  | .init entries loc => .init (reviseEntries r entries) (r.loc loc)
  | .name text loc => .name text (r.loc loc)
  | .index object key loc => .index (revise r object) (revise r key) (r.loc loc)
  | .field object key loc => .field (revise r object) key (r.loc loc)
  | .call callee args loc => .call (revise r callee) (reviseList r args) (r.loc loc)
  | .unary op operand loc => .unary op (revise r operand) (r.loc loc)
  | .binary left op right loc => .binary (revise r left) op (revise r right) (r.loc loc)
  | .cast expr target loc => .cast (revise r expr) (target.revise r) (r.loc loc)
  | .paren expr loc => .paren (revise r expr) (r.loc loc)

/-- The revised expressions of a list. -/
def reviseList (r : Revision) : List Expr → List Expr
  | [] => []
  | expr :: rest => revise r expr :: reviseList r rest

/-- The revised entries of a table constructor. -/
def reviseEntries (r : Revision) : List Entry → List Entry
  | [] => []
  | .positional value :: rest => .positional (revise r value) :: reviseEntries r rest
  | .named key value loc :: rest => .named key (revise r value) (r.loc loc) :: reviseEntries r rest

end

end Expr

/-- The revised declaration of a name. -/
def Decl.revise (r : Revision) (decl : Decl) : Decl :=
  ⟨decl.name, decl.type.map (TypeExpr.revise r), r.loc decl.loc⟩

namespace Stmt

mutual

/-- The revised statement. -/
def revise (r : Revision) : Stmt → Stmt
  | .declare decls values loc =>
    .declare (decls.map (Decl.revise r)) (Expr.reviseList r values) (r.loc loc)
  | .assign targets values loc =>
    .assign (Expr.reviseList r targets) (Expr.reviseList r values) (r.loc loc)
  | .call expr loc => .call (expr.revise r) (r.loc loc)
  | .block body loc => .block (reviseBlock r body) (r.loc loc)
  | .whileDo condition body loc => .whileDo (condition.revise r) (reviseBlock r body) (r.loc loc)
  | .repeatUntil body condition loc =>
    .repeatUntil (reviseBlock r body) (condition.revise r) (r.loc loc)
  | .branch condition thenBlock arms elseBlock loc =>
    .branch (condition.revise r) (reviseBlock r thenBlock) (reviseArms r arms)
      (reviseElse r elseBlock) (r.loc loc)
  | .numericFor decl start limit step body loc =>
    .numericFor (decl.revise r) (start.revise r) (limit.revise r) (step.map (Expr.revise r))
      (reviseBlock r body) (r.loc loc)
  | .genericFor decls values body loc =>
    .genericFor (decls.map (Decl.revise r)) (Expr.reviseList r values) (reviseBlock r body)
      (r.loc loc)
  | .ret values loc => .ret (Expr.reviseList r values) (r.loc loc)
  | .brk loc => .brk (r.loc loc)

/-- The revised statements of a block. -/
def reviseBlock (r : Revision) : List Stmt → List Stmt
  | [] => []
  | stmt :: rest => revise r stmt :: reviseBlock r rest

/-- The revised `elseif`s. -/
def reviseArms (r : Revision) : List Arm → List Arm
  | [] => []
  | ⟨condition, body⟩ :: rest => ⟨condition.revise r, reviseBlock r body⟩ :: reviseArms r rest

/-- The revised block of an `else`. -/
def reviseElse (r : Revision) : Option (List Stmt) → Option (List Stmt)
  | none => none
  | some body => some (reviseBlock r body)

end

end Stmt

/-- The revised function. -/
def Function.revise (r : Revision) (decl : Function) : Function where
  name := decl.name
  params := decl.params.map (Decl.revise r)
  returns := TypeExpr.reviseList r decl.returns
  body := Stmt.reviseBlock r decl.body
  loc := r.loc decl.loc

/-- The revised item. -/
def Item.revise (r : Revision) : Item → Item
  | .var decls values loc => .var (decls.map (Decl.revise r)) (Expr.reviseList r values) (r.loc loc)
  | .function decl => .function (decl.revise r)
  | .assign targets values loc =>
    .assign (Expr.reviseList r targets) (Expr.reviseList r values) (r.loc loc)
  | .record name fields loc => .record name (fields.map (Decl.revise r)) (r.loc loc)
  | .alias name type loc => .alias name (type.revise r) (r.loc loc)
  | .ret values loc => .ret (Expr.reviseList r values) (r.loc loc)

/-! ### What a revision keeps -/

variable {r : Revision}

namespace Expr

theorem reviseList_eq_map (exprs : List Expr) : reviseList r exprs = exprs.map (revise r) := by
  induction exprs with
  | nil => rfl
  | cons expr rest ih => rw [reviseList, ih, List.map_cons]

@[simp]
theorem loc_revise (expr : Expr) : (expr.revise r).loc = r.loc expr.loc := by
  cases expr <;> simp only [revise, loc]

@[simp]
theorem isCall_revise (expr : Expr) : (expr.revise r).isCall = expr.isCall := by
  cases expr <;> simp only [revise, isCall]

@[simp]
theorem isInit_revise (expr : Expr) : (expr.revise r).isInit = expr.isInit := by
  cases expr <;> simp only [revise, isInit]

@[simp]
theorem name?_revise (expr : Expr) : (expr.revise r).name? = expr.name? := by
  cases expr <;> simp only [revise, name?]

@[simp]
theorem isEmpty_reviseList (exprs : List Expr) :
    (reviseList r exprs).isEmpty = exprs.isEmpty := by
  cases exprs <;> simp only [reviseList, List.isEmpty_nil, List.isEmpty_cons]

@[simp]
theorem isEmpty_reviseEntries (entries : List Entry) :
    (reviseEntries r entries).isEmpty = entries.isEmpty := by
  cases entries with
  | nil => rfl
  | cons entry rest => cases entry <;> simp only [reviseEntries, List.isEmpty_cons]

end Expr

namespace Stmt

mutual

@[simp]
theorem returns_revise : ∀ stmt : Stmt, (stmt.revise r).returns = stmt.returns
  | .declare .. | .assign .. | .call .. | .whileDo .. | .repeatUntil .. | .numericFor ..
  | .genericFor .. | .ret .. | .brk .. => by simp only [revise, returns]
  | .block body _ => by simp only [revise, returns, returns_reviseBlock body]
  | .branch _ thenBlock arms elseBlock _ => by
    simp only [revise, returns, returns_reviseBlock thenBlock, allReturn_reviseArms arms,
      elseReturns_reviseElse elseBlock]

@[simp]
theorem returns_reviseBlock : ∀ body : List Stmt,
    Block.returns (reviseBlock r body) = Block.returns body
  | [] => by simp only [reviseBlock]
  | [last] => by simp only [reviseBlock, Block.returns, returns_revise last]
  | _ :: next :: rest => by
    have ih := returns_reviseBlock (next :: rest)
    simp only [reviseBlock, Block.returns] at ih ⊢
    exact ih

theorem allReturn_reviseArms : ∀ arms : List Arm,
    Arm.allReturn (reviseArms r arms) = Arm.allReturn arms
  | [] => by simp only [reviseArms]
  | ⟨_, body⟩ :: rest => by
    simp only [reviseArms, Arm.allReturn, returns_reviseBlock body, allReturn_reviseArms rest]

theorem elseReturns_reviseElse : ∀ body : Option (List Stmt),
    Block.elseReturns (reviseElse r body) = Block.elseReturns body
  | none => by simp only [reviseElse]
  | some body => by simp only [reviseElse, Block.elseReturns, returns_reviseBlock body]

end

end Stmt

@[simp]
theorem Item.isReturn_revise (item : Item) : (item.revise r).isReturn = item.isReturn := by
  cases item <;> rfl

@[simp]
theorem Item.loc_revise (item : Item) : (item.revise r).loc = r.loc item.loc := by
  cases item <;> rfl

end Source

/-! ### Typed trees -/

namespace Typed

mutual

/-- The expression with its locations moved. -/
def Expr.relocate (ρ : Location → Location) : Expr → Expr
  | ⟨kind, ty, loc⟩ => ⟨kind.relocate ρ, ty, ρ loc⟩

/-- The form of an expression with the locations below it moved. -/
def ExprKind.relocate (ρ : Location → Location) : ExprKind → ExprKind
  | .arrayInit items => .arrayInit (Expr.relocateList ρ items)
  | .tableInit items => .tableInit (Expr.relocateEntries ρ items)
  | .index array key => .index (array.relocate ρ) (key.relocate ρ)
  | .field object key => .field (object.relocate ρ) key
  | .call callee args returns => .call (callee.relocate ρ) (Expr.relocateList ρ args) returns
  | .unary op operand => .unary op (operand.relocate ρ)
  | .binary op left right => .binary op (left.relocate ρ) (right.relocate ρ)
  | .cast expr implicit => .cast (expr.relocate ρ) implicit
  | .toFloat expr => .toFloat (expr.relocate ρ)
  | .paren expr => .paren (expr.relocate ρ)
  | .expand call values => .expand (call.relocate ρ) (Expr.relocateList ρ values)
  | kind => kind

/-- The expressions of a list with their locations moved. -/
def Expr.relocateList (ρ : Location → Location) : List Expr → List Expr
  | [] => []
  | expr :: rest => expr.relocate ρ :: Expr.relocateList ρ rest

/-- The values of named entries with their locations moved. -/
def Expr.relocateEntries (ρ : Location → Location) : List (String × Expr) → List (String × Expr)
  | [] => []
  | (key, expr) :: rest => (key, expr.relocate ρ) :: Expr.relocateEntries ρ rest

end

/-- The declaration with its location moved. -/
def Decl.relocate (ρ : Location → Location) (decl : Decl) : Decl :=
  { decl with loc := ρ decl.loc }

/-- The target with the locations in it moved. -/
def Target.relocate (ρ : Location → Location) : Target → Target
  | .index array key ty => .index (array.relocate ρ) (key.relocate ρ) ty
  | .field object key ty => .field (object.relocate ρ) key ty
  | target => target

/-- What a loop goes through, with the locations in it moved. -/
def Iteration.relocate (ρ : Location → Location) : Iteration → Iteration
  | .ipairs array => .ipairs (array.relocate ρ)
  | .generic values => .generic (values.map (Expr.relocate ρ))

mutual

/-- The statement with its locations moved. -/
def Stmt.relocate (ρ : Location → Location) : Stmt → Stmt
  | .declare decls values loc =>
    .declare (decls.map (Decl.relocate ρ)) (values.map (Expr.relocate ρ)) (ρ loc)
  | .assign targets values loc =>
    .assign (targets.map (Target.relocate ρ)) (values.map (Expr.relocate ρ)) (ρ loc)
  | .call expr loc => .call (expr.relocate ρ) (ρ loc)
  | .block body loc => .block (Stmt.relocateBlock ρ body) (ρ loc)
  | .whileDo condition body loc =>
    .whileDo (condition.relocate ρ) (Stmt.relocateBlock ρ body) (ρ loc)
  | .repeatUntil body condition loc =>
    .repeatUntil (Stmt.relocateBlock ρ body) (condition.relocate ρ) (ρ loc)
  | .branch condition thenBlock elseBlock loc =>
    .branch (condition.relocate ρ) (Stmt.relocateBlock ρ thenBlock)
      (Stmt.relocateBlock ρ elseBlock) (ρ loc)
  | .numericFor decl start limit step body loc =>
    .numericFor (decl.relocate ρ) (start.relocate ρ) (limit.relocate ρ) (step.relocate ρ)
      (Stmt.relocateBlock ρ body) (ρ loc)
  | .genericFor decls iteration body loc =>
    .genericFor (decls.map (Decl.relocate ρ)) (iteration.relocate ρ) (Stmt.relocateBlock ρ body)
      (ρ loc)
  | .ret values loc => .ret (values.map (Expr.relocate ρ)) (ρ loc)
  | .brk loc => .brk (ρ loc)

/-- The statements of a block with their locations moved. -/
def Stmt.relocateBlock (ρ : Location → Location) : List Stmt → List Stmt
  | [] => []
  | stmt :: rest => stmt.relocate ρ :: Stmt.relocateBlock ρ rest

end

/-- The item with its locations moved. -/
def Item.relocate (ρ : Location → Location) : Item → Item
  | .var decls values loc =>
    .var (decls.map (Decl.relocate ρ)) (values.map (Expr.relocate ρ)) (ρ loc)
  | .function ⟨name, params, ty, body, loc⟩ =>
    .function ⟨name, params.map (Decl.relocate ρ), ty, Stmt.relocateBlock ρ body, ρ loc⟩
  | .assign targets values loc =>
    .assign (targets.map (Target.relocate ρ)) (values.map (Expr.relocate ρ)) (ρ loc)
  | .record name ty loc => .record name ty (ρ loc)
  | .ret value loc => .ret (value.relocate ρ) (ρ loc)

variable {ρ : Location → Location}

namespace Expr

theorem relocateList_eq_map (exprs : List Expr) :
    relocateList ρ exprs = exprs.map (relocate ρ) := by
  induction exprs with
  | nil => rfl
  | cons expr rest ih => rw [relocateList, ih, List.map_cons]

@[simp]
theorem kind_relocate (expr : Expr) : (expr.relocate ρ).kind = expr.kind.relocate ρ := by
  obtain ⟨kind, ty, loc⟩ := expr
  simp only [relocate]

@[simp]
theorem ty_relocate (expr : Expr) : (expr.relocate ρ).ty = expr.ty := by
  obtain ⟨kind, ty, loc⟩ := expr
  simp only [relocate]

@[simp]
theorem loc_relocate (expr : Expr) : (expr.relocate ρ).loc = ρ expr.loc := by
  obtain ⟨kind, ty, loc⟩ := expr
  simp only [relocate]

@[simp]
theorem valueTypes_relocate (expr : Expr) : (expr.relocate ρ).valueTypes = expr.valueTypes := by
  obtain ⟨kind, ty, loc⟩ := expr
  cases kind <;> simp [relocate, ExprKind.relocate, valueTypes, relocateList_eq_map]

@[simp]
theorem isCall_relocate (expr : Expr) : (expr.relocate ρ).isCall = expr.isCall := by
  obtain ⟨kind, ty, loc⟩ := expr
  cases kind <;> simp only [relocate, ExprKind.relocate, isCall]

end Expr

@[simp]
theorem Target.ty_relocate (target : Target) : (target.relocate ρ).ty = target.ty := by
  cases target <;> rfl

theorem flatTypes_relocate (exprs : List Expr) :
    flatTypes (exprs.map (Expr.relocate ρ)) = flatTypes exprs := by
  induction exprs with
  | nil => rfl
  | cons expr rest ih =>
    cases rest with
    | nil => simp [flatTypes]
    | cons next rest =>
      simp only [List.map_cons, flatTypes, Expr.ty_relocate] at ih ⊢
      rw [ih]

/-! ### Locations that stay -/

mutual

@[simp]
theorem Expr.relocate_id : ∀ expr : Expr, expr.relocate id = expr
  | ⟨kind, ty, loc⟩ => by simp only [Expr.relocate, ExprKind.relocate_id kind, id]

theorem ExprKind.relocate_id : ∀ kind : ExprKind, kind.relocate id = kind
  | .nil | .boolean _ | .integer _ | .float _ | .string _ | .moduleInit | .innerVar _ | .toplevel _
  | .moduleField _ _ | .builtin _ | .libraryField _ _ | .callResult _ => by
    simp only [ExprKind.relocate]
  | .arrayInit items => by simp only [ExprKind.relocate, Expr.relocateList_id items]
  | .tableInit items => by simp only [ExprKind.relocate, Expr.relocateEntries_id items]
  | .index array key => by
    simp only [ExprKind.relocate, Expr.relocate_id array, Expr.relocate_id key]
  | .field object _ => by simp only [ExprKind.relocate, Expr.relocate_id object]
  | .call callee args _ => by
    simp only [ExprKind.relocate, Expr.relocate_id callee, Expr.relocateList_id args]
  | .unary _ operand => by simp only [ExprKind.relocate, Expr.relocate_id operand]
  | .binary _ left right => by
    simp only [ExprKind.relocate, Expr.relocate_id left, Expr.relocate_id right]
  | .cast expr _ => by simp only [ExprKind.relocate, Expr.relocate_id expr]
  | .toFloat expr => by simp only [ExprKind.relocate, Expr.relocate_id expr]
  | .paren expr => by simp only [ExprKind.relocate, Expr.relocate_id expr]
  | .expand call values => by
    simp only [ExprKind.relocate, Expr.relocate_id call, Expr.relocateList_id values]

theorem Expr.relocateList_id : ∀ exprs : List Expr, Expr.relocateList id exprs = exprs
  | [] => by simp only [Expr.relocateList]
  | expr :: rest => by
    simp only [Expr.relocateList, Expr.relocate_id expr, Expr.relocateList_id rest]

theorem Expr.relocateEntries_id : ∀ entries : List (String × Expr),
    Expr.relocateEntries id entries = entries
  | [] => by simp only [Expr.relocateEntries]
  | (_, expr) :: rest => by
    simp only [Expr.relocateEntries, Expr.relocate_id expr, Expr.relocateEntries_id rest]

end

@[simp]
theorem Decl.relocate_id (decl : Decl) : decl.relocate id = decl :=
  rfl

@[simp]
theorem Decl.map_relocate_id (decls : List Decl) : decls.map (Decl.relocate id) = decls :=
  List.map_id'' relocate_id decls

@[simp]
theorem Target.relocate_id (target : Target) : target.relocate id = target := by
  cases target <;> simp [Target.relocate]

theorem Iteration.relocate_id (iteration : Iteration) : iteration.relocate id = iteration := by
  cases iteration <;> simp [Iteration.relocate, List.map_id'']

mutual

theorem Stmt.relocate_id : ∀ stmt : Stmt, stmt.relocate id = stmt
  | .declare .. | .assign .. | .call .. | .ret .. | .brk .. => by
    simp [Stmt.relocate, List.map_id'']
  | .block body _ => by simp [Stmt.relocate, Stmt.relocateBlock_id body]
  | .whileDo _ body _ => by simp [Stmt.relocate, Stmt.relocateBlock_id body]
  | .repeatUntil body _ _ => by simp [Stmt.relocate, Stmt.relocateBlock_id body]
  | .branch _ thenBlock elseBlock _ => by
    simp [Stmt.relocate, Stmt.relocateBlock_id thenBlock, Stmt.relocateBlock_id elseBlock]
  | .numericFor _ _ _ _ body _ => by simp [Stmt.relocate, Stmt.relocateBlock_id body]
  | .genericFor _ iteration body _ => by
    simp [Stmt.relocate, Stmt.relocateBlock_id body, Iteration.relocate_id iteration]

theorem Stmt.relocateBlock_id : ∀ stmts : List Stmt, Stmt.relocateBlock id stmts = stmts
  | [] => by simp only [Stmt.relocateBlock]
  | stmt :: rest => by
    simp only [Stmt.relocateBlock, Stmt.relocate_id stmt, Stmt.relocateBlock_id rest]

end

@[simp]
theorem Item.relocate_id (item : Item) : item.relocate id = item := by
  cases item <;> simp [Item.relocate, Stmt.relocateBlock_id, List.map_id'']

end Typed

end LuaTyping
