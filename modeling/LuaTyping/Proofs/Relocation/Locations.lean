import LuaTyping.Proofs.Revision.Tree

/-!
# The locations in a program

`Source.Item.locs` lists the locations that stand in an item, those of annotations included, and
`Typed.Item.locs` those in a typed item.  A relocation that fixes the locations of a source tree
leaves the tree as it is (`Source.Item.revise_eq_self`), and the locations in a relocated typed tree
are those that stood there before, moved (`Typed.Item.locs_relocate`).
-/

namespace LuaTyping

/-- The revision that moves locations and keeps names. -/
def Revision.relocation (ρ : Location → Location) : Revision where
  name text loc := .name text (ρ loc)
  loc := ρ

variable {ρ : Location → Location}

@[simp]
theorem Revision.relocation_loc (loc : Location) : (relocation ρ).loc loc = ρ loc :=
  rfl

/-- The relocation leaves each of the locations where it is. -/
def Fixes (ρ : Location → Location) (locs : List Location) : Prop :=
  ∀ loc ∈ locs, ρ loc = loc

namespace Fixes

variable {loc : Location} {locs locs' : List Location}

@[simp]
theorem cons_iff : Fixes ρ (loc :: locs) ↔ ρ loc = loc ∧ Fixes ρ locs :=
  List.forall_mem_cons

@[simp]
theorem append_iff : Fixes ρ (locs ++ locs') ↔ Fixes ρ locs ∧ Fixes ρ locs' :=
  List.forall_mem_append

end Fixes

/-! ### Source trees -/

namespace TypeExpr

mutual

/-- The locations in a type expression. -/
def locs : TypeExpr → List Location
  | .nil | .boolean | .integer | .float | .string | .any | .module => []
  | .name _ loc => [loc]
  | .array elem loc => loc :: locs elem
  | .table fields loc => loc :: fieldLocs fields
  | .function params returns loc => loc :: (listLocs params ++ listLocs returns)

/-- The locations in the type expressions of a list. -/
def listLocs : List TypeExpr → List Location
  | [] => []
  | type :: rest => locs type ++ listLocs rest

/-- The locations in the fields of a table type. -/
def fieldLocs : List TypeField → List Location
  | [] => []
  | ⟨_, type, loc⟩ :: rest => loc :: (locs type ++ fieldLocs rest)

end

mutual

theorem revise_eq_self : ∀ type : TypeExpr, Fixes ρ type.locs →
    type.revise (.relocation ρ) = type
  | .nil, _ | .boolean, _ | .integer, _ | .float, _ | .string, _ | .any, _ | .module, _ => by
    simp only [revise]
  | .name text loc, h => by
    simp only [locs, Fixes.cons_iff] at h
    simp only [revise, Revision.relocation, h.1]
  | .array elem loc, h => by
    simp only [locs, Fixes.cons_iff] at h
    rw [revise, revise_eq_self elem h.2, Revision.relocation_loc, h.1]
  | .table fields loc, h => by
    simp only [locs, Fixes.cons_iff] at h
    rw [revise, reviseFields_eq_self fields h.2, Revision.relocation_loc, h.1]
  | .function params returns loc, h => by
    simp only [locs, Fixes.cons_iff, Fixes.append_iff] at h
    rw [revise, reviseList_eq_self params h.2.1, reviseList_eq_self returns h.2.2,
      Revision.relocation_loc, h.1]

theorem reviseList_eq_self : ∀ types : List TypeExpr, Fixes ρ (listLocs types) →
    reviseList (.relocation ρ) types = types
  | [], _ => by simp only [reviseList]
  | type :: rest, h => by
    simp only [listLocs, Fixes.append_iff] at h
    rw [reviseList, revise_eq_self type h.1, reviseList_eq_self rest h.2]

theorem reviseFields_eq_self : ∀ fields : List TypeField, Fixes ρ (fieldLocs fields) →
    reviseFields (.relocation ρ) fields = fields
  | [], _ => by simp only [reviseFields]
  | ⟨key, type, loc⟩ :: rest, h => by
    simp only [fieldLocs, Fixes.cons_iff, Fixes.append_iff] at h
    rw [reviseFields, revise_eq_self type h.2.1, reviseFields_eq_self rest h.2.2,
      Revision.relocation_loc, h.1]

end

end TypeExpr

namespace Source

namespace Expr

mutual

/-- The locations in an expression. -/
def locs : Expr → List Location
  | .nil loc | .boolean _ loc | .integer _ loc | .float _ loc | .string _ loc | .name _ loc => [loc]
  | .init entries loc => loc :: entryLocs entries
  | .index object key loc => loc :: (locs object ++ locs key)
  | .field object _ loc => loc :: locs object
  | .call callee args loc => loc :: (locs callee ++ listLocs args)
  | .unary _ operand loc => loc :: locs operand
  | .binary left _ right loc => loc :: (locs left ++ locs right)
  | .cast expr target loc => loc :: (locs expr ++ target.locs)
  | .paren expr loc => loc :: locs expr

/-- The locations in the expressions of a list. -/
def listLocs : List Expr → List Location
  | [] => []
  | expr :: rest => locs expr ++ listLocs rest

/-- The locations in the entries of a table constructor. -/
def entryLocs : List Entry → List Location
  | [] => []
  | .positional value :: rest => locs value ++ entryLocs rest
  | .named _ value loc :: rest => loc :: (locs value ++ entryLocs rest)

end

mutual

theorem revise_eq_self : ∀ expr : Expr, Fixes ρ expr.locs → expr.revise (.relocation ρ) = expr
  | .nil _, h | .boolean _ _, h | .integer _ _, h | .float _ _, h | .string _ _, h
  | .name _ _, h => by
    simp only [locs, Fixes.cons_iff] at h
    simp only [revise, Revision.relocation, h.1]
  | .init entries loc, h => by
    simp only [locs, Fixes.cons_iff] at h
    rw [revise, reviseEntries_eq_self entries h.2, Revision.relocation_loc, h.1]
  | .index object key loc, h => by
    simp only [locs, Fixes.cons_iff, Fixes.append_iff] at h
    rw [revise, revise_eq_self object h.2.1, revise_eq_self key h.2.2, Revision.relocation_loc, h.1]
  | .field object key loc, h => by
    simp only [locs, Fixes.cons_iff] at h
    rw [revise, revise_eq_self object h.2, Revision.relocation_loc, h.1]
  | .call callee args loc, h => by
    simp only [locs, Fixes.cons_iff, Fixes.append_iff] at h
    rw [revise, revise_eq_self callee h.2.1, reviseList_eq_self args h.2.2,
      Revision.relocation_loc, h.1]
  | .unary op operand loc, h => by
    simp only [locs, Fixes.cons_iff] at h
    rw [revise, revise_eq_self operand h.2, Revision.relocation_loc, h.1]
  | .binary left op right loc, h => by
    simp only [locs, Fixes.cons_iff, Fixes.append_iff] at h
    rw [revise, revise_eq_self left h.2.1, revise_eq_self right h.2.2, Revision.relocation_loc, h.1]
  | .cast expr target loc, h => by
    simp only [locs, Fixes.cons_iff, Fixes.append_iff] at h
    rw [revise, revise_eq_self expr h.2.1, target.revise_eq_self h.2.2,
      Revision.relocation_loc, h.1]
  | .paren expr loc, h => by
    simp only [locs, Fixes.cons_iff] at h
    rw [revise, revise_eq_self expr h.2, Revision.relocation_loc, h.1]

theorem reviseList_eq_self : ∀ exprs : List Expr, Fixes ρ (listLocs exprs) →
    reviseList (.relocation ρ) exprs = exprs
  | [], _ => by simp only [reviseList]
  | expr :: rest, h => by
    simp only [listLocs, Fixes.append_iff] at h
    rw [reviseList, revise_eq_self expr h.1, reviseList_eq_self rest h.2]

theorem reviseEntries_eq_self : ∀ entries : List Entry, Fixes ρ (entryLocs entries) →
    reviseEntries (.relocation ρ) entries = entries
  | [], _ => by simp only [reviseEntries]
  | .positional value :: rest, h => by
    simp only [entryLocs, Fixes.append_iff] at h
    rw [reviseEntries, revise_eq_self value h.1, reviseEntries_eq_self rest h.2]
  | .named key value loc :: rest, h => by
    simp only [entryLocs, Fixes.cons_iff, Fixes.append_iff] at h
    rw [reviseEntries, revise_eq_self value h.2.1, reviseEntries_eq_self rest h.2.2,
      Revision.relocation_loc, h.1]

end

end Expr

namespace Decl

/-- The locations in a declaration. -/
def locs (decl : Decl) : List Location :=
  decl.loc :: (decl.type.map TypeExpr.locs).getD []

/-- The locations in declarations. -/
def listLocs (decls : List Decl) : List Location :=
  decls.flatMap locs

theorem revise_eq_self {decl : Decl} (h : Fixes ρ decl.locs) :
    decl.revise (.relocation ρ) = decl := by
  obtain ⟨name, type, loc⟩ := decl
  simp only [locs, Fixes.cons_iff] at h
  cases type with
  | none => simp only [revise, Revision.relocation, h.1, Option.map_none]
  | some type =>
    simp only [Option.map_some, Option.getD_some] at h
    simp only [revise, Option.map_some, type.revise_eq_self h.2]
    simp only [Revision.relocation, h.1]

theorem map_revise_eq_self {decls : List Decl} (h : Fixes ρ (listLocs decls)) :
    decls.map (revise (.relocation ρ)) = decls := by
  induction decls with
  | nil => rfl
  | cons decl rest ih =>
    simp only [listLocs, List.flatMap_cons, Fixes.append_iff] at h
    rw [List.map_cons, revise_eq_self h.1, ih h.2]

end Decl

namespace Stmt

mutual

/-- The locations in a statement. -/
def locs : Stmt → List Location
  | .declare decls values loc => loc :: (Decl.listLocs decls ++ Expr.listLocs values)
  | .assign targets values loc => loc :: (Expr.listLocs targets ++ Expr.listLocs values)
  | .call expr loc => loc :: expr.locs
  | .block body loc => loc :: blockLocs body
  | .whileDo condition body loc => loc :: (condition.locs ++ blockLocs body)
  | .repeatUntil body condition loc => loc :: (blockLocs body ++ condition.locs)
  | .branch condition thenBlock arms elseBlock loc =>
    loc :: (condition.locs ++ (blockLocs thenBlock ++ (armLocs arms ++ elseLocs elseBlock)))
  | .numericFor decl start limit step body loc =>
    loc :: (decl.locs ++ (start.locs ++ (limit.locs ++
      ((step.map Expr.locs).getD [] ++ blockLocs body))))
  | .genericFor decls values body loc =>
    loc :: (Decl.listLocs decls ++ (Expr.listLocs values ++ blockLocs body))
  | .ret values loc => loc :: Expr.listLocs values
  | .brk loc => [loc]

/-- The locations in the statements of a block. -/
def blockLocs : List Stmt → List Location
  | [] => []
  | stmt :: rest => locs stmt ++ blockLocs rest

/-- The locations in `elseif`s. -/
def armLocs : List Arm → List Location
  | [] => []
  | ⟨condition, body⟩ :: rest => condition.locs ++ (blockLocs body ++ armLocs rest)

/-- The locations in the block of an `else`. -/
def elseLocs : Option (List Stmt) → List Location
  | none => []
  | some body => blockLocs body

end

theorem map_revise_eq_self {step : Option Expr} (h : Fixes ρ ((step.map Expr.locs).getD [])) :
    step.map (Expr.revise (.relocation ρ)) = step := by
  cases step with
  | none => rfl
  | some step => rw [Option.map_some, step.revise_eq_self h]

mutual

theorem revise_eq_self : ∀ stmt : Stmt, Fixes ρ stmt.locs → stmt.revise (.relocation ρ) = stmt
  | .declare decls values loc, h => by
    simp only [locs, Fixes.cons_iff, Fixes.append_iff] at h
    rw [revise, Decl.map_revise_eq_self h.2.1, Expr.reviseList_eq_self values h.2.2,
      Revision.relocation_loc, h.1]
  | .assign targets values loc, h => by
    simp only [locs, Fixes.cons_iff, Fixes.append_iff] at h
    rw [revise, Expr.reviseList_eq_self targets h.2.1, Expr.reviseList_eq_self values h.2.2,
      Revision.relocation_loc, h.1]
  | .call expr loc, h => by
    simp only [locs, Fixes.cons_iff] at h
    rw [revise, expr.revise_eq_self h.2, Revision.relocation_loc, h.1]
  | .block body loc, h => by
    simp only [locs, Fixes.cons_iff] at h
    rw [revise, reviseBlock_eq_self body h.2, Revision.relocation_loc, h.1]
  | .whileDo condition body loc, h => by
    simp only [locs, Fixes.cons_iff, Fixes.append_iff] at h
    rw [revise, condition.revise_eq_self h.2.1, reviseBlock_eq_self body h.2.2,
      Revision.relocation_loc, h.1]
  | .repeatUntil body condition loc, h => by
    simp only [locs, Fixes.cons_iff, Fixes.append_iff] at h
    rw [revise, reviseBlock_eq_self body h.2.1, condition.revise_eq_self h.2.2,
      Revision.relocation_loc, h.1]
  | .branch condition thenBlock arms elseBlock loc, h => by
    simp only [locs, Fixes.cons_iff, Fixes.append_iff] at h
    obtain ⟨hloc, hcondition, hthen, harms, helse⟩ := h
    rw [revise, condition.revise_eq_self hcondition, reviseBlock_eq_self thenBlock hthen,
      reviseArms_eq_self arms harms, reviseElse_eq_self elseBlock helse,
      Revision.relocation_loc, hloc]
  | .numericFor decl start limit step body loc, h => by
    simp only [locs, Fixes.cons_iff, Fixes.append_iff] at h
    obtain ⟨hloc, hdecl, hstart, hlimit, hstep, hbody⟩ := h
    rw [revise, Decl.revise_eq_self hdecl, start.revise_eq_self hstart,
      limit.revise_eq_self hlimit, map_revise_eq_self hstep, reviseBlock_eq_self body hbody,
      Revision.relocation_loc, hloc]
  | .genericFor decls values body loc, h => by
    simp only [locs, Fixes.cons_iff, Fixes.append_iff] at h
    obtain ⟨hloc, hdecls, hvalues, hbody⟩ := h
    rw [revise, Decl.map_revise_eq_self hdecls, Expr.reviseList_eq_self values hvalues,
      reviseBlock_eq_self body hbody, Revision.relocation_loc, hloc]
  | .ret values loc, h => by
    simp only [locs, Fixes.cons_iff] at h
    rw [revise, Expr.reviseList_eq_self values h.2, Revision.relocation_loc, h.1]
  | .brk loc, h => by
    simp only [locs, Fixes.cons_iff] at h
    simp only [revise, Revision.relocation, h.1]

theorem reviseBlock_eq_self : ∀ stmts : List Stmt, Fixes ρ (blockLocs stmts) →
    reviseBlock (.relocation ρ) stmts = stmts
  | [], _ => by simp only [reviseBlock]
  | stmt :: rest, h => by
    simp only [blockLocs, Fixes.append_iff] at h
    rw [reviseBlock, revise_eq_self stmt h.1, reviseBlock_eq_self rest h.2]

theorem reviseArms_eq_self : ∀ arms : List Arm, Fixes ρ (armLocs arms) →
    reviseArms (.relocation ρ) arms = arms
  | [], _ => by simp only [reviseArms]
  | ⟨condition, body⟩ :: rest, h => by
    simp only [armLocs, Fixes.append_iff] at h
    rw [reviseArms, condition.revise_eq_self h.1, reviseBlock_eq_self body h.2.1,
      reviseArms_eq_self rest h.2.2]

theorem reviseElse_eq_self : ∀ body : Option (List Stmt), Fixes ρ (elseLocs body) →
    reviseElse (.relocation ρ) body = body
  | none, _ => by simp only [reviseElse]
  | some body, h => by
    simp only [elseLocs] at h
    rw [reviseElse, reviseBlock_eq_self body h]

end

end Stmt

namespace Item

/-- The locations in an item. -/
def locs : Item → List Location
  | .var decls values loc => loc :: (Decl.listLocs decls ++ Expr.listLocs values)
  | .function decl =>
    decl.loc :: (Decl.listLocs decl.params ++
      (TypeExpr.listLocs decl.returns ++ Stmt.blockLocs decl.body))
  | .assign targets values loc => loc :: (Expr.listLocs targets ++ Expr.listLocs values)
  | .record _ fields loc => loc :: Decl.listLocs fields
  | .alias _ type loc => loc :: type.locs
  | .ret values loc => loc :: Expr.listLocs values

theorem revise_eq_self {item : Item} (h : Fixes ρ item.locs) :
    item.revise (.relocation ρ) = item := by
  cases item with
  | var decls values loc =>
    simp only [locs, Fixes.cons_iff, Fixes.append_iff] at h
    rw [revise, Decl.map_revise_eq_self h.2.1, Expr.reviseList_eq_self values h.2.2,
      Revision.relocation_loc, h.1]
  | function decl =>
    simp only [locs, Fixes.cons_iff, Fixes.append_iff] at h
    obtain ⟨hloc, hparams, hreturns, hbody⟩ := h
    rw [revise, Function.revise, Decl.map_revise_eq_self hparams,
      TypeExpr.reviseList_eq_self _ hreturns, Stmt.reviseBlock_eq_self _ hbody,
      Revision.relocation_loc, hloc]
  | assign targets values loc =>
    simp only [locs, Fixes.cons_iff, Fixes.append_iff] at h
    rw [revise, Expr.reviseList_eq_self targets h.2.1, Expr.reviseList_eq_self values h.2.2,
      Revision.relocation_loc, h.1]
  | record name fields loc =>
    simp only [locs, Fixes.cons_iff] at h
    rw [revise, Decl.map_revise_eq_self h.2, Revision.relocation_loc, h.1]
  | «alias» name type loc =>
    simp only [locs, Fixes.cons_iff] at h
    rw [revise, type.revise_eq_self h.2, Revision.relocation_loc, h.1]
  | ret values loc =>
    simp only [locs, Fixes.cons_iff] at h
    rw [revise, Expr.reviseList_eq_self values h.2, Revision.relocation_loc, h.1]

theorem loc_mem_locs (item : Item) : item.loc ∈ item.locs := by
  cases item <;> exact List.mem_cons_self

end Item

/-- The locations of the nodes of a program. -/
def Program.locs (program : Program) : List Location :=
  program.items.flatMap Item.locs

end Source

/-! ### Typed trees -/

namespace Typed

mutual

/-- The locations in a typed expression. -/
def Expr.locs : Expr → List Location
  | ⟨kind, _, loc⟩ => loc :: kind.locs

/-- The locations below a typed expression. -/
def ExprKind.locs : ExprKind → List Location
  | .arrayInit items => Expr.listLocs items
  | .tableInit items => Expr.entryLocs items
  | .index array key => array.locs ++ key.locs
  | .field object _ => object.locs
  | .call callee args _ => callee.locs ++ Expr.listLocs args
  | .unary _ operand => operand.locs
  | .binary _ left right => left.locs ++ right.locs
  | .cast expr _ => expr.locs
  | .toFloat expr => expr.locs
  | .paren expr => expr.locs
  | .expand call values => call.locs ++ Expr.listLocs values
  | _ => []

/-- The locations in the typed expressions of a list. -/
def Expr.listLocs : List Expr → List Location
  | [] => []
  | expr :: rest => expr.locs ++ Expr.listLocs rest

/-- The locations in the values of named entries. -/
def Expr.entryLocs : List (String × Expr) → List Location
  | [] => []
  | (_, expr) :: rest => expr.locs ++ Expr.entryLocs rest

end

/-- The locations in a target. -/
def Target.locs : Target → List Location
  | .index array key _ => array.locs ++ key.locs
  | .field object _ _ => object.locs
  | _ => []

/-- The locations in what a loop goes through. -/
def Iteration.locs : Iteration → List Location
  | .ipairs array => array.locs
  | .generic values => values.flatMap Expr.locs

/-- The locations of typed declarations. -/
def Decl.listLocs (decls : List Decl) : List Location :=
  decls.map (·.loc)

mutual

/-- The locations in a typed statement. -/
def Stmt.locs : Stmt → List Location
  | .declare decls values loc => loc :: (Decl.listLocs decls ++ values.flatMap Expr.locs)
  | .assign targets values loc => loc :: (targets.flatMap Target.locs ++ values.flatMap Expr.locs)
  | .call expr loc => loc :: expr.locs
  | .block body loc => loc :: Stmt.blockLocs body
  | .whileDo condition body loc => loc :: (condition.locs ++ Stmt.blockLocs body)
  | .repeatUntil body condition loc => loc :: (Stmt.blockLocs body ++ condition.locs)
  | .branch condition thenBlock elseBlock loc =>
    loc :: (condition.locs ++ (Stmt.blockLocs thenBlock ++ Stmt.blockLocs elseBlock))
  | .numericFor decl start limit step body loc =>
    loc :: decl.loc :: (start.locs ++ (limit.locs ++ (step.locs ++ Stmt.blockLocs body)))
  | .genericFor decls iteration body loc =>
    loc :: (Decl.listLocs decls ++ (iteration.locs ++ Stmt.blockLocs body))
  | .ret values loc => loc :: values.flatMap Expr.locs
  | .brk loc => [loc]

/-- The locations in the typed statements of a block. -/
def Stmt.blockLocs : List Stmt → List Location
  | [] => []
  | stmt :: rest => stmt.locs ++ Stmt.blockLocs rest

end

/-- The locations in a typed item. -/
def Item.locs : Item → List Location
  | .var decls values loc => loc :: (Decl.listLocs decls ++ values.flatMap Expr.locs)
  | .function decl => decl.loc :: (Decl.listLocs decl.params ++ Stmt.blockLocs decl.body)
  | .assign targets values loc => loc :: (targets.flatMap Target.locs ++ values.flatMap Expr.locs)
  | .record _ _ loc => [loc]
  | .ret value loc => loc :: value.locs

mutual

theorem Expr.locs_relocate : ∀ expr : Expr, (expr.relocate ρ).locs = expr.locs.map ρ
  | ⟨kind, ty, loc⟩ => by
    simp only [Expr.relocate, Expr.locs, List.map_cons, ExprKind.locs_relocate kind]

theorem ExprKind.locs_relocate : ∀ kind : ExprKind, (kind.relocate ρ).locs = kind.locs.map ρ
  | .nil | .boolean _ | .integer _ | .float _ | .string _ | .moduleInit | .innerVar _ | .toplevel _
  | .moduleField _ _ | .builtin _ | .libraryField _ _ | .callResult _ => by
    simp only [ExprKind.relocate, ExprKind.locs, List.map_nil]
  | .arrayInit items => by
    simp only [ExprKind.relocate, ExprKind.locs, Expr.listLocs_relocate items]
  | .tableInit items => by
    simp only [ExprKind.relocate, ExprKind.locs, Expr.entryLocs_relocate items]
  | .index array key => by
    simp only [ExprKind.relocate, ExprKind.locs, List.map_append, Expr.locs_relocate array,
      Expr.locs_relocate key]
  | .field object _ => by
    simp only [ExprKind.relocate, ExprKind.locs, Expr.locs_relocate object]
  | .call callee args _ => by
    simp only [ExprKind.relocate, ExprKind.locs, List.map_append, Expr.locs_relocate callee,
      Expr.listLocs_relocate args]
  | .unary _ operand => by
    simp only [ExprKind.relocate, ExprKind.locs, Expr.locs_relocate operand]
  | .binary _ left right => by
    simp only [ExprKind.relocate, ExprKind.locs, List.map_append, Expr.locs_relocate left,
      Expr.locs_relocate right]
  | .cast expr _ => by simp only [ExprKind.relocate, ExprKind.locs, Expr.locs_relocate expr]
  | .toFloat expr => by simp only [ExprKind.relocate, ExprKind.locs, Expr.locs_relocate expr]
  | .paren expr => by simp only [ExprKind.relocate, ExprKind.locs, Expr.locs_relocate expr]
  | .expand call values => by
    simp only [ExprKind.relocate, ExprKind.locs, List.map_append, Expr.locs_relocate call,
      Expr.listLocs_relocate values]

theorem Expr.listLocs_relocate : ∀ exprs : List Expr,
    Expr.listLocs (Expr.relocateList ρ exprs) = (Expr.listLocs exprs).map ρ
  | [] => by simp only [Expr.relocateList, Expr.listLocs, List.map_nil]
  | expr :: rest => by
    simp only [Expr.relocateList, Expr.listLocs, List.map_append, Expr.locs_relocate expr,
      Expr.listLocs_relocate rest]

theorem Expr.entryLocs_relocate : ∀ entries : List (String × Expr),
    Expr.entryLocs (Expr.relocateEntries ρ entries) = (Expr.entryLocs entries).map ρ
  | [] => by simp only [Expr.relocateEntries, Expr.entryLocs, List.map_nil]
  | (_, expr) :: rest => by
    simp only [Expr.relocateEntries, Expr.entryLocs, List.map_append, Expr.locs_relocate expr,
      Expr.entryLocs_relocate rest]

end

/-- What holds of each part of a list holds of the list. -/
theorem flatMap_locs_relocate {α : Type} {move : α → α} {locs : α → List Location}
    (h : ∀ a, locs (move a) = (locs a).map ρ) (parts : List α) :
    (parts.map move).flatMap locs = (parts.flatMap locs).map ρ := by
  rw [List.flatMap_map, List.map_flatMap]
  simp only [h]

theorem Target.locs_relocate (target : Target) :
    (target.relocate ρ).locs = target.locs.map ρ := by
  cases target <;> simp [Target.relocate, Target.locs, Expr.locs_relocate]

theorem Iteration.locs_relocate (iteration : Iteration) :
    (iteration.relocate ρ).locs = iteration.locs.map ρ := by
  cases iteration with
  | ipairs array => exact Expr.locs_relocate array
  | generic values => exact flatMap_locs_relocate Expr.locs_relocate values

theorem Decl.listLocs_relocate (decls : List Decl) :
    Decl.listLocs (decls.map (Decl.relocate ρ)) = (Decl.listLocs decls).map ρ := by
  simp [Decl.listLocs, Function.comp_def, Decl.relocate]

mutual

theorem Stmt.locs_relocate : ∀ stmt : Stmt, (stmt.relocate ρ).locs = stmt.locs.map ρ
  | .declare decls values loc => by
    simp only [Stmt.relocate, Stmt.locs, List.map_cons, List.map_append, Decl.listLocs_relocate,
      flatMap_locs_relocate Expr.locs_relocate]
  | .assign targets values loc => by
    simp only [Stmt.relocate, Stmt.locs, List.map_cons, List.map_append,
      flatMap_locs_relocate Target.locs_relocate, flatMap_locs_relocate Expr.locs_relocate]
  | .call expr loc => by
    simp only [Stmt.relocate, Stmt.locs, List.map_cons, Expr.locs_relocate]
  | .block body loc => by
    simp only [Stmt.relocate, Stmt.locs, List.map_cons, Stmt.blockLocs_relocate body]
  | .whileDo condition body loc => by
    simp only [Stmt.relocate, Stmt.locs, List.map_cons, List.map_append, Expr.locs_relocate,
      Stmt.blockLocs_relocate body]
  | .repeatUntil body condition loc => by
    simp only [Stmt.relocate, Stmt.locs, List.map_cons, List.map_append, Expr.locs_relocate,
      Stmt.blockLocs_relocate body]
  | .branch condition thenBlock elseBlock loc => by
    simp only [Stmt.relocate, Stmt.locs, List.map_cons, List.map_append, Expr.locs_relocate,
      Stmt.blockLocs_relocate thenBlock, Stmt.blockLocs_relocate elseBlock]
  | .numericFor decl start limit step body loc => by
    simp only [Stmt.relocate, Stmt.locs, List.map_cons, List.map_append, Expr.locs_relocate,
      Stmt.blockLocs_relocate body, Decl.relocate]
  | .genericFor decls iteration body loc => by
    simp only [Stmt.relocate, Stmt.locs, List.map_cons, List.map_append, Decl.listLocs_relocate,
      Iteration.locs_relocate, Stmt.blockLocs_relocate body]
  | .ret values loc => by
    simp only [Stmt.relocate, Stmt.locs, List.map_cons, flatMap_locs_relocate Expr.locs_relocate]
  | .brk loc => by simp only [Stmt.relocate, Stmt.locs, List.map_cons, List.map_nil]

theorem Stmt.blockLocs_relocate : ∀ stmts : List Stmt,
    Stmt.blockLocs (Stmt.relocateBlock ρ stmts) = (Stmt.blockLocs stmts).map ρ
  | [] => by simp only [Stmt.relocateBlock, Stmt.blockLocs, List.map_nil]
  | stmt :: rest => by
    simp only [Stmt.relocateBlock, Stmt.blockLocs, List.map_append, Stmt.locs_relocate stmt,
      Stmt.blockLocs_relocate rest]

end

theorem Item.locs_relocate (item : Item) : (item.relocate ρ).locs = item.locs.map ρ := by
  cases item <;> simp only [Item.relocate, Item.locs, List.map_cons, List.map_append, List.map_nil,
    Decl.listLocs_relocate, flatMap_locs_relocate Expr.locs_relocate,
    flatMap_locs_relocate Target.locs_relocate, Stmt.blockLocs_relocate, Expr.locs_relocate]

end Typed

end LuaTyping
