import LuaTyping.Proofs.Proper.Expr

/-!
# Programs without types

A *bare* program has neither types nor locations.  It is what the source program and the typed
program have in common.

* `Typed.Program.erase` forgets types, implicit conversions and how names were resolved.  A spread
  call becomes the call again, and a loop over an array a loop over a call of `ipairs`.
* `Source.Program.norm` forgets annotations, nests `elseif`s, and writes out an absent `else` as an
  empty block and an absent step as one.  The step is an integer or a float like the variable of its
  loop; `norm` is given the types of these variables in the order of the text
  (`Typed.Program.loopTypes`).  Parentheses around the module variable in front of a field are
  dropped, so `norm` follows where the module variable can be seen.
-/

namespace LuaTyping

namespace Bare

mutual

/-- An expression.  `result` is a part of a spread call, which no source program contains. -/
inductive Expr where
  | nil
  | boolean (value : Bool)
  | integer (value : Int64)
  | float (value : Float)
  | string (value : String)
  | init (entries : List Entry)
  | name (name : String)
  | index (object key : Expr)
  | field (object : Expr) (field : String)
  | call (callee : Expr) (args : List Expr)
  | unary (op : UnaryOp) (operand : Expr)
  | binary (left : Expr) (op : BinaryOp) (right : Expr)
  | cast (expr : Expr)
  | paren (expr : Expr)
  | result (position : Nat)

/-- An entry of a table constructor. -/
inductive Entry where
  | positional (value : Expr)
  | named (name : String) (value : Expr)

end

/-- A statement. -/
inductive Stmt where
  | declare (names : List String) (values : List Expr)
  | assign (targets values : List Expr)
  | call (call : Expr)
  | block (body : List Stmt)
  | whileDo (condition : Expr) (body : List Stmt)
  | repeatUntil (body : List Stmt) (condition : Expr)
  | branch (condition : Expr) (thenBlock elseBlock : List Stmt)
  | numericFor (name : String) (start limit step : Expr) (body : List Stmt)
  | genericFor (names : List String) (values : List Expr) (body : List Stmt)
  | ret (values : List Expr)
  | brk

/-- A toplevel item. -/
inductive Item where
  | var (names : List String) (values : List Expr)
  | function (name : Source.FunctionName) (params : List String) (body : List Stmt)
  | assign (targets values : List Expr)
  | record (name : String) (fields : List String)
  | ret (values : List Expr)

/-- An `if` for each `elseif`, each in the block of the `else` before. -/
def nest (arms : List (Expr × List Stmt)) (elseBlock : List Stmt) : List Stmt :=
  arms.foldr (fun arm rest => [.branch arm.1 arm.2 rest]) elseBlock

/-- The step of one that a loop takes for a variable of the type. -/
def Expr.one (ty : Ty) : Expr :=
  if ty.isFloat then .float 1 else .integer 1

end Bare

/-! ### Typed programs -/

namespace Typed

mutual

/-- The expression without types. -/
def Expr.erase : Expr → Bare.Expr
  | ⟨kind, _, _⟩ => kind.erase

/-- The expression without types. -/
def ExprKind.erase : ExprKind → Bare.Expr
  | .nil => .nil
  | .boolean value => .boolean value
  | .integer value => .integer value
  | .float value => .float value
  | .string value => .string value
  | .arrayInit items => .init (Expr.eraseItems items)
  | .tableInit items => .init (Expr.eraseEntries items)
  | .moduleInit => .init []
  | .innerVar name => .name name
  | .toplevel name => .name name
  | .builtin name => .name name
  | .moduleField owner key => .field (.name owner) key
  | .libraryField owner key => .field (.name owner) key
  | .index array key => .index array.erase key.erase
  | .field object key => .field object.erase key
  | .call callee args _ => .call callee.erase (Expr.eraseList args)
  | .unary op operand => .unary op operand.erase
  | .binary op left right => .binary left.erase op right.erase
  | .cast expr implicit => if implicit then expr.erase else .cast expr.erase
  | .toFloat expr => expr.erase
  | .paren expr => .paren expr.erase
  | .expand call _ => call.erase
  | .callResult position => .result position

/-- The expressions of a list. -/
def Expr.eraseList : List Expr → List Bare.Expr
  | [] => []
  | expr :: rest => expr.erase :: Expr.eraseList rest

/-- Elements of an array as entries. -/
def Expr.eraseItems : List Expr → List Bare.Entry
  | [] => []
  | expr :: rest => .positional expr.erase :: Expr.eraseItems rest

/-- Values of fields as entries. -/
def Expr.eraseEntries : List (String × Expr) → List Bare.Entry
  | [] => []
  | (key, expr) :: rest => .named key expr.erase :: Expr.eraseEntries rest

end

/-- The target as an expression. -/
def Target.erase : Target → Bare.Expr
  | .innerVar name _ => .name name
  | .toplevel name _ => .name name
  | .moduleField owner key _ => .field (.name owner) key
  | .index array key _ => .index array.erase key.erase
  | .field object key _ => .field object.erase key

/-- The expressions behind `in`. -/
def Iteration.erase : Iteration → List Bare.Expr
  | .ipairs array => [.call (.name Builtins.ipairs) [array.erase]]
  | .generic values => Expr.eraseList values

mutual

/-- The statement without types. -/
def Stmt.erase : Stmt → Bare.Stmt
  | .declare decls values _ => .declare (decls.map (·.name)) (Expr.eraseList values)
  | .assign targets values _ => .assign (targets.map Target.erase) (Expr.eraseList values)
  | .call expr _ => .call expr.erase
  | .block body _ => .block (Stmt.eraseList body)
  | .whileDo condition body _ => .whileDo condition.erase (Stmt.eraseList body)
  | .repeatUntil body condition _ => .repeatUntil (Stmt.eraseList body) condition.erase
  | .branch condition thenBlock elseBlock _ =>
    .branch condition.erase (Stmt.eraseList thenBlock) (Stmt.eraseList elseBlock)
  | .numericFor decl start limit step body _ =>
    .numericFor decl.name start.erase limit.erase step.erase (Stmt.eraseList body)
  | .genericFor decls iteration body _ =>
    .genericFor (decls.map (·.name)) iteration.erase (Stmt.eraseList body)
  | .ret values _ => .ret (Expr.eraseList values)
  | .brk _ => .brk

/-- The statements of a block. -/
def Stmt.eraseList : List Stmt → List Bare.Stmt
  | [] => []
  | stmt :: rest => stmt.erase :: Stmt.eraseList rest

end

mutual

/-- The types of the variables of numeric loops, in the order of the text. -/
def Stmt.loopTypes : Stmt → List Ty
  | .block body _ => Stmt.listLoopTypes body
  | .whileDo _ body _ => Stmt.listLoopTypes body
  | .repeatUntil body _ _ => Stmt.listLoopTypes body
  | .branch _ thenBlock elseBlock _ =>
    Stmt.listLoopTypes thenBlock ++ Stmt.listLoopTypes elseBlock
  | .numericFor decl _ _ _ body _ => decl.ty :: Stmt.listLoopTypes body
  | .genericFor _ _ body _ => Stmt.listLoopTypes body
  | _ => []

/-- The types of the loop variables in a block. -/
def Stmt.listLoopTypes : List Stmt → List Ty
  | [] => []
  | stmt :: rest => stmt.loopTypes ++ Stmt.listLoopTypes rest

end

/-- The item without types; a record keeps the names of its fields. -/
def Item.erase : Item → Bare.Item
  | .var decls values _ => .var (decls.map (·.name)) (Expr.eraseList values)
  | .function decl =>
    .function decl.name (decl.params.map (·.name)) (Stmt.eraseList decl.body)
  | .assign targets values _ => .assign (targets.map Target.erase) (Expr.eraseList values)
  | .record name ty _ => .record name ((ty.fields?.getD []).map Prod.fst)
  | .ret value _ => .ret [value.erase]

/-- The types of the loop variables in an item. -/
def Item.loopTypes : Item → List Ty
  | .function decl => Stmt.listLoopTypes decl.body
  | _ => []

/-- The program without types. -/
def Program.erase (program : Program) : List Bare.Item :=
  program.items.map Item.erase

/-- The types of all variables of numeric loops, in the order of the text. -/
def Program.loopTypes (program : Program) : List Ty :=
  program.items.flatMap Item.loopTypes

end Typed

/-! ### Source programs -/

namespace Source

mutual

/-- The expression without annotations, where `visible` is the module variable if it can be seen. -/
def Expr.norm (visible : Option String) : Expr → Bare.Expr
  | .nil _ => .nil
  | .boolean value _ => .boolean value
  | .integer value _ => .integer value
  | .float value _ => .float value
  | .string value _ => .string value
  | .init entries _ => .init (Expr.normEntries visible entries)
  | .name text _ => .name text
  | .index object key _ => .index (object.norm visible) (key.norm visible)
  | .field object key _ =>
    match object.bareName? with
    | some text =>
      if visible = some text then .field (.name text) key else .field (object.norm visible) key
    | none => .field (object.norm visible) key
  | .call callee args _ => .call (callee.norm visible) (Expr.normList visible args)
  | .unary op operand _ => .unary op (operand.norm visible)
  | .binary left op right _ => .binary (left.norm visible) op (right.norm visible)
  | .cast expr _ _ => .cast (expr.norm visible)
  | .paren expr _ => .paren (expr.norm visible)

/-- The expressions of a list. -/
def Expr.normList (visible : Option String) : List Expr → List Bare.Expr
  | [] => []
  | expr :: rest => expr.norm visible :: Expr.normList visible rest

/-- The entries of a constructor. -/
def Expr.normEntries (visible : Option String) : List Entry → List Bare.Entry
  | [] => []
  | .positional value :: rest => .positional (value.norm visible) :: Expr.normEntries visible rest
  | .named key value _ :: rest => .named key (value.norm visible) :: Expr.normEntries visible rest

end

/-- What can be seen of the module variable behind declarations of the names. -/
def hide (names : List String) (visible : Option String) : Option String :=
  visible.filter fun text => !names.contains text

/-- What can be seen of the module variable behind a statement. -/
def Stmt.visibleAfter (visible : Option String) : Stmt → Option String
  | .declare decls _ _ => hide (decls.map (·.name)) visible
  | _ => visible

/-- What can be seen of the module variable at the end of a block. -/
def Stmt.visibleAtEnd (visible : Option String) (stmts : List Stmt) : Option String :=
  stmts.foldl Stmt.visibleAfter visible

/-- The step of a numeric loop, written out. -/
def Expr.normStep (visible : Option String) (ty : Ty) : Option Expr → Bare.Expr
  | some step => step.norm visible
  | none => .one ty

mutual

/-- The statement without annotations, and what is left of the types of loop variables. -/
def Stmt.norm (visible : Option String) : Stmt → List Ty → Bare.Stmt × List Ty
  | .declare decls values _, tys =>
    (.declare (decls.map (·.name)) (Expr.normList visible values), tys)
  | .assign targets values _, tys =>
    (.assign (Expr.normList visible targets) (Expr.normList visible values), tys)
  | .call expr _, tys => (.call (expr.norm visible), tys)
  | .block body _, tys =>
    let (body, tys) := Stmt.normList visible body tys
    (.block body, tys)
  | .whileDo condition body _, tys =>
    let (body, tys) := Stmt.normList visible body tys
    (.whileDo (condition.norm visible) body, tys)
  | .repeatUntil body condition _, tys =>
    let inside := Stmt.visibleAtEnd visible body
    let (body, tys) := Stmt.normList visible body tys
    (.repeatUntil body (condition.norm inside), tys)
  | .branch condition thenBlock arms elseBlock _, tys =>
    let (thenBlock, tys) := Stmt.normList visible thenBlock tys
    let (arms, tys) := Stmt.normArms visible arms tys
    let (elseBlock, tys) := Stmt.normElse visible elseBlock tys
    (.branch (condition.norm visible) thenBlock (Bare.nest arms elseBlock), tys)
  | .numericFor decl start limit step body _, tys =>
    let step := Expr.normStep visible (tys.headD .integer) step
    let (body, tys) := Stmt.normList (hide [decl.name] visible) body tys.tail
    (.numericFor decl.name (start.norm visible) (limit.norm visible) step body, tys)
  | .genericFor decls values body _, tys =>
    let names := decls.map (·.name)
    let (body, tys) := Stmt.normList (hide names visible) body tys
    (.genericFor names (Expr.normList visible values) body, tys)
  | .ret values _, tys => (.ret (Expr.normList visible values), tys)
  | .brk _, tys => (.brk, tys)

/-- The statements of a block. -/
def Stmt.normList (visible : Option String) : List Stmt → List Ty → List Bare.Stmt × List Ty
  | [], tys => ([], tys)
  | stmt :: rest, tys =>
    let (first, tys) := stmt.norm visible tys
    let (rest, tys) := Stmt.normList (stmt.visibleAfter visible) rest tys
    (first :: rest, tys)

/-- The conditions and blocks of `elseif`s. -/
def Stmt.normArms (visible : Option String) :
    List Arm → List Ty → List (Bare.Expr × List Bare.Stmt) × List Ty
  | [], tys => ([], tys)
  | ⟨condition, body⟩ :: rest, tys =>
    let (body, tys) := Stmt.normList visible body tys
    let (rest, tys) := Stmt.normArms visible rest tys
    ((condition.norm visible, body) :: rest, tys)

/-- The block of an `else`, which is empty when there is none. -/
def Stmt.normElse (visible : Option String) : Option (List Stmt) → List Ty → List Bare.Stmt × List Ty
  | none, tys => ([], tys)
  | some body, tys => Stmt.normList visible body tys

end

/-- What can be seen of the module variable behind an item; all other toplevel names are new. -/
def Item.visibleAfter (visible : Option String) : Item → Option String
  | .var [⟨name, some .module, _⟩] _ _ => some name
  | _ => visible

/-- The item without annotations, which is none for a type alias. -/
def Item.norm (visible : Option String) : Item → List Ty → Option Bare.Item × List Ty
  | .var decls values _, tys =>
    (some (.var (decls.map (·.name)) (Expr.normList visible values)), tys)
  | .function decl, tys =>
    let params := decl.params.map (·.name)
    let (body, tys) := Stmt.normList (hide params visible) decl.body tys
    (some (.function decl.name params body), tys)
  | .assign targets values _, tys =>
    (some (.assign (Expr.normList visible targets) (Expr.normList visible values)), tys)
  | .record name fields _, tys => (some (.record name (fields.map (·.name))), tys)
  | .alias .., tys => (none, tys)
  | .ret values _, tys => (some (.ret (Expr.normList visible values)), tys)

/-- Items one after another. -/
def Item.normList (visible : Option String) : List Item → List Ty → List Bare.Item × List Ty
  | [], tys => ([], tys)
  | item :: rest, tys =>
    let (first, tys) := item.norm visible tys
    let (rest, tys) := Item.normList (item.visibleAfter visible) rest tys
    (first.toList ++ rest, tys)

/-- The program without annotations, and what is left of the types of loop variables. -/
def Program.norm (program : Program) (tys : List Ty) : List Bare.Item × List Ty :=
  Item.normList none program.items tys

end Source

end LuaTyping
