import LuaTyping.Source.Program

/-!
# Replacing annotations by a type name

`program.Edits N u program'` says that `program'` is `program` with some annotations, or parts of
them, replaced by the type name `N`.  `u` lists the places of the new names in the order in which
the checker comes to them, so with one place in `u` there is one replacement, and with none the
programs are the same (`eq_of_nil`, `refl`).  The annotation of the module variable cannot be replaced.
-/

namespace LuaTyping

/-- The elements of a list are edited one by one. -/
inductive EditsEach {α : Type} (R : List Location → α → α → Prop) :
    List Location → List α → List α → Prop
  | nil : EditsEach R [] [] []
  | cons {u v : List Location} {a a' : α} {as as' : List α} : R u a a' → EditsEach R v as as' →
      EditsEach R (u ++ v) (a :: as) (a' :: as')

/-- What is there is edited. -/
inductive EditsOption {α : Type} (R : List Location → α → α → Prop) :
    List Location → Option α → Option α → Prop
  | none : EditsOption R [] none none
  | some {u : List Location} {a a' : α} : R u a a' → EditsOption R u (some a) (some a')

theorem EditsEach.length_eq {α : Type} {R : List Location → α → α → Prop} {u : List Location}
    {as as' : List α} (h : EditsEach R u as as') : as'.length = as.length := by
  induction h with
  | nil => rfl
  | cons _ _ ih => rw [List.length_cons, List.length_cons, ih]

theorem EditsEach.isEmpty_eq {α : Type} {R : List Location → α → α → Prop} {u : List Location}
    {as as' : List α} (h : EditsEach R u as as') : as'.isEmpty = as.isEmpty := by
  cases h <;> rfl

/-! ### Annotations -/

/-- Whether the annotation has no annotations inside. -/
def TypeExpr.isAtom : TypeExpr → Bool
  | .array .. | .table .. | .function .. => false
  | _ => true

mutual

/-- The annotation with parts replaced by the name `N`. -/
inductive TypeExpr.Edits (N : String) : List Location → TypeExpr → TypeExpr → Prop
  | here {type : TypeExpr} {loc : Location} : type.isModule = false →
      TypeExpr.Edits N [loc] type (.name N loc)
  | atom {type : TypeExpr} : type.isAtom = true → TypeExpr.Edits N [] type type
  | array {u : List Location} {elem elem' : TypeExpr} {loc : Location} :
      TypeExpr.Edits N u elem elem' → TypeExpr.Edits N u (.array elem loc) (.array elem' loc)
  | table {u : List Location} {fields fields' : List TypeField} {loc : Location} :
      EditsEach (TypeField.Edits N) u fields fields' →
        TypeExpr.Edits N u (.table fields loc) (.table fields' loc)
  | function {u v : List Location} {params params' returns returns' : List TypeExpr}
      {loc : Location} : EditsEach (TypeExpr.Edits N) u params params' →
        EditsEach (TypeExpr.Edits N) v returns returns' →
          TypeExpr.Edits N (u ++ v) (.function params returns loc) (.function params' returns' loc)

/-- The field with parts of its type replaced. -/
inductive TypeField.Edits (N : String) : List Location → TypeField → TypeField → Prop
  | field {u : List Location} {name : String} {type type' : TypeExpr} {loc : Location} :
      TypeExpr.Edits N u type type' → TypeField.Edits N u ⟨name, type, loc⟩ ⟨name, type', loc⟩

end

namespace Source

/-! ### Expressions -/

/-- Whether the expression has no expressions inside. -/
def Expr.isAtom : Expr → Bool
  | .nil .. | .boolean .. | .integer .. | .float .. | .string .. | .name .. => true
  | _ => false

mutual

/-- The expression with annotations in it edited. -/
inductive Expr.Edits (N : String) : List Location → Expr → Expr → Prop
  | atom {expr : Expr} : expr.isAtom = true → Expr.Edits N [] expr expr
  | init {u : List Location} {entries entries' : List Entry} {loc : Location} :
      EditsEach (Entry.Edits N) u entries entries' →
        Expr.Edits N u (.init entries loc) (.init entries' loc)
  | index {u v : List Location} {object object' key key' : Expr} {loc : Location} :
      Expr.Edits N u object object' → Expr.Edits N v key key' →
        Expr.Edits N (u ++ v) (.index object key loc) (.index object' key' loc)
  | field {u : List Location} {object object' : Expr} {key : String} {loc : Location} :
      Expr.Edits N u object object' → Expr.Edits N u (.field object key loc) (.field object' key loc)
  | call {u v : List Location} {callee callee' : Expr} {args args' : List Expr} {loc : Location} :
      Expr.Edits N u callee callee' → EditsEach (Expr.Edits N) v args args' →
        Expr.Edits N (u ++ v) (.call callee args loc) (.call callee' args' loc)
  | unary {u : List Location} {op : UnaryOp} {operand operand' : Expr} {loc : Location} :
      Expr.Edits N u operand operand' →
        Expr.Edits N u (.unary op operand loc) (.unary op operand' loc)
  | binary {u v : List Location} {left left' right right' : Expr} {op : BinaryOp} {loc : Location} :
      Expr.Edits N u left left' → Expr.Edits N v right right' →
        Expr.Edits N (u ++ v) (.binary left op right loc) (.binary left' op right' loc)
  | cast {u v : List Location} {expr expr' : Expr} {target target' : TypeExpr} {loc : Location} :
      Expr.Edits N u expr expr' → target.Edits N v target' →
        Expr.Edits N (u ++ v) (.cast expr target loc) (.cast expr' target' loc)
  | paren {u : List Location} {expr expr' : Expr} {loc : Location} :
      Expr.Edits N u expr expr' → Expr.Edits N u (.paren expr loc) (.paren expr' loc)

/-- The entry with annotations in it edited. -/
inductive Entry.Edits (N : String) : List Location → Entry → Entry → Prop
  | positional {u : List Location} {value value' : Expr} :
      Expr.Edits N u value value' → Entry.Edits N u (.positional value) (.positional value')
  | named {u : List Location} {key : String} {value value' : Expr} {loc : Location} :
      Expr.Edits N u value value' → Entry.Edits N u (.named key value loc) (.named key value' loc)

end

/-! ### Statements -/

/-- The declared name with its annotation edited. -/
inductive Decl.Edits (N : String) : List Location → Decl → Decl → Prop
  | untyped {name : String} {loc : Location} : Decl.Edits N [] ⟨name, none, loc⟩ ⟨name, none, loc⟩
  | typed {u : List Location} {name : String} {type type' : TypeExpr} {loc : Location} :
      type.Edits N u type' → Decl.Edits N u ⟨name, some type, loc⟩ ⟨name, some type', loc⟩

mutual

/-- The statement with annotations in it edited. -/
inductive Stmt.Edits (N : String) : List Location → Stmt → Stmt → Prop
  | declare {u v : List Location} {decls decls' : List Decl} {values values' : List Expr}
      {loc : Location} : EditsEach (Decl.Edits N) u decls decls' →
        EditsEach (Expr.Edits N) v values values' →
          Stmt.Edits N (u ++ v) (.declare decls values loc) (.declare decls' values' loc)
  | assign {u v : List Location} {targets targets' values values' : List Expr} {loc : Location} :
      EditsEach (Expr.Edits N) u targets targets' → EditsEach (Expr.Edits N) v values values' →
        Stmt.Edits N (u ++ v) (.assign targets values loc) (.assign targets' values' loc)
  | call {u : List Location} {expr expr' : Expr} {loc : Location} :
      expr.Edits N u expr' → Stmt.Edits N u (.call expr loc) (.call expr' loc)
  | block {u : List Location} {body body' : List Stmt} {loc : Location} :
      EditsEach (Stmt.Edits N) u body body' → Stmt.Edits N u (.block body loc) (.block body' loc)
  | whileDo {u v : List Location} {condition condition' : Expr} {body body' : List Stmt}
      {loc : Location} : condition.Edits N u condition' →
        EditsEach (Stmt.Edits N) v body body' →
          Stmt.Edits N (u ++ v) (.whileDo condition body loc) (.whileDo condition' body' loc)
  | repeatUntil {u v : List Location} {body body' : List Stmt} {condition condition' : Expr}
      {loc : Location} : EditsEach (Stmt.Edits N) u body body' →
        condition.Edits N v condition' →
          Stmt.Edits N (u ++ v) (.repeatUntil body condition loc)
            (.repeatUntil body' condition' loc)
  | branch {u v w x : List Location} {condition condition' : Expr}
      {thenBlock thenBlock' : List Stmt} {arms arms' : List Arm}
      {elseBlock elseBlock' : Option (List Stmt)} {loc : Location} :
      condition.Edits N u condition' → EditsEach (Stmt.Edits N) v thenBlock thenBlock' →
        EditsEach (Arm.Edits N) w arms arms' →
          EditsOption (EditsEach (Stmt.Edits N)) x elseBlock elseBlock' →
            Stmt.Edits N (u ++ (v ++ (w ++ x))) (.branch condition thenBlock arms elseBlock loc)
              (.branch condition' thenBlock' arms' elseBlock' loc)
  | numericFor {u v w x y : List Location} {decl decl' : Decl} {start start' limit limit' : Expr}
      {step step' : Option Expr} {body body' : List Stmt} {loc : Location} :
      decl.Edits N u decl' → start.Edits N v start' → limit.Edits N w limit' →
        EditsOption (Expr.Edits N) x step step' → EditsEach (Stmt.Edits N) y body body' →
          Stmt.Edits N (u ++ (v ++ (w ++ (x ++ y)))) (.numericFor decl start limit step body loc)
            (.numericFor decl' start' limit' step' body' loc)
  | genericFor {u v w : List Location} {decls decls' : List Decl} {values values' : List Expr}
      {body body' : List Stmt} {loc : Location} : EditsEach (Expr.Edits N) u values values' →
        EditsEach (Decl.Edits N) v decls decls' → EditsEach (Stmt.Edits N) w body body' →
          Stmt.Edits N (u ++ (v ++ w)) (.genericFor decls values body loc)
            (.genericFor decls' values' body' loc)
  | ret {u : List Location} {values values' : List Expr} {loc : Location} :
      EditsEach (Expr.Edits N) u values values' → Stmt.Edits N u (.ret values loc) (.ret values' loc)
  | brk {loc : Location} : Stmt.Edits N [] (.brk loc) (.brk loc)

/-- The `elseif` with annotations in it edited. -/
inductive Arm.Edits (N : String) : List Location → Arm → Arm → Prop
  | arm {u v : List Location} {condition condition' : Expr} {body body' : List Stmt} :
      condition.Edits N u condition' → EditsEach (Stmt.Edits N) v body body' →
        Arm.Edits N (u ++ v) ⟨condition, body⟩ ⟨condition', body'⟩

end

/-! ### Programs -/

/-- The item with annotations in it edited. -/
inductive Item.Edits (N : String) : List Location → Item → Item → Prop
  | var {u v : List Location} {decls decls' : List Decl} {values values' : List Expr}
      {loc : Location} : EditsEach (Decl.Edits N) u decls decls' →
        EditsEach (Expr.Edits N) v values values' →
          Item.Edits N (u ++ v) (.var decls values loc) (.var decls' values' loc)
  | function {u v w : List Location} {name : FunctionName} {params params' : List Decl}
      {returns returns' : List TypeExpr} {body body' : Block} {loc : Location} :
      EditsEach (Decl.Edits N) u params params' → EditsEach (TypeExpr.Edits N) v returns returns' →
        EditsEach (Stmt.Edits N) w body body' →
          Item.Edits N (u ++ (v ++ w)) (.function ⟨name, params, returns, body, loc⟩)
            (.function ⟨name, params', returns', body', loc⟩)
  | assign {u v : List Location} {targets targets' values values' : List Expr} {loc : Location} :
      EditsEach (Expr.Edits N) u targets targets' → EditsEach (Expr.Edits N) v values values' →
        Item.Edits N (u ++ v) (.assign targets values loc) (.assign targets' values' loc)
  | record {u : List Location} {name : String} {fields fields' : List Decl} {loc : Location} :
      EditsEach (Decl.Edits N) u fields fields' →
        Item.Edits N u (.record name fields loc) (.record name fields' loc)
  | alias {u : List Location} {name : String} {type type' : TypeExpr} {loc : Location} :
      type.Edits N u type' → Item.Edits N u (.alias name type loc) (.alias name type' loc)
  | ret {u : List Location} {values values' : List Expr} {loc : Location} :
      EditsEach (Expr.Edits N) u values values' → Item.Edits N u (.ret values loc) (.ret values' loc)

/-- The program with annotations in it edited. -/
def Program.Edits (N : String) (u : List Location) (program program' : Program) : Prop :=
  EditsEach (Item.Edits N) u program.items program'.items

/-- The type name that an item declares. -/
def Item.typeName? : Item → Option String
  | .record name .. => some name
  | .alias name .. => some name
  | _ => none

/-- The type names that a program declares. -/
def Program.typeNames (program : Program) : List String :=
  program.items.filterMap Item.typeName?

end Source

/-! ### Without a replacement nothing changes -/

variable {N : String}

theorem append_eq_nil_left {u v : List Location} (h : u ++ v = []) : u = [] :=
  (List.append_eq_nil_iff.mp h).1

theorem append_eq_nil_right {u v : List Location} (h : u ++ v = []) : v = [] :=
  (List.append_eq_nil_iff.mp h).2

namespace TypeExpr

mutual

theorem Edits.eq_of_nil : ∀ {type type' : TypeExpr} {u : List Location},
    type.Edits N u type' → u = [] → type' = type
  | .nil, _, _, h, hu | .boolean, _, _, h, hu | .integer, _, _, h, hu | .float, _, _, h, hu
  | .string, _, _, h, hu | .any, _, _, h, hu | .module, _, _, h, hu | .name _ _, _, _, h, hu => by
    cases h with
    | here _ => cases hu
    | atom _ => rfl
  | .array elem loc, _, _, h, hu => by
    cases h with
    | here _ => cases hu
    | atom ha => cases ha
    | array he => rw [Edits.eq_of_nil he hu]
  | .table fields loc, _, _, h, hu => by
    cases h with
    | here _ => cases hu
    | atom ha => cases ha
    | table hf => rw [Edits.fields_eq_of_nil hf hu]
  | .function params returns loc, _, _, h, hu => by
    cases h with
    | here _ => cases hu
    | atom ha => cases ha
    | function hp hr =>
      rw [Edits.list_eq_of_nil hp (append_eq_nil_left hu),
        Edits.list_eq_of_nil hr (append_eq_nil_right hu)]
termination_by structural type => type

theorem Edits.list_eq_of_nil : ∀ {types types' : List TypeExpr} {u : List Location},
    EditsEach (TypeExpr.Edits N) u types types' → u = [] → types' = types
  | [], _, _, .nil, _ => rfl
  | _ :: _, _, _, .cons h hs, hu => by
    rw [Edits.eq_of_nil h (append_eq_nil_left hu), Edits.list_eq_of_nil hs (append_eq_nil_right hu)]
termination_by structural types => types

theorem Edits.fields_eq_of_nil : ∀ {fields fields' : List TypeField} {u : List Location},
    EditsEach (TypeField.Edits N) u fields fields' → u = [] → fields' = fields
  | [], _, _, .nil, _ => rfl
  | ⟨key, type, loc⟩ :: _, _, _, .cons h hs, hu => by
    cases h with
    | field h =>
      rw [Edits.eq_of_nil h (append_eq_nil_left hu),
        Edits.fields_eq_of_nil hs (append_eq_nil_right hu)]
termination_by structural fields => fields

end

mutual

theorem Edits.refl : ∀ type : TypeExpr, type.Edits N [] type
  | .nil | .boolean | .integer | .float | .string | .any | .module | .name _ _ => .atom rfl
  | .array elem _ => .array (Edits.refl elem)
  | .table fields _ => .table (Edits.fields_refl fields)
  | .function params returns _ => .function (Edits.list_refl params) (Edits.list_refl returns)
termination_by structural type => type

theorem Edits.list_refl : ∀ types : List TypeExpr, EditsEach (TypeExpr.Edits N) [] types types
  | [] => .nil
  | type :: rest => .cons (Edits.refl type) (Edits.list_refl rest)
termination_by structural types => types

theorem Edits.fields_refl : ∀ fields : List TypeField,
    EditsEach (TypeField.Edits N) [] fields fields
  | [] => .nil
  | ⟨_, type, _⟩ :: rest => .cons (.field (Edits.refl type)) (Edits.fields_refl rest)
termination_by structural fields => fields

end

end TypeExpr

namespace Source

namespace Expr

mutual

theorem Edits.eq_of_nil : ∀ {expr expr' : Expr} {u : List Location},
    expr.Edits N u expr' → u = [] → expr' = expr
  | .nil _, _, _, h, _ | .boolean _ _, _, _, h, _ | .integer _ _, _, _, h, _
  | .float _ _, _, _, h, _ | .string _ _, _, _, h, _ | .name _ _, _, _, h, _ => by
    cases h
    rfl
  | .init entries loc, _, _, h, hu => by
    cases h with
    | atom ha => cases ha
    | init he => rw [Edits.entries_eq_of_nil he hu]
  | .index object key loc, _, _, h, hu => by
    cases h with
    | atom ha => cases ha
    | index ho hk =>
      rw [Edits.eq_of_nil ho (append_eq_nil_left hu), Edits.eq_of_nil hk (append_eq_nil_right hu)]
  | .field object key loc, _, _, h, hu => by
    cases h with
    | atom ha => cases ha
    | field ho => rw [Edits.eq_of_nil ho hu]
  | .call callee args loc, _, _, h, hu => by
    cases h with
    | atom ha => cases ha
    | call hc ha =>
      rw [Edits.eq_of_nil hc (append_eq_nil_left hu),
        Edits.list_eq_of_nil ha (append_eq_nil_right hu)]
  | .unary op operand loc, _, _, h, hu => by
    cases h with
    | atom ha => cases ha
    | unary ho => rw [Edits.eq_of_nil ho hu]
  | .binary left op right loc, _, _, h, hu => by
    cases h with
    | atom ha => cases ha
    | binary hl hr =>
      rw [Edits.eq_of_nil hl (append_eq_nil_left hu), Edits.eq_of_nil hr (append_eq_nil_right hu)]
  | .cast expr target loc, _, _, h, hu => by
    cases h with
    | atom ha => cases ha
    | cast he ht =>
      rw [Edits.eq_of_nil he (append_eq_nil_left hu), ht.eq_of_nil (append_eq_nil_right hu)]
  | .paren expr loc, _, _, h, hu => by
    cases h with
    | atom ha => cases ha
    | paren he => rw [Edits.eq_of_nil he hu]
termination_by structural expr => expr

theorem Edits.list_eq_of_nil : ∀ {exprs exprs' : List Expr} {u : List Location},
    EditsEach (Expr.Edits N) u exprs exprs' → u = [] → exprs' = exprs
  | [], _, _, .nil, _ => rfl
  | _ :: _, _, _, .cons h hs, hu => by
    rw [Edits.eq_of_nil h (append_eq_nil_left hu), Edits.list_eq_of_nil hs (append_eq_nil_right hu)]
termination_by structural exprs => exprs

theorem Edits.entries_eq_of_nil : ∀ {entries entries' : List Entry} {u : List Location},
    EditsEach (Entry.Edits N) u entries entries' → u = [] → entries' = entries
  | [], _, _, .nil, _ => rfl
  | .positional value :: _, _, _, .cons h hs, hu => by
    cases h with
    | positional h =>
      rw [Edits.eq_of_nil h (append_eq_nil_left hu),
        Edits.entries_eq_of_nil hs (append_eq_nil_right hu)]
  | .named key value loc :: _, _, _, .cons h hs, hu => by
    cases h with
    | named h =>
      rw [Edits.eq_of_nil h (append_eq_nil_left hu),
        Edits.entries_eq_of_nil hs (append_eq_nil_right hu)]
termination_by structural entries => entries

end

theorem Edits.option_eq_of_nil {expr expr' : Option Expr} {u : List Location}
    (h : EditsOption (Expr.Edits N) u expr expr') (hu : u = []) : expr' = expr := by
  cases h with
  | none => rfl
  | some h => rw [h.eq_of_nil hu]

mutual

theorem Edits.refl : ∀ expr : Expr, expr.Edits N [] expr
  | .nil _ | .boolean _ _ | .integer _ _ | .float _ _ | .string _ _ | .name _ _ => .atom rfl
  | .init entries _ => .init (Edits.entries_refl entries)
  | .index object key _ => .index (Edits.refl object) (Edits.refl key)
  | .field object _ _ => .field (Edits.refl object)
  | .call callee args _ => .call (Edits.refl callee) (Edits.list_refl args)
  | .unary _ operand _ => .unary (Edits.refl operand)
  | .binary left _ right _ => .binary (Edits.refl left) (Edits.refl right)
  | .cast expr target _ => .cast (Edits.refl expr) (.refl target)
  | .paren expr _ => .paren (Edits.refl expr)
termination_by structural expr => expr

theorem Edits.list_refl : ∀ exprs : List Expr, EditsEach (Expr.Edits N) [] exprs exprs
  | [] => .nil
  | expr :: rest => .cons (Edits.refl expr) (Edits.list_refl rest)
termination_by structural exprs => exprs

theorem Edits.entries_refl : ∀ entries : List Entry, EditsEach (Entry.Edits N) [] entries entries
  | [] => .nil
  | .positional value :: rest => .cons (.positional (Edits.refl value)) (Edits.entries_refl rest)
  | .named _ value _ :: rest => .cons (.named (Edits.refl value)) (Edits.entries_refl rest)
termination_by structural entries => entries

end

/-! ### What an edit keeps of an expression -/

section
variable {u : List Location} {expr expr' : Expr} (h : expr.Edits N u expr')
include h

theorem Edits.isCall_eq : expr'.isCall = expr.isCall := by
  cases h <;> rfl

theorem Edits.name?_eq : expr'.name? = expr.name? := by
  cases h <;> rfl

end

end Expr

theorem Decl.Edits.eq_of_nil {decl decl' : Decl} {u : List Location} (h : decl.Edits N u decl')
    (hu : u = []) : decl' = decl := by
  cases h with
  | untyped => rfl
  | typed h => rw [h.eq_of_nil hu]

theorem Decl.Edits.name_eq {decl decl' : Decl} {u : List Location} (h : decl.Edits N u decl') :
    decl'.name = decl.name := by
  cases h <;> rfl

theorem Decl.Edits.list_eq_of_nil : ∀ {decls decls' : List Decl} {u : List Location},
    EditsEach (Decl.Edits N) u decls decls' → u = [] → decls' = decls
  | [], _, _, .nil, _ => rfl
  | _ :: _, _, _, .cons h hs, hu => by
    rw [h.eq_of_nil (append_eq_nil_left hu), Decl.Edits.list_eq_of_nil hs (append_eq_nil_right hu)]

theorem Decl.Edits.refl : ∀ decl : Decl, decl.Edits N [] decl
  | ⟨_, none, _⟩ => .untyped
  | ⟨_, some type, _⟩ => .typed (.refl type)

theorem Decl.Edits.list_refl : ∀ decls : List Decl, EditsEach (Decl.Edits N) [] decls decls
  | [] => .nil
  | decl :: rest => .cons (Decl.Edits.refl decl) (Decl.Edits.list_refl rest)

namespace Stmt

mutual

theorem Edits.eq_of_nil : ∀ {stmt stmt' : Stmt} {u : List Location},
    stmt.Edits N u stmt' → u = [] → stmt' = stmt
  | .declare decls values loc, _, _, .declare hd hv, hu => by
    rw [Decl.Edits.list_eq_of_nil hd (append_eq_nil_left hu),
      Expr.Edits.list_eq_of_nil hv (append_eq_nil_right hu)]
  | .assign targets values loc, _, _, .assign ht hv, hu => by
    rw [Expr.Edits.list_eq_of_nil ht (append_eq_nil_left hu),
      Expr.Edits.list_eq_of_nil hv (append_eq_nil_right hu)]
  | .call expr loc, _, _, .call he, hu => by rw [he.eq_of_nil hu]
  | .block body loc, _, _, .block hb, hu => by rw [Edits.list_eq_of_nil hb hu]
  | .whileDo condition body loc, _, _, .whileDo hc hb, hu => by
    rw [hc.eq_of_nil (append_eq_nil_left hu), Edits.list_eq_of_nil hb (append_eq_nil_right hu)]
  | .repeatUntil body condition loc, _, _, .repeatUntil hb hc, hu => by
    rw [Edits.list_eq_of_nil hb (append_eq_nil_left hu), hc.eq_of_nil (append_eq_nil_right hu)]
  | .branch condition thenBlock arms elseBlock loc, _, _, .branch hc ht ha he, hu => by
    have hu₁ := append_eq_nil_right hu
    have hu₂ := append_eq_nil_right hu₁
    rw [hc.eq_of_nil (append_eq_nil_left hu), Edits.list_eq_of_nil ht (append_eq_nil_left hu₁),
      Edits.arms_eq_of_nil ha (append_eq_nil_left hu₂),
      Edits.else_eq_of_nil he (append_eq_nil_right hu₂)]
  | .numericFor decl start limit step body loc, _, _, .numericFor hd hs hl hp hb, hu => by
    have hu₁ := append_eq_nil_right hu
    have hu₂ := append_eq_nil_right hu₁
    have hu₃ := append_eq_nil_right hu₂
    rw [hd.eq_of_nil (append_eq_nil_left hu), hs.eq_of_nil (append_eq_nil_left hu₁),
      hl.eq_of_nil (append_eq_nil_left hu₂), Expr.Edits.option_eq_of_nil hp (append_eq_nil_left hu₃),
      Edits.list_eq_of_nil hb (append_eq_nil_right hu₃)]
  | .genericFor decls values body loc, _, _, .genericFor hv hd hb, hu => by
    have hu₁ := append_eq_nil_right hu
    rw [Expr.Edits.list_eq_of_nil hv (append_eq_nil_left hu),
      Decl.Edits.list_eq_of_nil hd (append_eq_nil_left hu₁),
      Edits.list_eq_of_nil hb (append_eq_nil_right hu₁)]
  | .ret values loc, _, _, .ret hv, hu => by rw [Expr.Edits.list_eq_of_nil hv hu]
  | .brk loc, _, _, .brk, _ => rfl
termination_by structural stmt => stmt

theorem Edits.list_eq_of_nil : ∀ {stmts stmts' : List Stmt} {u : List Location},
    EditsEach (Stmt.Edits N) u stmts stmts' → u = [] → stmts' = stmts
  | [], _, _, .nil, _ => rfl
  | _ :: _, _, _, .cons h hs, hu => by
    rw [Edits.eq_of_nil h (append_eq_nil_left hu), Edits.list_eq_of_nil hs (append_eq_nil_right hu)]
termination_by structural stmts => stmts

theorem Edits.arms_eq_of_nil : ∀ {arms arms' : List Arm} {u : List Location},
    EditsEach (Arm.Edits N) u arms arms' → u = [] → arms' = arms
  | [], _, _, .nil, _ => rfl
  | ⟨condition, body⟩ :: _, _, _, .cons h hs, hu => by
    cases h with
    | arm hc hb =>
      have hu₁ := append_eq_nil_left hu
      rw [hc.eq_of_nil (append_eq_nil_left hu₁), Edits.list_eq_of_nil hb (append_eq_nil_right hu₁),
        Edits.arms_eq_of_nil hs (append_eq_nil_right hu)]
termination_by structural arms => arms

theorem Edits.else_eq_of_nil : ∀ {body body' : Option (List Stmt)} {u : List Location},
    EditsOption (EditsEach (Stmt.Edits N)) u body body' → u = [] → body' = body
  | none, _, _, .none, _ => rfl
  | some _, _, _, .some h, hu => by rw [Edits.list_eq_of_nil h hu]
termination_by structural body => body

end

mutual

theorem Edits.refl : ∀ stmt : Stmt, stmt.Edits N [] stmt
  | .declare decls values _ => .declare (Decl.Edits.list_refl decls) (Expr.Edits.list_refl values)
  | .assign targets values _ =>
    .assign (Expr.Edits.list_refl targets) (Expr.Edits.list_refl values)
  | .call expr _ => .call (.refl expr)
  | .block body _ => .block (Edits.list_refl body)
  | .whileDo condition body _ => .whileDo (.refl condition) (Edits.list_refl body)
  | .repeatUntil body condition _ => .repeatUntil (Edits.list_refl body) (.refl condition)
  | .branch condition thenBlock arms elseBlock _ =>
    .branch (.refl condition) (Edits.list_refl thenBlock) (Edits.arms_refl arms)
      (Edits.else_refl elseBlock)
  | .numericFor decl start limit none body _ =>
    .numericFor (.refl decl) (.refl start) (.refl limit) .none (Edits.list_refl body)
  | .numericFor decl start limit (some step) body _ =>
    .numericFor (.refl decl) (.refl start) (.refl limit) (.some (.refl step)) (Edits.list_refl body)
  | .genericFor decls values body _ =>
    .genericFor (Expr.Edits.list_refl values) (Decl.Edits.list_refl decls) (Edits.list_refl body)
  | .ret values _ => .ret (Expr.Edits.list_refl values)
  | .brk _ => .brk
termination_by structural stmt => stmt

theorem Edits.list_refl : ∀ stmts : List Stmt, EditsEach (Stmt.Edits N) [] stmts stmts
  | [] => .nil
  | stmt :: rest => .cons (Edits.refl stmt) (Edits.list_refl rest)
termination_by structural stmts => stmts

theorem Edits.arms_refl : ∀ arms : List Arm, EditsEach (Arm.Edits N) [] arms arms
  | [] => .nil
  | ⟨condition, body⟩ :: rest =>
    .cons (.arm (.refl condition) (Edits.list_refl body)) (Edits.arms_refl rest)
termination_by structural arms => arms

theorem Edits.else_refl : ∀ body : Option (List Stmt),
    EditsOption (EditsEach (Stmt.Edits N)) [] body body
  | none => .none
  | some body => .some (Edits.list_refl body)
termination_by structural body => body

end

/-! ### What an edit keeps of a statement -/

mutual

theorem Edits.returns_eq : ∀ {stmt stmt' : Stmt} {u : List Location},
    stmt.Edits N u stmt' → stmt'.returns = stmt.returns
  | .declare .., _, _, .declare _ _ | .assign .., _, _, .assign _ _ | .call .., _, _, .call _
  | .whileDo .., _, _, .whileDo _ _ | .repeatUntil .., _, _, .repeatUntil _ _
  | .numericFor .., _, _, .numericFor _ _ _ _ _ | .genericFor .., _, _, .genericFor _ _ _
  | .ret .., _, _, .ret _ | .brk .., _, _, .brk => rfl
  | .block .., _, _, .block hb => by rw [returns, returns, Edits.block_returns_eq hb]
  | .branch .., _, _, .branch _ ht ha he => by
    rw [returns, returns, Edits.block_returns_eq ht, Edits.allReturn_eq ha, Edits.elseReturns_eq he]
termination_by structural stmt => stmt

theorem Edits.block_returns_eq : ∀ {stmts stmts' : List Stmt} {u : List Location},
    EditsEach (Stmt.Edits N) u stmts stmts' → Block.returns stmts' = Block.returns stmts
  | [], _, _, .nil => rfl
  | _ :: _, _, _, .cons h hs => by
    have ih := Edits.block_returns_eq hs
    cases hs with
    | nil => rw [Block.returns, Block.returns, Edits.returns_eq h]
    | cons _ _ => exact ih
termination_by structural stmts => stmts

theorem Edits.allReturn_eq : ∀ {arms arms' : List Arm} {u : List Location},
    EditsEach (Arm.Edits N) u arms arms' → Arm.allReturn arms' = Arm.allReturn arms
  | [], _, _, .nil => rfl
  | ⟨_, _⟩ :: _, _, _, .cons (.arm _ hb) hs => by
    rw [Arm.allReturn, Arm.allReturn, Edits.block_returns_eq hb, Edits.allReturn_eq hs]
termination_by structural arms => arms

theorem Edits.elseReturns_eq : ∀ {body body' : Option (List Stmt)} {u : List Location},
    EditsOption (EditsEach (Stmt.Edits N)) u body body' →
      Block.elseReturns body' = Block.elseReturns body
  | none, _, _, .none => rfl
  | some _, _, _, .some h => by
    rw [Block.elseReturns, Block.elseReturns, Edits.block_returns_eq h]
termination_by structural body => body

end

end Stmt

theorem Item.Edits.refl : ∀ item : Item, item.Edits N [] item
  | .var decls values _ => .var (Decl.Edits.list_refl decls) (Expr.Edits.list_refl values)
  | .function ⟨_, params, returns, body, _⟩ =>
    .function (Decl.Edits.list_refl params) (TypeExpr.Edits.list_refl returns)
      (Stmt.Edits.list_refl body)
  | .assign targets values _ =>
    .assign (Expr.Edits.list_refl targets) (Expr.Edits.list_refl values)
  | .record _ fields _ => .record (Decl.Edits.list_refl fields)
  | .alias _ type _ => .alias (.refl type)
  | .ret values _ => .ret (Expr.Edits.list_refl values)

namespace Item

variable {u : List Location} {item item' : Item} (h : item.Edits N u item')
include h

theorem Edits.eq_of_nil (hu : u = []) : item' = item := by
  cases h with
  | var hd hv =>
    rw [Decl.Edits.list_eq_of_nil hd (append_eq_nil_left hu),
      Expr.Edits.list_eq_of_nil hv (append_eq_nil_right hu)]
  | function hp hr hb =>
    have hu₁ := append_eq_nil_right hu
    rw [Decl.Edits.list_eq_of_nil hp (append_eq_nil_left hu),
      TypeExpr.Edits.list_eq_of_nil hr (append_eq_nil_left hu₁),
      Stmt.Edits.list_eq_of_nil hb (append_eq_nil_right hu₁)]
  | assign ht hv =>
    rw [Expr.Edits.list_eq_of_nil ht (append_eq_nil_left hu),
      Expr.Edits.list_eq_of_nil hv (append_eq_nil_right hu)]
  | record hf => rw [Decl.Edits.list_eq_of_nil hf hu]
  | «alias» ht => rw [ht.eq_of_nil hu]
  | ret hv => rw [Expr.Edits.list_eq_of_nil hv hu]

theorem Edits.isReturn_eq : item'.isReturn = item.isReturn := by
  cases h <;> rfl

end Item

end Source

end LuaTyping
