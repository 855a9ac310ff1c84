import LuaTyping.Source.Stmt

/-!
# Programs

A program is a list of toplevel items.  The spans of annotations and comments are carried along for
tools that erase them.

`Program.ofItems` gives items without a position one by their place in the list, and
`Program.inModule` wraps items into a complete module.
-/

namespace LuaTyping.Source

/-- The name of a function declaration, `f` or `m.f`. -/
inductive FunctionName where
  | plain (name : String)
  | member (module field : String)
deriving DecidableEq, Repr

/-- The name as it is written. -/
def FunctionName.display : FunctionName → String
  | .plain name => name
  | .member module field => module ++ "." ++ field

/-- A function declaration. -/
structure Function where
  name : FunctionName
  params : List Decl
  returns : List TypeExpr
  body : Block
  loc : Location

/-- A toplevel item. -/
inductive Item where
  | var (decls : List Decl) (values : List Expr) (loc : Location)
  | function (decl : Function)
  | assign (targets values : List Expr) (loc : Location)
  | record (name : String) (fields : List Decl) (loc : Location)
  | alias (name : String) (type : TypeExpr) (loc : Location)
  | ret (values : List Expr) (loc : Location)

namespace Item

/-- Where the item stands. -/
def loc : Item → Location
  | .function decl => decl.loc
  | .var _ _ loc
  | .assign _ _ loc
  | .record _ _ loc
  | .alias _ _ loc
  | .ret _ loc => loc

/-- The item at another location; what is inside keeps its own. -/
def withLoc (loc : Location) : Item → Item
  | .function decl => .function { decl with loc }
  | .var decls values _ => .var decls values loc
  | .assign targets values _ => .assign targets values loc
  | .record name fields _ => .record name fields loc
  | .alias name type _ => .alias name type loc
  | .ret values _ => .ret values loc

/-- Whether the item is a `return`. -/
def isReturn : Item → Bool
  | .ret .. => true
  | _ => false

end Item

/-- A whole program. -/
structure Program where
  items : List Item
  typeRegions : List Span
  commentRegions : List Span

/-- Gives a declaration without a position that of the item around it. -/
def Decl.locate (loc : Location) (decl : Decl) : Decl :=
  { decl with loc := decl.loc.orElse loc }

/-- Gives an item without a position the location `loc`, and then its declared names, fields or
parameters that have none the location of the item. -/
def Item.locate (loc : Location) (item : Item) : Item :=
  match item.withLoc (item.loc.orElse loc) with
  | .var decls values loc => .var (decls.map (Decl.locate loc)) values loc
  | .record name fields loc => .record name (fields.map (Decl.locate loc)) loc
  | .function decl => .function { decl with params := decl.params.map (Decl.locate decl.loc) }
  | located => located

namespace Program

/-- Items in a list, each without a position placed at the start of the line of its number. -/
def ofItems (items : List Item) : Program where
  items := items.mapIdx fun i item => item.locate (.lineCol (UInt64.ofNat (i + 1)) 1)
  typeRegions := []
  commentRegions := []

/-- Items between the declaration of a module variable `m` and its return. -/
def inModule (items : List Item) : Program :=
  let opening := Item.var [⟨"m", some .module, .nowhere⟩] [.init [] .nowhere] .nowhere
  let closing := Item.ret [.name "m" .nowhere] .nowhere
  ofItems (opening :: items ++ [closing])

end Program

end LuaTyping.Source
