import LuaTyping.Proofs.Known.Types
import LuaTyping.Proofs.Proper.Expr
import Mathlib.Data.List.Forall2

/-!
# Declarative typing of expressions

The type system of expressions, without diagnostics and without `unknown`:

* `type.Denotes scopes T`: an annotation stands for a type.
* `expr.HasType Γ T`: the expression has a value of the type.
* `expr.Fits Γ T`: the expression can stand where a value of type `T` is wanted.  A table constructor
  takes its type from there; any other expression has a type of its own, which has to suit `T`.
* `Expr.ListFits Γ exprs Ts`: the values of a list of expressions can stand where values of these
  types are wanted.  Each expression gives one value, except that a call at the end gives all its
  results.

If no type in sight of the context has `unknown` in it, no type of an expression has
(`HasType.proper`).
-/

namespace LuaTyping

/-! ### Annotations -/

mutual

/-- The annotation stands for the type.  The `module` type stands for none. -/
inductive TypeExpr.Denotes (scopes : Scopes) : TypeExpr → Ty → Prop
  | nil : Denotes scopes .nil .nil
  | boolean : Denotes scopes .boolean .boolean
  | integer : Denotes scopes .integer .integer
  | float : Denotes scopes .float .float
  | string : Denotes scopes .string .string
  | any : Denotes scopes .any .any
  | name {text : String} {loc : Location} {ty : Ty} : scopes.lookupType text = some ty →
      Denotes scopes (.name text loc) ty
  | array {elem : TypeExpr} {loc : Location} {ty : Ty} : Denotes scopes elem ty →
      Denotes scopes (.array elem loc) (.array ty)
  | table {fields : List TypeField} {loc : Location} {map : NameMap Ty} :
      FieldsDenote scopes fields map → map.keys.Nodup →
        Denotes scopes (.table fields loc) (.table map)
  | function {params returns : List TypeExpr} {loc : Location} {tys tys' : List Ty} :
      ListDenotes scopes params tys → ListDenotes scopes returns tys' →
        Denotes scopes (.function params returns loc) (.function tys tys')

/-- The annotations stand for the types, one by one. -/
inductive TypeExpr.ListDenotes (scopes : Scopes) : List TypeExpr → List Ty → Prop
  | nil : ListDenotes scopes [] []
  | cons {type : TypeExpr} {types : List TypeExpr} {ty : Ty} {tys : List Ty} :
      Denotes scopes type ty → ListDenotes scopes types tys →
        ListDenotes scopes (type :: types) (ty :: tys)

/-- The fields stand for named types, in their order. -/
inductive TypeExpr.FieldsDenote (scopes : Scopes) : List TypeField → NameMap Ty → Prop
  | nil : FieldsDenote scopes [] []
  | cons {key : String} {type : TypeExpr} {loc : Location} {fields : List TypeField} {ty : Ty}
      {map : NameMap Ty} : Denotes scopes type ty → FieldsDenote scopes fields map →
        FieldsDenote scopes (⟨key, type, loc⟩ :: fields) ((key, ty) :: map)

end

/-! ### Operators and conversions -/

/-- A value of the first type can stand where one of the second is wanted: they are the same, or one
of them is `any`. -/
def Ty.Suits (found wanted : Ty) : Prop :=
  found.same wanted = true ∨ found = .any ∨ wanted = .any

/-- An operator takes operands of the first two types, as they are before an integer beside a float
is converted, to a result of the third. -/
inductive BinaryOp.Joins (op : BinaryOp) : Ty → Ty → Ty → Prop
  | integers : op.family = .arithmetic → Joins op .integer .integer .integer
  | floats {left right : Ty} : op.family = .arithmetic → left.isNumeric = true →
      right.isNumeric = true → left = .float ∨ right = .float → Joins op left right .float
  | division {left right : Ty} : op.family = .floatArithmetic → left.isNumeric = true →
      right.isNumeric = true → Joins op left right .float
  | bitwise : op.family = .bitwise → Joins op .integer .integer .integer
  | logical : op.family = .logical → Joins op .boolean .boolean .boolean
  | concat {left right : Ty} : op.family = .concat → left = .string ∨ left.isNumeric = true →
      right = .string ∨ right.isNumeric = true → Joins op left right .string
  | equality {left right : Ty} : op.family = .equality →
      left.same right = true ∨ left.isNumeric = true ∧ right.isNumeric = true →
        Joins op left right .boolean
  | ordering {left right : Ty} : op.family = .ordering →
      left = .string ∧ right = .string ∨ left.isNumeric = true ∧ right.isNumeric = true →
        Joins op left right .boolean

/-! ### Expressions -/

namespace Source

mutual

/-- The expression has a value of the type.  A library without a member has none, and neither has a
table constructor. -/
inductive Expr.HasType (Γ : Context) : Expr → Ty → Prop
  | nil {loc : Location} : HasType Γ (.nil loc) .nil
  | boolean {value : Bool} {loc : Location} : HasType Γ (.boolean value loc) .boolean
  | integer {value : Int64} {loc : Location} : HasType Γ (.integer value loc) .integer
  | float {value : Float} {loc : Location} : HasType Γ (.float value loc) .float
  | string {value : String} {loc : Location} : HasType Γ (.string value loc) .string
  | var {name : String} {loc : Location} {binding : Binding} :
      Γ.scopes.var? name = some binding → HasType Γ (.name name loc) binding.ty
  | builtin {name : String} {loc : Location} {ty : Ty} : Γ.scopes.var? name = none →
      Γ.scopes.builtins.get? name = some (.function ty) → HasType Γ (.name name loc) ty
  | index {object key : Expr} {loc : Location} {ty : Ty} : HasType Γ object (.array ty) →
      Fits Γ key .integer → HasType Γ (.index object key loc) ty
  | member {library field : String} {loc loc' : Location} {members : NameMap Ty} {ty : Ty} :
      Γ.scopes.var? library = none → Γ.scopes.builtins.get? library = some (.library members) →
        members.lookup field = some ty → HasType Γ (.field (.name library loc) field loc') ty
  | field {object : Expr} {field : String} {loc : Location} {fields : NameMap Ty} {ty ty' : Ty} :
      HasType Γ object ty → ty.fields? = some fields → fields.lookup field = some ty' →
        HasType Γ (.field object field loc) ty'
  | moduleField {object : Expr} {field : String} {loc : Location} {fields : NameMap Ty}
      {declared : Declared} : HasType Γ object (.module fields) →
        Γ.module.fields.lookup field = some declared →
          HasType Γ (.field object field loc) declared.ty
  | call {callee : Expr} {args : List Expr} {loc : Location} {ty : Ty} {params rest : List Ty} :
      HasType Γ callee (.function params (ty :: rest)) → ListFits Γ args params →
        HasType Γ (.call callee args loc) ty
  | unary {op : UnaryOp} {operand : Expr} {loc : Location} {ty ty' : Ty} :
      HasType Γ operand ty → op.Types ty ty' → HasType Γ (.unary op operand loc) ty'
  | binary {op : BinaryOp} {left right : Expr} {loc : Location} {ty ty' result : Ty} :
      HasType Γ left ty → HasType Γ right ty' → op.Joins ty ty' result →
        HasType Γ (.binary left op right loc) result
  | cast {expr : Expr} {type : TypeExpr} {loc : Location} {ty target : Ty} :
      HasType Γ expr ty → type.Denotes Γ.scopes target → ty.Suits target →
        HasType Γ (.cast expr type loc) target
  | paren {expr : Expr} {loc : Location} {ty : Ty} : HasType Γ expr ty →
      HasType Γ (.paren expr loc) ty

/-- The expression can stand where a value of the type is wanted. -/
inductive Expr.Fits (Γ : Context) : Expr → Ty → Prop
  | value {expr : Expr} {ty wanted : Ty} : HasType Γ expr ty → ty.Suits wanted →
      Fits Γ expr wanted
  | array {entries : List Entry} {loc : Location} {elem : Ty} : ItemsFit Γ elem entries →
      Fits Γ (.init entries loc) (.array elem)
  | table {entries : List Entry} {loc : Location} {wanted : Ty} {fields : NameMap Ty} :
      wanted.fields? = some fields → FieldsFit Γ fields entries → (Entry.names entries).Nodup →
        (∀ field ∈ fields, field.1 ∈ Entry.names entries) → Fits Γ (.init entries loc) wanted
  | module {loc : Location} {fields : NameMap Ty} : Fits Γ (.init [] loc) (.module fields)

/-- The values of the expressions can stand where values of the types are wanted. -/
inductive Expr.ListFits (Γ : Context) : List Expr → List Ty → Prop
  | nil : ListFits Γ [] []
  | cons {expr : Expr} {rest : List Expr} {ty : Ty} {tys : List Ty} :
      (rest = [] → expr.isCall = false) → Fits Γ expr ty → ListFits Γ rest tys →
        ListFits Γ (expr :: rest) (ty :: tys)
  | call {callee : Expr} {args : List Expr} {loc : Location} {params returns tys : List Ty} :
      HasType Γ callee (.function params returns) → ListFits Γ args params →
        List.Forall₂ Ty.Suits returns tys → ListFits Γ [.call callee args loc] tys

/-- The entries are items of an array. -/
inductive Expr.ItemsFit (Γ : Context) : Ty → List Entry → Prop
  | nil {elem : Ty} : ItemsFit Γ elem []
  | cons {elem : Ty} {value : Expr} {rest : List Entry} : Fits Γ value elem →
      ItemsFit Γ elem rest → ItemsFit Γ elem (.positional value :: rest)

/-- The entries give values to fields. -/
inductive Expr.FieldsFit (Γ : Context) : NameMap Ty → List Entry → Prop
  | nil {fields : NameMap Ty} : FieldsFit Γ fields []
  | cons {fields : NameMap Ty} {key : String} {value : Expr} {loc : Location} {ty : Ty}
      {rest : List Entry} : fields.lookup key = some ty → Fits Γ value ty →
        FieldsFit Γ fields rest → FieldsFit Γ fields (.named key value loc :: rest)

end

end Source

/-! ### Types in sight -/

/-- The types of the builtins and variables in scope, of the type names and of the module fields. -/
def Context.typesInSight (Γ : Context) : List Ty :=
  Γ.scopes.builtins.types ++ Γ.scopes.inner.flatMap (·.map (·.2.ty)) ++
    Γ.scopes.toplevel.map (·.2.ty) ++ Γ.scopes.types.map (·.2.ty) ++ Γ.module.fields.map (·.2.ty)

namespace Context

variable {Γ : Context} (hΓ : Known Γ.typesInSight)
include hΓ

theorem var_proper {name : String} {binding : Binding} (h : Γ.scopes.var? name = some binding) :
    binding.ty.proper true = true := by
  simp only [typesInSight, Known.append_iff, Known.flatMap_iff, Known.map_iff] at hΓ
  obtain ⟨⟨⟨⟨-, hinner⟩, htoplevel⟩, -⟩, -⟩ := hΓ
  rcases Scopes.var?_eq_some_iff.mp h with h | ⟨-, h⟩
  · obtain ⟨layer, hlayer, hb⟩ := List.exists_of_findSome?_eq_some h
    exact hinner layer hlayer _ (NameMap.mem_of_lookup hb)
  · exact htoplevel _ (NameMap.mem_of_lookup h)

theorem builtin_proper {name : String} {builtin : Builtin} {ty : Ty}
    (h : Γ.scopes.builtins.get? name = some builtin) (hty : ty ∈ Builtins.typesOf builtin) :
    ty.proper true = true := by
  simp only [typesInSight, Known.append_iff] at hΓ
  exact hΓ.1.1.1.1 ty (Builtins.mem_types_of_get? h hty)

theorem typeName_proper {name : String} {ty : Ty} (h : Γ.scopes.lookupType name = some ty) :
    ty.proper true = true := by
  simp only [typesInSight, Known.append_iff, Known.map_iff] at hΓ
  obtain ⟨declared, hd, rfl⟩ := Option.map_eq_some_iff.mp h
  exact hΓ.1.2 _ (NameMap.mem_of_lookup hd)

theorem moduleField_proper {field : String} {declared : Declared}
    (h : Γ.module.fields.lookup field = some declared) : declared.ty.proper true = true := by
  simp only [typesInSight, Known.append_iff, Known.map_iff] at hΓ
  exact hΓ.2 _ (NameMap.mem_of_lookup h)

end Context

namespace TypeExpr

variable {scopes : Scopes}

mutual

theorem Denotes.proper
    (hs : ∀ name ty, scopes.lookupType name = some ty → ty.proper true = true) :
    ∀ {type : TypeExpr} {ty : Ty}, type.Denotes scopes ty → ty.proper true = true
  | _, _, .nil | _, _, .boolean | _, _, .integer | _, _, .float | _, _, .string | _, _, .any => rfl
  | _, _, .name h => hs _ _ h
  | _, _, .array h => by
    rw [Ty.proper]
    exact h.proper hs
  | _, _, .table h _ => by
    rw [Ty.proper, Ty.properFields_iff]
    exact h.proper hs
  | _, _, .function hp hr => by
    rw [Ty.proper_function_iff]
    exact ⟨hp.proper hs, hr.proper hs⟩

theorem ListDenotes.proper
    (hs : ∀ name ty, scopes.lookupType name = some ty → ty.proper true = true) :
    ∀ {types : List TypeExpr} {tys : List Ty}, ListDenotes scopes types tys →
      ∀ ty ∈ tys, ty.proper true = true
  | _, _, .nil => by simp
  | _, _, .cons h hrest => List.forall_mem_cons.mpr ⟨h.proper hs, hrest.proper hs⟩

theorem FieldsDenote.proper
    (hs : ∀ name ty, scopes.lookupType name = some ty → ty.proper true = true) :
    ∀ {fields : List TypeField} {map : NameMap Ty}, FieldsDenote scopes fields map →
      ∀ entry ∈ map, entry.2.proper true = true
  | _, _, .nil => by simp
  | _, _, .cons h hrest => List.forall_mem_cons.mpr ⟨h.proper hs, hrest.proper hs⟩

end

end TypeExpr

theorem BinaryOp.Joins.proper {op : BinaryOp} {left right ty : Ty} (h : op.Joins left right ty) :
    ty.proper true = true := by
  cases h <;> rfl

/-- **No expression has a type with `unknown` in it.** -/
theorem Source.Expr.HasType.proper {Γ : Context} (hΓ : Known Γ.typesInSight) :
    ∀ {expr : Source.Expr} {ty : Ty}, expr.HasType Γ ty → ty.proper true = true
  | .nil _, _, h | .boolean _ _, _, h | .integer _ _, _, h | .float _ _, _, h
  | .string _ _, _, h => by
    cases h
    rfl
  | .init _ _, _, h => by cases h
  | .name _ _, _, h => by
    cases h with
    | var h => exact Context.var_proper hΓ h
    | builtin _ h => exact Context.builtin_proper hΓ h (by simp [Builtins.typesOf])
  | .index _ _ _, _, h => by
    cases h with
    | index h _ =>
      have hp := h.proper hΓ
      rwa [Ty.proper] at hp
  | .field _ _ _, _, h => by
    cases h with
    | member _ h hl =>
      exact Context.builtin_proper hΓ h (List.mem_map.mpr ⟨_, NameMap.mem_of_lookup hl, rfl⟩)
    | field h hf hl => exact Ty.proper_of_lookup (Ty.proper_of_fields? (h.proper hΓ) hf) hl
    | moduleField _ hl => exact Context.moduleField_proper hΓ hl
  | .call _ _ _, _, h => by
    cases h with
    | call h _ => exact (Ty.proper_function_iff.mp (h.proper hΓ)).2 _ List.mem_cons_self
  | .unary _ _ _, _, h => by
    cases h with
    | unary _ h => exact h.proper
  | .binary _ _ _ _, _, h => by
    cases h with
    | binary _ _ h => exact h.proper
  | .cast _ _ _, _, h => by
    cases h with
    | cast _ h _ => exact h.proper fun _ _ => Context.typeName_proper hΓ
  | .paren _ _, _, h => by
    cases h with
    | paren h => exact h.proper hΓ

end LuaTyping
