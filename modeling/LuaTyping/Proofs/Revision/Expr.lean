import LuaTyping.Checking.Expr
import LuaTyping.Proofs.Revision.Report

/-!
# Revised expressions

The revised program is checked in a context with the same variables and module, their locations
moved, and with type names of its own (`Context.revise`).  Where the revised type names resolve in
step with the original ones (`Revision.Resolves`), so do the annotations (`TypeExpr.resolve_inStep`),
and expressions are checked in step (`Expr.check_inStep`).
-/

namespace LuaTyping

open Report (InStep)

/-! ### Contexts -/

/-- The variable with its location moved. -/
def Binding.relocate (ρ : Location → Location) (binding : Binding) : Binding :=
  { binding with loc := ρ binding.loc }

/-- The declared type with its location moved. -/
def Declared.relocate (ρ : Location → Location) (declared : Declared) : Declared :=
  { declared with loc := ρ declared.loc }

/-- What a name stands for, with its location moved. -/
def Resolved.relocate (ρ : Location → Location) : Resolved → Resolved
  | .var binding => .var (binding.relocate ρ)
  | resolved => resolved

namespace Context

/-- The context with the locations of its variables and of its module moved, and with other type
names. -/
def revise (ρ : Location → Location) (types : NameMap Declared) (Γ : Context) : Context where
  scopes :=
    { builtins := Γ.scopes.builtins
      inner := Γ.scopes.inner.map (NameMap.mapValues (Binding.relocate ρ))
      toplevel := Γ.scopes.toplevel.mapValues (Binding.relocate ρ)
      types := types }
  module :=
    { var := Γ.module.var.map fun var => (var.1, ρ var.2)
      fields := Γ.module.fields.mapValues (Declared.relocate ρ) }
  returns := Γ.returns
  inLoop := Γ.inLoop

variable {strict : Prop} {ρ : Location → Location} {types : NameMap Declared} {Γ : Context}

theorem var?_revise (name : String) :
    (Γ.revise ρ types).scopes.var? name = (Γ.scopes.var? name).map (Binding.relocate ρ) := by
  have hinner : ((Γ.revise ρ types).scopes.inner.findSome? (·.lookup name)) =
      (Γ.scopes.inner.findSome? (·.lookup name)).map (Binding.relocate ρ) := by
    simp only [revise]
    induction Γ.scopes.inner with
    | nil => rfl
    | cons layer outer ih =>
      rw [List.map_cons, List.findSome?_cons, List.findSome?_cons, NameMap.lookup_mapValues, ih]
      cases layer.lookup name <;> rfl
  unfold Scopes.var?
  rw [hinner]
  simp only [revise, NameMap.lookup_mapValues, Option.map_or]

theorem lookup_revise (name : String) :
    (Γ.revise ρ types).scopes.lookup name =
      (Γ.scopes.lookup name).map (Resolved.relocate ρ) := by
  have hbuiltins : (Γ.revise ρ types).scopes.builtins = Γ.scopes.builtins := rfl
  unfold Scopes.lookup
  rw [var?_revise, hbuiltins]
  cases Γ.scopes.var? name with
  | some binding => rfl
  | none =>
    cases Γ.scopes.builtins.get? name with
    | none => rfl
    | some builtin => cases builtin <;> rfl

theorem name?_revise : (Γ.revise ρ types).module.name? = Γ.module.name? := by
  simp [revise, ModuleDraft.name?, Function.comp_def]

theorem field_revise (field : String) :
    (Γ.revise ρ types).module.fields.lookup field =
      (Γ.module.fields.lookup field).map (Declared.relocate ρ) := by
  simp only [revise, NameMap.lookup_mapValues]

theorem library?_revise {r : Revision} (expr : Source.Expr) :
    (Γ.revise ρ types).library? (expr.revise r) = Γ.library? expr := by
  unfold library?
  rw [Source.Expr.name?_revise]
  cases expr.name? with
  | none => rfl
  | some name =>
    dsimp only
    rw [lookup_revise]
    rcases Γ.scopes.lookup name with - | (_ | _ | _) <;> rfl

theorem isModuleVar_revise (name : String) :
    (Γ.revise ρ types).isModuleVar name = Γ.isModuleVar name := by
  unfold isModuleVar
  rw [lookup_revise]
  rcases Γ.scopes.lookup name with - | (_ | _ | _) <;> rfl

/-! ### Names and members -/

theorem nameExpr_inStep (name : String) (loc : Location) :
    (Γ.nameExpr name loc).InStep strict ρ (Typed.Expr.relocate ρ)
      ((Γ.revise ρ types).nameExpr name (ρ loc)) := by
  unfold nameExpr
  rw [lookup_revise]
  rcases Γ.scopes.lookup name with - | (⟨ty, declLoc, _ | _ | _⟩ | ty | members)
  · exact .bind .fault fun _ _ => .pure rfl
  · exact .pure rfl
  · exact .pure rfl
  · exact .pure rfl
  · exact .pure rfl
  · exact .bind .fault fun _ _ => .pure rfl

theorem fieldExpr_inStep (object : Typed.Expr) (field : String) (loc : Location) :
    (Γ.fieldExpr object field loc).InStep strict ρ (Typed.Expr.relocate ρ)
      ((Γ.revise ρ types).fieldExpr (object.relocate ρ) field (ρ loc)) := by
  have hfield : ((Γ.revise ρ types).module.fields.lookup field).map (·.ty) =
      (Γ.module.fields.lookup field).map (·.ty) := by
    rw [field_revise, Option.map_map]
    rfl
  have hpure : ∀ ty : Ty, (⟨.field (object.relocate ρ) field, ty, ρ loc⟩ : Typed.Expr) =
      Typed.Expr.relocate ρ ⟨.field object field, ty, loc⟩ := by
    intro ty
    simp only [Typed.Expr.relocate, Typed.ExprKind.relocate]
  unfold fieldExpr
  rw [Typed.Expr.ty_relocate, name?_revise, hfield]
  split
  · exact .bind .orUnknown fun ty _ => .pure (hpure ty)
  · exact .bind .orUnknown fun ty _ => .pure (hpure ty)
  · exact .bind .orUnknown fun ty _ => .pure rfl
  · exact .pure (hpure .unknown)
  · exact .bind .fault fun _ _ => .pure (hpure .unknown)

end Context

variable {strict : Prop} {ρ : Location → Location}

theorem Typed.Expr.ofMember_inStep (library : String) (members : NameMap Ty) (field : String)
    (loc : Location) :
    (ofMember library members field loc).InStep strict ρ (relocate ρ)
      (ofMember library members field (ρ loc)) :=
  .bind .orUnknown fun _ _ => .pure rfl

theorem Ty.element_inStep (ty : Ty) (loc : Location) :
    (ty.element loc).InStep strict ρ (fun ty => ty) (ty.element (ρ loc)) := by
  cases ty with
  | array elem => exact .pure rfl
  | unknown => exact .pure rfl
  | _ => exact .bind .fault fun _ _ => .pure rfl

/-! ### Annotations -/

/-- The revised type names resolve in the second map in step with the type names in the first. -/
def Revision.Resolves (strict : Prop) (r : Revision) (first second : NameMap Declared) : Prop :=
  ∀ ⦃scopes scopes' : Scopes⦄, scopes.types = first → scopes'.types = second →
    ∀ (text : String) (loc site : Location),
      ((TypeExpr.name text loc).resolve scopes site).InStep strict r.loc (fun ty => ty)
        ((r.name text loc).resolve scopes' (r.loc site))

namespace TypeExpr

variable {r : Revision} {scopes scopes' : Scopes}

mutual

/-- **Annotations resolve in step with their revisions.** -/
theorem resolve_inStep (hres : r.Resolves strict scopes.types scopes'.types) :
    ∀ (type : TypeExpr) (site : Location),
      (type.resolve scopes site).InStep strict r.loc (fun ty => ty)
        ((type.revise r).resolve scopes' (r.loc site))
  | .nil, _ | .boolean, _ | .integer, _ | .float, _ | .string, _ | .any, _ => by
    simp only [revise, resolve]
    exact .pure rfl
  | .module, site => by
    simp only [revise, resolve]
    exact .bind .fault fun _ _ => .pure rfl
  | .name text loc, site => by
    simp only [revise]
    exact hres rfl rfl text loc site
  | .array elem loc, _ => by
    simp only [revise, resolve]
    exact .bind (resolve_inStep hres elem loc) fun _ _ => .pure rfl
  | .table fields loc, _ => by
    simp only [revise, resolve]
    exact .bind (resolveFields_inStep hres fields []) fun _ _ => .pure rfl
  | .function params returns loc, _ => by
    simp only [revise, resolve]
    exact .bind (resolveList_inStep hres params loc) fun _ _ =>
      .bind (resolveList_inStep hres returns loc) fun _ _ => .pure rfl

theorem resolveList_inStep (hres : r.Resolves strict scopes.types scopes'.types) :
    ∀ (types : List TypeExpr) (site : Location),
      (resolveList scopes types site).InStep strict r.loc (fun tys => tys)
        (resolveList scopes' (reviseList r types) (r.loc site))
  | [], _ => by
    simp only [reviseList, resolveList]
    exact .pure rfl
  | type :: rest, site => by
    simp only [reviseList, resolveList]
    exact .bind (resolve_inStep hres type site) fun _ _ =>
      .bind (resolveList_inStep hres rest site) fun _ _ => .pure rfl

theorem resolveFields_inStep (hres : r.Resolves strict scopes.types scopes'.types) :
    ∀ (fields : List TypeField) (known : NameMap Ty),
      (resolveFields scopes fields known).InStep strict r.loc (fun fields => fields)
        (resolveFields scopes' (reviseFields r fields) known)
  | [], _ => by
    simp only [reviseFields, resolveFields]
    exact .pure rfl
  | ⟨key, type, loc⟩ :: rest, known => by
    simp only [reviseFields, resolveFields]
    refine .bind (resolve_inStep hres type loc) fun ty _ => ?_
    split
    · exact .bind .fault fun _ _ => resolveFields_inStep hres rest known
    · exact resolveFields_inStep hres rest _

end

end TypeExpr

/-! ### Expressions -/

theorem Source.Entry.names_revise {r : Revision} (entries : List Entry) :
    names (Expr.reviseEntries r entries) = names entries := by
  induction entries with
  | nil => rfl
  | cons entry rest ih => cases entry <;> simp only [Expr.reviseEntries, names, ih]

theorem requireFields_inStep (target : Ty) (loc : Location) (given : List String)
    (fields : List (String × Ty)) :
    (requireFields target loc given fields).InStep strict ρ (fun u => u)
      (requireFields target (ρ loc) given fields) := by
  induction fields with
  | nil => exact .pure rfl
  | cons entry rest ih => exact .bind .require fun _ _ => ih

namespace Source.Expr

variable {r : Revision} {types : NameMap Declared} {Γ : Context}

mutual

/-- **Expressions are checked in step with their revisions.** -/
theorem check_inStep (hres : r.Resolves strict Γ.scopes.types types) :
    ∀ (expr : Source.Expr) (demand : Demand),
      (check Γ expr demand).InStep strict r.loc (Typed.Expr.relocate r.loc)
        (check (Γ.revise r.loc types) (expr.revise r) demand)
  | .nil _, demand | .boolean _ _, demand | .integer _ _, demand | .float _ _, demand
  | .string _ _, demand => by
    simp only [revise, check]
    exact demand.settle_inStep rfl
  | .init entries loc, .ofType ⟨target, site⟩ => by
    cases target with
    | array elem =>
      simp only [revise, check]
      refine .bind (checkItems_inStep hres elem entries) fun items _ => .pure ?_
      simp only [Typed.Expr.relocate, Typed.ExprKind.relocate, Typed.Expr.relocateList_eq_map]
    | table fields | record _ fields =>
      simp only [revise, check, Entry.names_revise]
      exact .bind (checkFields_inStep hres _ fields entries []) fun items _ =>
        .bind (requireFields_inStep _ loc _ fields) fun _ _ => .pure rfl
    | module fields =>
      simp only [revise, check, isEmpty_reviseEntries]
      exact .bind .require fun _ _ => .pure rfl
    | unknown =>
      simp only [revise, check]
      exact .pure rfl
    | _ =>
      simp only [revise, check]
      exact .bind .fault fun _ _ => .pure rfl
  | .init entries loc, .value | .init entries loc, .results => by
    simp only [revise, check]
    exact .bind .fault fun _ _ => .bind (checkUntyped_inStep hres entries) fun _ _ => .pure rfl
  | .name text loc, demand => by
    simp only [revise, check]
    exact .bind (Context.nameExpr_inStep text loc) fun expr _ => demand.settle_inStep rfl
  | .index object key loc, demand => by
    simp only [revise, check]
    refine .bind (check_inStep hres object .value) fun array _ => ?_
    rw [Typed.Expr.ty_relocate]
    refine .bind (array.ty.element_inStep loc) fun elem _ =>
      .bind (check_inStep hres key _) fun key _ => demand.settle_inStep ?_
    simp only [Typed.Expr.relocate, Typed.ExprKind.relocate]
  | .field object key loc, demand => by
    simp only [revise, check, Context.library?_revise]
    split
    · exact .bind (Typed.Expr.ofMember_inStep _ _ key loc) fun expr _ => demand.settle_inStep rfl
    · exact .bind (check_inStep hres object .value) fun object _ =>
        .bind (Context.fieldExpr_inStep object key loc) fun expr _ => demand.settle_inStep rfl
  | .call callee args loc, demand => by
    simp only [revise, check]
    refine .bind (check_inStep hres callee .value) fun callee _ => ?_
    have hcall : ∀ (values : Values) (returns : List Ty) (ty : Ty),
        (demand.settle ⟨.call callee values.exprs returns, ty, loc⟩).InStep strict r.loc
          (Typed.Expr.relocate r.loc)
          (demand.settle ⟨.call (callee.relocate r.loc) (values.relocate r.loc).exprs returns, ty,
            r.loc loc⟩) := by
      intro values returns ty
      apply demand.settle_inStep
      simp only [Typed.Expr.relocate, Typed.ExprKind.relocate, Typed.Expr.relocateList_eq_map,
        Values.relocate]
    rw [Typed.Expr.ty_relocate]
    split
    · exact .bind (checkValues_inStep hres _ args _ 0) fun values _ =>
        .bind .require fun _ _ => hcall values _ _
    · exact .bind .require fun _ _ => .bind (checkValues_inStep hres _ args _ 0) fun values _ =>
        hcall values _ _
  | .unary op operand loc, demand => by
    simp only [revise, check]
    exact .bind (check_inStep hres operand .value) fun operand _ =>
      .bind (operand.unary_inStep op loc) fun expr _ => demand.settle_inStep rfl
  | .binary left op right loc, demand => by
    simp only [revise, check]
    exact .bind (check_inStep hres left .value) fun left _ =>
      .bind (check_inStep hres right .value) fun right _ =>
      .bind (left.binary_inStep op right loc) fun expr _ => demand.settle_inStep rfl
  | .cast expr target loc, demand => by
    simp only [revise, check]
    refine .bind (check_inStep hres expr .value) fun expr _ =>
      .bind (target.resolve_inStep hres loc) fun ty _ => ?_
    rw [Typed.Expr.ty_relocate]
    refine .bind .require fun _ _ => demand.settle_inStep ?_
    simp only [Typed.Expr.relocate, Typed.ExprKind.relocate]
  | .paren expr loc, demand => by
    simp only [revise, check]
    refine .bind (check_inStep hres expr .value) fun expr _ => demand.settle_inStep ?_
    simp only [Typed.Expr.relocate, Typed.ExprKind.relocate, Typed.Expr.ty_relocate]

theorem checkValues_inStep (hres : r.Resolves strict Γ.scopes.types types) (site : Nat → Site) :
    ∀ (exprs : List Source.Expr) (expected : List (Option Ty)) (position : Nat),
      (checkValues Γ site exprs expected position).InStep strict r.loc (Values.relocate r.loc)
        (checkValues (Γ.revise r.loc types) site (reviseList r exprs) expected position)
  | [], _, _ => by
    simp only [reviseList, checkValues]
    exact .pure rfl
  | expr :: rest, expected, position => by
    simp only [reviseList, checkValues, isEmpty_reviseList, isCall_revise]
    split
    · exact .bind (check_inStep hres expr .results) fun call _ =>
        Values.ofCall_inStep call expected site position
    · exact .bind (check_inStep hres expr _) fun value _ =>
        .bind (checkValues_inStep hres site rest _ _) fun values _ =>
        .pure (Values.cons_relocate value values).symm

theorem checkItems_inStep (hres : r.Resolves strict Γ.scopes.types types) (elem : Ty) :
    ∀ entries : List Entry,
      (checkItems Γ elem entries).InStep strict r.loc (List.map (Typed.Expr.relocate r.loc))
        (checkItems (Γ.revise r.loc types) elem (reviseEntries r entries))
  | [] => by
    simp only [reviseEntries, checkItems]
    exact .pure rfl
  | .positional value :: rest => by
    simp only [reviseEntries, checkItems]
    exact .bind (check_inStep hres value _) fun _ _ =>
      .bind (checkItems_inStep hres elem rest) fun _ _ => .pure rfl
  | .named key _ loc :: rest => by
    simp only [reviseEntries, checkItems]
    exact .bind .fault fun _ _ => checkItems_inStep hres elem rest

theorem checkFields_inStep (hres : r.Resolves strict Γ.scopes.types types) (target : Ty)
    (fields : List (String × Ty)) : ∀ (entries : List Entry) (seen : List String),
      (checkFields Γ target fields entries seen).InStep strict r.loc
        (Typed.Expr.relocateEntries r.loc)
        (checkFields (Γ.revise r.loc types) target fields (reviseEntries r entries) seen)
  | [], _ => by
    simp only [reviseEntries, checkFields]
    exact .pure rfl
  | .positional value :: rest, seen => by
    simp only [reviseEntries, checkFields, loc_revise]
    exact .bind .fault fun _ _ => checkFields_inStep hres target fields rest seen
  | .named key value loc :: rest, seen => by
    simp only [reviseEntries, checkFields]
    split
    · exact .bind .fault fun _ _ => checkFields_inStep hres target fields rest seen
    · split
      · exact .bind (check_inStep hres value _) fun _ _ =>
          .bind (checkFields_inStep hres target fields rest _) fun _ _ => .pure rfl
      · exact .bind .fault fun _ _ => checkFields_inStep hres target fields rest _

theorem checkUntyped_inStep (hres : r.Resolves strict Γ.scopes.types types) :
    ∀ entries : List Entry,
      (checkUntyped Γ entries).InStep strict r.loc (fun u => u)
        (checkUntyped (Γ.revise r.loc types) (reviseEntries r entries))
  | [] => by
    simp only [reviseEntries, checkUntyped]
    exact .pure rfl
  | .positional value :: rest | .named _ value _ :: rest => by
    simp only [reviseEntries, checkUntyped, isInit_revise]
    split
    · exact checkUntyped_inStep hres rest
    · exact .bind (check_inStep hres value _) fun _ _ => checkUntyped_inStep hres rest

end

end Source.Expr

end LuaTyping
