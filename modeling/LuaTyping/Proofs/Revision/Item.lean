import LuaTyping.Checking.Program
import LuaTyping.Proofs.Frame.Declare
import LuaTyping.Proofs.Revision.Stmt
import LuaTyping.Proofs.Undeclared.Edit

/-!
# Revised items

Items that declare no type name are checked in step with their revisions (`Item.check_inStep`), as
long as the revision puts the module type in the place of no name: `module` is a keyword that makes
a declaration that of the module variable.  Of the options only the one about scalar fields counts.

For records the step lemma is `recordFields_inStep`; what the declaration of a type name does to the
two maps of type names depends on the revision.
-/

namespace LuaTyping

open Report (InStep)

variable {strict : Prop} {ρ : Location → Location} {types : NameMap Declared} {Γ : Context}
  {r : Revision} {options options' : Options}

namespace Context

/-! ### The module -/

theorem declareField_inStep (hopt : options'.scalarFields = options.scalarFields)
    (field : String) (ty : Ty) (loc : Location) :
    (Γ.declareField options field ty loc).InStep strict ρ (revise ρ types)
      ((Γ.revise ρ types).declareField options' field ty (ρ loc)) := by
  unfold declareField ModuleDraft.declareField
  rw [hopt, field_revise]
  refine .bind .require fun _ _ => ?_
  cases Γ.module.fields.lookup field with
  | some previous => exact .bind .fault fun _ _ => .pure rfl
  | none =>
    refine .pure ?_
    simp [revise, NameMap.mapValues_insert, Declared.relocate]

theorem moduleInit_inStep (hres : r.Resolves strict Γ.scopes.types types) (name : String)
    (values : List Source.Expr) (loc : Location) :
    (Γ.moduleInit name values loc).InStep strict r.loc (Typed.Expr.relocate r.loc)
      ((Γ.revise r.loc types).moduleInit name (Source.Expr.reviseList r values) (r.loc loc)) := by
  have hother : (do
      Report.fault .nonEmptyModuleInit loc
      pure ⟨.moduleInit, .module [], loc⟩ : Report Typed.Expr).InStep strict r.loc
        (Typed.Expr.relocate r.loc) (do
          Report.fault .nonEmptyModuleInit (r.loc loc)
          pure ⟨.moduleInit, .module [], r.loc loc⟩) :=
    .bind .fault fun _ _ => .pure rfl
  cases values with
  | nil => exact hother
  | cons value rest =>
    cases rest with
    | cons next rest => cases value <;> exact hother
    | nil =>
      cases value with
      | init entries initLoc =>
        exact Source.Expr.check_inStep hres (.init entries initLoc) _
      | _ => exact hother

theorem declareModule_inStep (name : String) (nameLoc loc : Location) :
    (Γ.declareModule name nameLoc loc).InStep strict ρ (revise ρ types)
      ((Γ.revise ρ types).declareModule name (ρ nameLoc) (ρ loc)) := by
  have hvar : (Γ.revise ρ types).module.var = Γ.module.var.map fun var => (var.1, ρ var.2) := rfl
  unfold declareModule
  rw [hvar]
  cases Γ.module.var with
  | some first => exact .bind .fault fun _ _ => .pure rfl
  | none => exact declare_inStep name ⟨.module [], nameLoc, .module⟩

theorem moduleVar_inStep (hres : r.Resolves strict Γ.scopes.types types) (decl : Source.Decl)
    (values : List Source.Expr) (loc : Location) :
    (Γ.moduleVar decl values loc).InStep strict r.loc
      (Prod.map (Typed.Item.relocate r.loc) (revise r.loc types))
      ((Γ.revise r.loc types).moduleVar (decl.revise r) (Source.Expr.reviseList r values)
        (r.loc loc)) :=
  .bind (moduleInit_inStep hres decl.name values loc) fun _ _ =>
    .bind (declareModule_inStep decl.name decl.loc loc) fun _ _ => .pure rfl

theorem moduleReturn_inStep (hres : r.Resolves strict Γ.scopes.types types)
    (values : List Source.Expr) (loc : Location) :
    (Γ.moduleReturn values loc).InStep strict r.loc (Option.map (Typed.Item.relocate r.loc))
      ((Γ.revise r.loc types).moduleReturn (Source.Expr.reviseList r values) (r.loc loc)) := by
  unfold moduleReturn
  rw [Source.Expr.reviseList_eq_map]
  refine .bind (.mapM fun value => value.check_inStep hres .value) fun typed _ => ?_
  match typed with
  | [] => exact .bind .fault fun _ _ => .pure rfl
  | [value] =>
    obtain ⟨kind, ty, valueLoc⟩ := value
    simp only [List.map_cons, List.map_nil, name?_revise]
    cases kind <;> exact .bind .require fun _ _ => .pure rfl
  | value :: next :: rest =>
    rw [List.length_map]
    exact .bind .fault fun _ _ => .pure rfl

/-! ### Functions -/

theorem param_inStep (hres : r.Resolves strict Γ.scopes.types types) (decl : Source.Decl) :
    (Γ.param decl).InStep strict r.loc (Typed.Decl.relocate r.loc)
      ((Γ.revise r.loc types).param (decl.revise r)) :=
  .bind (decl.stated_inStep hres) fun _ _ => .bind .require fun _ _ => .pure rfl

theorem declareFunction_inStep (hopt : options'.scalarFields = options.scalarFields)
    (name : Source.FunctionName) (ty : Ty) (loc : Location) :
    (declareFunction options Γ name ty loc).InStep strict ρ (revise ρ types)
      (declareFunction options' (Γ.revise ρ types) name ty (ρ loc)) := by
  cases name with
  | plain name => exact declare_inStep name ⟨ty, loc, .toplevel⟩
  | member module field =>
    simp only [declareFunction, isModuleVar_revise, lookup_revise]
    split
    · exact declareField_inStep hopt field ty loc
    · cases Γ.scopes.lookup module with
      | some resolved => exact .bind .fault fun _ _ => .pure rfl
      | none => exact .bind .fault fun _ _ => .pure rfl

theorem functionBody_inStep (hres : r.Resolves strict Γ.scopes.types types)
    (params : List Typed.Decl) (returns : List Ty) (body : Source.Block) (loc : Location) :
    (Γ.functionBody params returns body loc).InStep strict r.loc
      (Typed.Stmt.relocateBlock r.loc)
      ((Γ.revise r.loc types).functionBody (params.map (Typed.Decl.relocate r.loc)) returns
        (Source.Stmt.reviseBlock r body) (r.loc loc)) := by
  have henter : (Γ.revise r.loc types).enterFunction returns =
      (Γ.enterFunction returns).revise r.loc types := rfl
  unfold functionBody
  rw [henter, Source.Stmt.returns_reviseBlock]
  refine .bind (declareAll_inStep .inner params _) fun Δ hΔ => ?_
  have htypes : Δ.scopes.types = Γ.scopes.types := by
    rw [← hΔ]
    exact declareAll_sameButVars.scopes.types
  exact .bind (Source.Stmt.checkBlock_inStep body (htypes ▸ hres)) fun _ _ =>
    .bind .require fun _ _ => .pure rfl

theorem function_inStep (hopt : options'.scalarFields = options.scalarFields)
    (hres : r.Resolves strict Γ.scopes.types types) (decl : Source.Function) :
    (function options Γ decl).InStep strict r.loc
      (Prod.map (Typed.Item.relocate r.loc) (revise r.loc types))
      (function options' (Γ.revise r.loc types) (decl.revise r)) := by
  unfold function
  refine .bind (.mapM (param_inStep hres)) fun params _ =>
    .bind (TypeExpr.resolveList_inStep hres decl.returns decl.loc) fun returns _ => ?_
  have hty : (params.map (Typed.Decl.relocate r.loc)).map (·.ty) = params.map (·.ty) := by
    rw [List.map_map]
    rfl
  rw [hty]
  refine .bind (declareFunction_inStep hopt decl.name _ decl.loc) fun Δ hΔ => ?_
  have htypes : Δ.scopes.types = Γ.scopes.types := by
    rw [← hΔ]
    exact scopes_declareFunction.types
  exact .bind (functionBody_inStep (htypes ▸ hres) params returns decl.body decl.loc) fun _ _ =>
    .pure rfl

end Context

/-! ### Assignments -/

/-- The target with its locations moved. -/
def ItemTarget.relocate (ρ : Location → Location) : ItemTarget → ItemTarget
  | .existing target => .existing (target.map (Typed.Target.relocate ρ))
  | target => target

theorem ItemTarget.expected_relocate (target : ItemTarget) :
    (target.relocate ρ).expected = target.expected := by
  cases target with
  | existing target => simp [relocate, expected, Context.wanted_relocate]
  | newField module field => rfl

namespace Context

theorem moduleField?_revise (expr : Source.Expr) :
    (Γ.revise ρ types).moduleField? (expr.revise r) = Γ.moduleField? expr := by
  cases expr with
  | field object field loc =>
    cases object <;> simp [Source.Expr.revise, moduleField?, isModuleVar_revise]
  | _ => simp [Source.Expr.revise, moduleField?]

theorem itemTarget_inStep (hres : r.Resolves strict Γ.scopes.types types) (expr : Source.Expr) :
    (Γ.itemTarget expr).InStep strict r.loc (ItemTarget.relocate r.loc)
      ((Γ.revise r.loc types).itemTarget (expr.revise r)) := by
  unfold itemTarget
  rw [moduleField?_revise]
  cases Γ.moduleField? expr with
  | none => exact .bind (target_inStep hres expr) fun _ _ => .pure rfl
  | some found =>
    obtain ⟨module, field⟩ := found
    simp only [field_revise, Source.Expr.loc_revise]
    cases Γ.module.fields.lookup field with
    | some previous => exact .bind .fault fun _ _ => .pure rfl
    | none => exact .pure rfl

theorem declareFields_inStep (hopt : options'.scalarFields = options.scalarFields) (loc : Location)
    (targets : List ItemTarget) (tys : List Ty) (Γ : Context) :
    (declareFields options loc targets tys Γ).InStep strict ρ
      (Prod.map (List.map (Typed.Target.relocate ρ)) (revise ρ types))
      (declareFields options' (ρ loc) (targets.map (ItemTarget.relocate ρ)) tys
        (Γ.revise ρ types)) := by
  induction targets generalizing tys Γ with
  | nil => exact .pure rfl
  | cons target rest ih =>
    cases target with
    | existing target =>
      refine .bind (ih tys.tail Γ) fun declared _ => .pure ?_
      cases target <;> simp [Prod.map]
    | newField module field =>
      exact .bind (declareField_inStep hopt field _ loc) fun Δ _ =>
        .bind (ih tys.tail Δ) fun _ _ => .pure rfl

theorem itemAssign_inStep (hopt : options'.scalarFields = options.scalarFields)
    (hres : r.Resolves strict Γ.scopes.types types) (targets values : List Source.Expr)
    (loc : Location) :
    (itemAssign options Γ targets values loc).InStep strict r.loc
      (Prod.map (Typed.Item.relocate r.loc) (revise r.loc types))
      (itemAssign options' (Γ.revise r.loc types) (Source.Expr.reviseList r targets)
        (Source.Expr.reviseList r values) (r.loc loc)) := by
  unfold itemAssign
  rw [Source.Expr.reviseList_eq_map targets, List.length_map]
  refine .bind (.mapM (itemTarget_inStep hres)) fun found _ => ?_
  simp only [List.map_map, Function.comp_def, ItemTarget.expected_relocate]
  exact .bind (Source.Expr.checkValues_inStep hres _ values _ 0) fun list _ =>
    .bind .require fun _ _ => .bind (declareFields_inStep hopt loc found list.types Γ) fun _ _ =>
    .pure rfl

/-! ### Records -/

theorem recordFields_inStep (hres : r.Resolves strict Γ.scopes.types types) (record : String)
    (decls : List Source.Decl) (known : NameMap Ty) :
    (Γ.recordFields record decls known).InStep strict r.loc (fun fields => fields)
      ((Γ.revise r.loc types).recordFields record (decls.map (Source.Decl.revise r)) known) := by
  induction decls generalizing known with
  | nil => exact .pure rfl
  | cons decl rest ih =>
    simp only [List.map_cons, recordFields]
    refine .bind (decl.stated_inStep hres) fun stated _ => .bind .require fun _ _ => ?_
    have hname : (decl.revise r).name = decl.name := rfl
    rw [hname]
    split
    · exact .bind .fault fun _ _ => ih known
    · exact ih _

end Context

/-! ### Items -/

namespace Source.Item

/-- Items that declare no type name keep the type names. -/
theorem check_types {item : Item} (h : item.typeName? = none) :
    (item.check options Γ).value.2.scopes.types = Γ.scopes.types := by
  unfold check
  split <;> simp only [Report.value_bind, Report.value_pure]
  · exact Context.scopes_declareModule.types
  · exact Context.declareAll_sameButVars.scopes.types
  · exact Context.scopes_declareFunction.types
  · exact congrArg Scopes.types Context.scopes_declareFields
  · simp [typeName?] at h
  · simp [typeName?] at h

/-- A declaration that a revision makes that of the module variable was that before. -/
theorem eq_module_of_revise (hname : ∀ text loc, (r.name text loc).isModule = false)
    {decls : List Decl} {name : String} {nameLoc : Location}
    (h : decls.map (Decl.revise r) = [⟨name, some .module, nameLoc⟩]) :
    ∃ loc, decls = [⟨name, some .module, loc⟩] := by
  obtain ⟨⟨text, type, loc⟩, rfl, hdecl⟩ := List.map_eq_singleton_iff.mp h
  simp only [Decl.revise, Decl.mk.injEq, Option.map_eq_some_iff] at hdecl
  obtain ⟨rfl, ⟨type, rfl, htype⟩, -⟩ := hdecl
  cases type with
  | module => exact ⟨loc, rfl⟩
  | name text loc =>
    have hmodule : (r.name text loc).isModule = true := by
      rw [TypeExpr.revise] at htype
      rw [htype]
      rfl
    rw [hname text loc] at hmodule
    cases hmodule
  | _ => simp [TypeExpr.revise] at htype

/-- **Items that declare no type name are checked in step with their revisions.** -/
theorem check_inStep (hopt : options'.scalarFields = options.scalarFields)
    (hname : ∀ text loc, (r.name text loc).isModule = false)
    (hres : r.Resolves strict Γ.scopes.types types) {item : Item}
    (hitem : item.typeName? = none) :
    (item.check options Γ).InStep strict r.loc
      (Prod.map (Option.map (Typed.Item.relocate r.loc)) (Context.revise r.loc types))
      ((item.revise r).check options' (Γ.revise r.loc types)) := by
  cases item with
  | var decls values loc =>
    by_cases hmodule : ∃ name nameLoc, decls = [⟨name, some .module, nameLoc⟩]
    · obtain ⟨name, nameLoc, rfl⟩ := hmodule
      exact .bind (Context.moduleVar_inStep hres ⟨name, some .module, nameLoc⟩ values loc)
        fun _ _ => .pure rfl
    · have hd : ∀ name nameLoc, decls ≠ [⟨name, some .module, nameLoc⟩] := by
        intro name nameLoc h
        exact hmodule ⟨name, nameLoc, h⟩
      have hd' : ∀ name nameLoc,
          decls.map (Decl.revise r) ≠ [⟨name, some .module, nameLoc⟩] := by
        intro name nameLoc h
        obtain ⟨loc, h⟩ := eq_module_of_revise hname h
        exact hmodule ⟨name, loc, h⟩
      rw [check_var hd, revise, check_var hd']
      exact .bind (Context.declareVars_inStep hres decls values loc) fun _ _ => .pure rfl
  | function decl => exact .bind (Context.function_inStep hopt hres decl) fun _ _ => .pure rfl
  | assign targets values loc =>
    exact .bind (Context.itemAssign_inStep hopt hres targets values loc) fun _ _ => .pure rfl
  | record name fields loc => simp [typeName?] at hitem
  | «alias» name type loc => simp [typeName?] at hitem
  | ret values loc =>
    exact .bind (Context.moduleReturn_inStep hres values loc) fun _ _ => .pure rfl

end Source.Item

/-- Neither locations nor type names show in what others know of a module. -/
theorem Source.Program.assemble_revise (name : String) (items : List Typed.Item) :
    assemble name items (Γ.revise ρ types) = assemble name items Γ := by
  simp [assemble, Context.revise, ModuleDraft.exports, NameMap.mapValues, Declared.relocate,
    Binding.relocate, Function.comp_def]

end LuaTyping
