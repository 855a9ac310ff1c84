import LuaTyping.Proofs.Frame.Program
import LuaTyping.Proofs.Stack.Stmt

/-!
# Programs with a stack

The items of a program are checked in one state as well.  The body of a function runs in a layer for
its parameters, with the loops and the function around it put aside; the end of a program looks at
its last index, at its first item and at the toplevel layer.

`Program.onStack_eq_check` is the result: checking with a stack never gets stuck, and it gives what
checking with contexts gives.  The log of a run is the list of the moments of the program
(`Program.runOnStack_eq`).
-/

namespace LuaTyping

/-! ### Items that declare no variables -/

namespace Context

variable {Γ : Context} {options : Options} {loc : Location}

theorem SameVars.refl : Γ.SameVars Γ :=
  ⟨_, _, rfl⟩

theorem declareField_sameVars {field : String} {ty : Ty} :
    Γ.SameVars (Γ.declareField options field ty loc).value := by
  unfold declareField ModuleDraft.declareField
  cases Γ.module.fields.lookup field <;> exact ⟨_, _, rfl⟩

theorem declareType_sameVars {name : String} {ty : Ty} :
    Γ.SameVars (Γ.declareType name ty loc).value := by
  unfold declareType Scopes.declareType
  cases Γ.scopes.types.lookup name <;> exact ⟨_, _, rfl⟩

theorem declareFunction_sameVars {module field : String} {ty : Ty} :
    Γ.SameVars (declareFunction options Γ (.member module field) ty loc).value := by
  simp only [declareFunction]
  split
  · exact declareField_sameVars
  · cases Γ.scopes.lookup module <;> exact .refl

end Context

/-! ### Items -/

namespace Stack

/-- Declares the module variable, which is done once. -/
def declareModule (name : String) (nameLoc loc : Location) : Run Unit := do
  let Γ ← view
  match Γ.module.var with
  | some (_, first) => emit (Report.fault (.multipleModuleVariables first) loc)
  | none =>
    adopt fun Γ => pure { Γ with module := { Γ.module with var := some (name, nameLoc) } }
    declare name ⟨.module [], nameLoc, .module⟩

/-- Types the declaration of the module variable. -/
def moduleVar (decl : Source.Decl) (values : List Source.Expr) (loc : Location) :
    Run Typed.Item := do
  let value ← look (·.moduleInit decl.name values loc)
  declareModule decl.name decl.loc loc
  pure (.var [.plain decl.name (.module []) decl.loc] [value] loc)

/-- Declares a function under its name, as a toplevel variable or as a field of the module. -/
def declareFunction (options : Options) (name : Source.FunctionName) (ty : Ty) (loc : Location) :
    Run Unit :=
  match name with
  | .plain name => declare name ⟨ty, loc, .toplevel⟩
  | .member module field =>
    adopt (Context.declareFunction options · (.member module field) ty loc)

/-- Types the body of a function, which sees the parameters and the function itself. -/
def functionBody (params : List Typed.Decl) (returns : List Ty) (body : Source.Block)
    (loc : Location) : Run Typed.Block :=
  layered do
    declareAll .inner params
    inFunction returns do
      let typed ← Source.Stmt.blockOnStack body
      emit (Report.require (returns.isEmpty || Source.Block.returns body) .missingReturn loc)
      pure typed

/-- Types a function. -/
def function (options : Options) (decl : Source.Function) : Run Typed.Item := do
  let params ← look fun Γ => decl.params.mapM Γ.param
  let returns ← look fun Γ => TypeExpr.resolveList Γ.scopes decl.returns decl.loc
  let ty := Ty.function (params.map (·.ty)) returns
  declareFunction options decl.name ty decl.loc
  let body ← functionBody params returns decl.body decl.loc
  pure (.function ⟨decl.name, params, ty, body, decl.loc⟩)

/-- Declares the new fields among the targets with the types of their values. -/
def declareFields (options : Options) (loc : Location) :
    List ItemTarget → List Ty → Run (List Typed.Target)
  | [], _ => pure []
  | .existing target :: rest, types => do
    let targets ← declareFields options loc rest types.tail
    pure (target.toList ++ targets)
  | .newField module field :: rest, types => do
    let ty := types.headD .unknown
    adopt (·.declareField options field ty loc)
    let targets ← declareFields options loc rest types.tail
    pure (.moduleField module field ty :: targets)

/-- Types a toplevel assignment. -/
def itemAssign (options : Options) (targets values : List Source.Expr) (loc : Location) :
    Run Typed.Item := do
  let found ← look fun Γ => targets.mapM Γ.itemTarget
  let expected := found.map ItemTarget.expected
  let list ← look fun Γ => Source.Expr.checkValues Γ (fun _ => .assignment) values expected 0
  emit (Report.require (list.fits targets.length)
    (.assignArity targets.length list.types.length) loc)
  let typed ← declareFields options loc found list.types
  pure (.assign typed list.exprs loc)

/-- The last index of a list. -/
def lastIndex {α : Type} (elems : List α) : Run Nat := fun s =>
  match elems.length with
  | 0 => .error .outOfRange
  | last + 1 => .ok (last, s)

/-- The variables of the toplevel layer. -/
def toplevel : Run (NameMap Binding) := fun s =>
  match s.layers.getLast? with
  | some layer => .ok (layer.vars, s)
  | none => .error .noLayer

end Stack

open Stack

namespace Source

/-- Types an item. -/
def Item.onStack (options : Options) : Item → Run (Option Typed.Item)
  | .var [⟨name, some .module, nameLoc⟩] values loc => do
    let item ← moduleVar ⟨name, some .module, nameLoc⟩ values loc
    pure (some item)
  | .var decls values loc => do
    let (decls, values) ← declareVars decls values loc
    pure (some (.var decls values loc))
  | .function decl => do
    let item ← Stack.function options decl
    pure (some item)
  | .assign targets values loc => do
    let item ← Stack.itemAssign options targets values loc
    pure (some item)
  | .record name fields loc => do
    let fields ← look (·.recordFields name fields [])
    let ty := Ty.record name fields
    adopt (·.declareType name ty loc)
    pure (some (.record name ty loc))
  | .alias name type loc => do
    let ty ← look fun Γ => type.resolve Γ.scopes loc
    adopt (·.declareType name ty loc)
    pure none
  | .ret values loc => look (·.moduleReturn values loc)

/-- Types items one after another, from an index on.  A `return` has to stand at the last index. -/
def itemsOnStack (options : Options) (last : Nat) : Nat → List Item → Run (List Typed.Item)
  | _, [] => pure []
  | index, item :: rest => do
    emit (Report.require (!item.isReturn || index == last) .returnNotLast item.loc)
    let typed ← item.onStack options
    arrive
    let items ← itemsOnStack options last (index + 1) rest
    pure (typed.toList ++ items)

namespace Program

/-- Types the items of a program with the given last one. -/
def walkOnStack (options : Options) (items : List Item) (last : Item) : Run (List Typed.Item) := do
  let lastIndex ← lastIndex items
  let typed ← itemsOnStack options lastIndex 0 items
  let Γ ← view
  if Γ.module.var.isNone then
    let first ← item items 0
    emit (Report.fault .noModuleVariable first.loc)
  emit (Report.require last.isReturn .missingModuleReturn last.loc)
  pure typed

/-- The module, if nothing has been reported and there is a module variable. -/
def assembleOnStack (items : List Typed.Item) : Run (Option CheckedModule) := do
  let s ← get
  match s.faults, s.module.name? with
  | [], some name =>
    let vars ← toplevel
    pure (some ⟨name, s.module.exports, vars.mapValues (·.ty), ⟨items⟩⟩)
  | _, _ => pure none

/-- Types a program and assembles its module. -/
def runOnStack (options : Options) (program : Program) : Run (Option CheckedModule) :=
  match program.items.getLast? with
  | none => do
    emit (Report.fault .emptyProgram (.lineCol 1 1))
    pure none
  | some last => do
    let items ← walkOnStack options program.items last
    assembleOnStack items

/-- Checks a program with a stack: the module that it defines, or everything that is wrong with
it. -/
def onStack (builtins : Builtins) (options : Options) (program : Program) :
    Except Stuck (Except (List Diagnostic) CheckedModule) :=
  match program.runOnStack options (.start builtins) with
  | .ok (some module, _) => .ok (.ok module)
  | .ok (none, s) => .ok (.error (s.faults.map (Fault.diagnostic options.filename)))
  | .error stuck => .error stuck

end Program

end Source

/-! ### No item gets stuck -/

namespace Stack.Does

variable {Γ : Context}

theorem declareModule (name : String) (nameLoc loc : Location) :
    Does (declareModule name nameLoc loc) Γ () (Γ.declareModule name nameLoc loc).value
      (Γ.declareModule name nameLoc loc).faults (Γ.declareModuleMoments name nameLoc) := by
  unfold Context.declareModule Context.declareModuleMoments
  refine view_bind ?_
  cases hvar : Γ.module.var with
  | some first => exact emit _
  | none =>
    have hmodule := adopt (Γ := Γ)
      (fun Γ => Pure.pure { Γ with module := { Γ.module with var := some (name, nameLoc) } })
      ⟨_, _, rfl⟩
    exact of_moments (hmodule.bind (declare _ _)) (congrArg (_ :: ·) (List.map_id _))

theorem moduleVar (decl : Source.Decl) (values : List Source.Expr) (loc : Location) :
    Does (moduleVar decl values loc) Γ (Γ.moduleVar decl values loc).value.1
      (Γ.moduleVar decl values loc).value.2 (Γ.moduleVar decl values loc).faults
      (Γ.moduleMoments decl values loc) :=
  (look _).followedBy ((declareModule _ _ _).bind_nil .pure)

theorem declareFunction (options : Options) (name : Source.FunctionName) (ty : Ty)
    (loc : Location) :
    Does (declareFunction options name ty loc) Γ ()
      (Context.declareFunction options Γ name ty loc).value
      (Context.declareFunction options Γ name ty loc).faults
      ((Context.declareFunction options Γ name ty loc).followedBy fun Δ => [⟨Δ, []⟩]) := by
  cases name with
  | plain name => exact declare _ _
  | member module field => exact adopt _ Context.declareFunction_sameVars

/-- **The body of a function gives back its layer, its loops and its function.** -/
theorem functionBody (params : List Typed.Decl) (returns : List Ty) (body : Source.Block)
    (loc : Location) :
    Does (functionBody params returns body loc) Γ (Γ.functionBody params returns body loc).value Γ
      (Γ.functionBody params returns body loc).faults
      (Γ.bodyMoments params returns false body
        (Report.require (returns.isEmpty || Source.Block.returns body) .missingReturn loc).faults
        (Source.Stmt.blockMoments · body)) := by
  have hparams := Context.declareAll_enter_frames (Γ := Γ) params
  have hdeclare : Context.declareAll .inner params (Γ.enterFunction returns) =
      (·.inside returns false) <$> Context.declareAll .inner params Γ.enter :=
    Context.declareAll_inside .inner params
  rw [Context.functionBody, hdeclare, bind_map_left, Stack.functionBody]
  generalize Report.require _ _ _ = whole
  refine of_faults (layered ((declareAll .inner params).bind
    (inFunction ((Source.Stmt.blockOnStack_does body _).bind_nil (emit_last whole))))
    (hparams.exit_block body)) ?_
  simp

theorem function (options : Options) (decl : Source.Function) :
    Does (function options decl) Γ (Context.function options Γ decl).value.1
      (Context.function options Γ decl).value.2 (Context.function options Γ decl).faults
      (Γ.functionMoments options decl) :=
  (look _).followedBy ((look _).followedBy ((declareFunction options _ _ _).bind
    ((functionBody _ _ _ _).bind_nil .pure)))

theorem declareFields (options : Options) (loc : Location) (targets : List ItemTarget)
    (types : List Ty) :
    Does (declareFields options loc targets types) Γ
      (Context.declareFields options loc targets types Γ).value.1
      (Context.declareFields options loc targets types Γ).value.2
      (Context.declareFields options loc targets types Γ).faults
      (Context.fieldMoments options loc targets types Γ) := by
  induction targets generalizing types Γ with
  | nil => exact .pure
  | cons target rest ih =>
    cases target with
    | existing target => exact (ih _).bind_nil .pure
    | newField module field =>
      exact (adopt _ Context.declareField_sameVars).bind ((ih _).bind_nil .pure)

theorem itemAssign (options : Options) (targets values : List Source.Expr) (loc : Location) :
    Does (itemAssign options targets values loc) Γ
      (Context.itemAssign options Γ targets values loc).value.1
      (Context.itemAssign options Γ targets values loc).value.2
      (Context.itemAssign options Γ targets values loc).faults
      (Γ.assignMoments options targets values loc) :=
  (look _).followedBy ((look _).followedBy ((emit _).followedBy
    ((declareFields options loc _ _).bind_nil .pure)))

theorem declareType (name : String) (ty : Ty) (loc : Location) :
    Does (Stack.adopt (·.declareType name ty loc)) Γ () (Γ.declareType name ty loc).value
      (Γ.declareType name ty loc).faults (Γ.typeMoments name ty loc) :=
  adopt _ Context.declareType_sameVars

end Stack.Does

namespace Source

variable {options : Options} {Γ : Context}

/-- **No item gets stuck.** -/
theorem Item.onStack_does (item : Item) :
    Does (item.onStack options) Γ (item.check options Γ).value.1 (item.check options Γ).value.2
      (item.check options Γ).faults (item.moments options Γ) := by
  unfold onStack
  split
  · exact (Does.moduleVar _ _ _).bind_nil .pure
  · next hd =>
    rw [Item.check_var hd, Item.moments]
    · exact (Does.declareVars _ _ _).bind_nil .pure
    · exact hd
  · exact (Does.function options _).bind_nil .pure
  · exact (Does.itemAssign options _ _ _).bind_nil .pure
  · rw [Item.check, Item.moments]
    exact (Does.look _).followedBy ((Does.declareType _ _ _).bind_nil .pure)
  · rw [Item.check, Item.moments]
    exact (Does.look _).followedBy ((Does.declareType _ _ _).bind_nil .pure)
  · exact (Does.look _).of_faults (List.append_nil _).symm

theorem itemsOnStack_does {last index : Nat} {items : List Item}
    (h : index + items.length = last + 1) :
    Does (itemsOnStack options last index items) Γ (checkItems options Γ items).value.1
      (checkItems options Γ items).value.2 (checkItems options Γ items).faults
      (itemMoments options Γ items) := by
  induction items generalizing Γ index with
  | nil => exact .pure
  | cons item rest ih =>
    rw [List.length_cons] at h
    have hlast : (index == last) = rest.isEmpty := by
      rw [Bool.eq_iff_iff, beq_iff_eq, List.isEmpty_iff_length_eq_zero]
      omega
    rw [itemsOnStack, checkItems, itemMoments, hlast]
    exact (Does.emit _).followedBy
      (item.onStack_does.bind (.arrive_bind ((ih (by omega)).bind_nil .pure)))

namespace Program

theorem start_shows (builtins : Builtins) : (State.start builtins).Shows (.start builtins) :=
  ⟨rfl, rfl, rfl, rfl, rfl, rfl⟩

theorem walkOnStack_does (options : Options) (first : Item) (rest : List Item) (last : Item) :
    Does (walkOnStack options (first :: rest) last) Γ
      (checkItems options Γ (first :: rest)).value.1 (checkItems options Γ (first :: rest)).value.2
      ((checkItems options Γ (first :: rest)).faults ++
        closing (checkItems options Γ (first :: rest)).value.2.module.var.isSome first.loc
          last.mark)
      (itemMoments options Γ (first :: rest)) := by
  have hindex : lastIndex (first :: rest) = pure rest.length := rfl
  have hfirst : item (first :: rest) 0 = pure first := rfl
  rw [walkOnStack, hindex, pure_bind, hfirst]
  refine (itemsOnStack_does (by simp)).bind_nil (Does.view_bind ?_)
  cases hvar : (checkItems options Γ (first :: rest)).value.2.module.var with
  | none =>
    simp only [Option.isNone_none, if_true, pure_bind]
    exact (Does.emit _).bind_nil (Does.emit_last _)
  | some var => exact Does.emit_last _

/-- There is a toplevel layer, from which the module is assembled. -/
theorem assembleOnStack_eq {s : State} (h : s.Shows Γ) (items : List Typed.Item) :
    assembleOnStack items s =
      .ok (match s.faults, Γ.module.name? with
        | [], some name => some (assemble name items Γ)
        | _, _ => none, s) := by
  have htoplevel : toplevel s = .ok (Γ.scopes.toplevel, s) := by
    have hcontext := h.context?_eq
    unfold State.context? at hcontext
    unfold toplevel
    cases hlast : s.layers.getLast? with
    | none => simp [hlast] at hcontext
    | some layer =>
      rw [hlast] at hcontext
      rw [← Option.some.inj hcontext]
  refine (bind_of_ok rfl).trans ?_
  rw [← h.module]
  cases s.faults with
  | nil =>
    cases Γ.module.name? with
    | none => rfl
    | some name => exact bind_of_ok htoplevel
  | cons fault faults => rfl

/-- **The run through a program.**  It gives the module that the check gives, it has recorded the
faults of the program, and its log is the list of the moments. -/
theorem runOnStack_eq (builtins : Builtins) (options : Options) (program : Program) :
    ∃ s, program.runOnStack options (.start builtins) =
        .ok ((program.check builtins options).toOption, s) ∧
      s.faults = (program.walk builtins options).faults ∧
      s.trace = program.moments builtins options := by
  obtain ⟨items, typeRegions, commentRegions⟩ := program
  cases items with
  | nil => exact ⟨_, rfl, rfl, rfl⟩
  | cons first rest =>
    obtain ⟨s, hrun, hs, hadds, -⟩ :=
      walkOnStack_does options first rest (rest.getLastD first) _ (start_shows builtins)
    have hlast : (first :: rest).getLast? = some (rest.getLastD first) := by
      simp [List.getLast?_cons]
    have hfaults := hadds.faults
    rw [Item.mark_getLastD, State.start, List.nil_append] at hfaults
    refine ⟨s, ?_, by rw [walk_cons, hfaults], by simp [hadds.trace, State.start, moments]⟩
    simp only [runOnStack, hlast]
    rw [bind_of_ok hrun, assembleOnStack_eq hs, check, walk_cons, ← hfaults]
    cases s.faults with
    | nil =>
      cases (checkItems options (.start builtins) (first :: rest)).value.2.module.name? <;> rfl
    | cons fault faults => rfl

/-- **Checking never gets stuck.** -/
theorem onStack_eq_check (builtins : Builtins) (options : Options) (program : Program) :
    program.onStack builtins options = .ok (program.check builtins options) := by
  obtain ⟨s, hrun, hfaults, -⟩ := runOnStack_eq builtins options program
  rw [onStack, hrun]
  cases hcheck : program.check builtins options with
  | ok module => rfl
  | error diagnostics => rw [check_error hcheck, ← hfaults]; rfl

end Program

end Source

end LuaTyping
