import LuaTyping.Proofs.Known.Types
import LuaTyping.Proofs.Proper.Item

/-!
# The points of a run

A run of the checker goes through a program in the order of its text.  A `Moment` is a context in
which it arrives together with the faults that it has recorded by then: at the start, after each
single declaration of a variable, a type name or a module field, on entering and on leaving a layer,
a loop or a function, and after each statement and item.  Between two moments the context stays what
it is, and faults are only added.

`Program.moments` lists the moments of the run through a program, and `final_mem_moments` says that
the context with which the run ends is among them.  That the list leaves out no change of the
context is a fact about the checker with a state, which notes each of its changes: its log is this
list (`Program.runOnStack_eq`).
-/

namespace LuaTyping

variable {α : Type}

/-- A context in which a run arrives, with the faults recorded so far. -/
structure Moment where
  context : Context
  recorded : List Fault

namespace Moment

/-- The moment of a run that has recorded other faults before. -/
def after (earlier : List Fault) (moment : Moment) : Moment :=
  ⟨moment.context, earlier ++ moment.recorded⟩

@[simp]
theorem after_nil : after [] = id :=
  rfl

@[simp]
theorem after_comp_after (first second : List Fault) :
    after first ∘ after second = after (first ++ second) := by
  funext moment
  simp [after]

/-- The moments from the opening of something to its closing, by when `faults` are recorded. -/
def around (opened : Context) (inside : List Moment) (faults : List Fault) (closed : Context) :
    List Moment :=
  ⟨opened, []⟩ :: inside ++ [⟨closed, faults⟩]

end Moment

open Moment (around)

/-- The moments of what follows a check. -/
def Report.followedBy (report : Report α) (next : α → List Moment) : List Moment :=
  (next report.value).map (Moment.after report.faults)

/-! ### Declarations -/

namespace Context

/-- Variables that are declared one after another. -/
def declareMoments (kind : VarKind) : List Typed.Decl → Context → List Moment
  | [], _ => []
  | decl :: rest, Γ =>
    (Γ.declare decl.name ⟨decl.ty, decl.loc, kind⟩).followedBy fun Δ =>
      ⟨Δ, []⟩ :: declareMoments kind rest Δ

/-- A declaration of variables. -/
def varMoments (Γ : Context) (decls : List Source.Decl) (values : List Source.Expr)
    (loc : Location) : List Moment :=
  (decls.mapM (Source.Decl.stated Γ)).followedBy fun stated =>
    (Γ.declaredValues (decls.zip stated) values loc).followedBy fun list =>
      (Source.Decl.typedAll (decls.zip stated) list.types).followedBy fun typed =>
        declareMoments Γ.varKind typed Γ

/-- New fields of the module that are declared one after another. -/
def fieldMoments (options : Options) (loc : Location) :
    List ItemTarget → List Ty → Context → List Moment
  | [], _, _ => []
  | .existing _ :: rest, types, Γ => fieldMoments options loc rest types.tail Γ
  | .newField _ field :: rest, types, Γ =>
    (Γ.declareField options field (types.headD .unknown) loc).followedBy fun Δ =>
      ⟨Δ, []⟩ :: fieldMoments options loc rest types.tail Δ

/-! ### Layers, loops and functions -/

/-- The context with another function and other loops around. -/
def inside (Γ : Context) (returns : List Ty) (inLoop : Bool) : Context :=
  { Γ with returns := returns, inLoop := inLoop }

/-- The moments of a block in a layer of its own, given those of its statements. -/
def layerMoments (Γ : Context) (body : List Source.Stmt) (moments : List Moment) : List Moment :=
  around Γ.enter moments (Source.Stmt.checkBlock Γ.enter body).faults Γ

/-- The moments of statements for which a function or a loop is entered, given those inside.  Faults
about the whole of the statements come last. -/
def insideMoments (Γ : Context) (returns : List Ty) (inLoop : Bool) (body : List Source.Stmt)
    (whole : List Fault) (moments : Context → List Moment) : List Moment :=
  let checked := Source.Stmt.checkBlock (Γ.inside returns inLoop) body
  around (Γ.inside returns inLoop) (moments (Γ.inside returns inLoop)) (checked.faults ++ whole)
    (checked.value.2.inside Γ.returns Γ.inLoop)

/-- The moments of the body of a function or a loop, whose parameters or variables are declared in a
layer of their own before it is entered. -/
def bodyMoments (Γ : Context) (decls : List Typed.Decl) (returns : List Ty) (inLoop : Bool)
    (body : List Source.Stmt) (whole : List Fault) (moments : Context → List Moment) :
    List Moment :=
  let declared := declareAll .inner decls Γ.enter
  let checked := Source.Stmt.checkBlock (declared.value.inside returns inLoop) body
  around Γ.enter
    (declareMoments .inner decls Γ.enter ++ declared.followedBy fun Δ =>
      Δ.insideMoments returns inLoop body whole moments)
    (declared.faults ++ (checked.faults ++ whole)) Γ

end Context

/-! ### Statements -/

namespace Source.Stmt

mutual

/-- The moments inside a statement. -/
def moments (Γ : Context) : Source.Stmt → List Moment
  | .declare decls values loc => Γ.varMoments decls values loc
  | .block body _ => Γ.layerMoments body (blockMoments Γ.enter body)
  | .whileDo condition body _ =>
    (condition.check Γ (.ofType ⟨.boolean, .condition "while"⟩)).followedBy fun _ =>
      Γ.bodyMoments [] Γ.returns true body [] (blockMoments · body)
  | .repeatUntil body condition _ =>
    let checked := checkBlock Γ.enterLoop body
    let ending := condition.check checked.value.2 (.ofType ⟨.boolean, .condition "repeat"⟩)
    around Γ.enter (Γ.enter.insideMoments Γ.returns true body [] (blockMoments · body))
      (checked.faults ++ ending.faults) Γ
  | .branch condition thenBlock arms elseBlock _ =>
    (condition.check Γ (.ofType ⟨.boolean, .condition "if"⟩)).followedBy fun _ =>
      Γ.layerMoments thenBlock (blockMoments Γ.enter thenBlock) ++
        (checkBlock Γ.enter thenBlock).followedBy fun _ =>
          armMoments Γ arms ++ (checkArms Γ arms).followedBy fun _ => elseMoments Γ elseBlock
  | .numericFor decl start limit step body loc =>
    (Γ.numericHeader decl start limit step loc).followedBy fun header =>
      Γ.bodyMoments [header.decl] Γ.returns true body [] (blockMoments · body)
  | .genericFor decls values body loc =>
    (Γ.iterate values loc).followedBy fun iterated =>
      (Γ.loopVars decls iterated.produced loc).followedBy fun decls =>
        Γ.bodyMoments decls Γ.returns true body [] (blockMoments · body)
  | .assign .. | .call .. | .ret .. | .brk .. => []

/-- The moments inside a block and after each of its statements. -/
def blockMoments (Γ : Context) : List Source.Stmt → List Moment
  | [] => []
  | stmt :: rest =>
    moments Γ stmt ++ (check Γ stmt).followedBy fun (_, Δ) => ⟨Δ, []⟩ :: blockMoments Δ rest

/-- The moments inside the blocks of `elseif`s. -/
def armMoments (Γ : Context) : List Arm → List Moment
  | [] => []
  | ⟨condition, body⟩ :: rest =>
    (condition.check Γ (.ofType ⟨.boolean, .condition "elseif"⟩)).followedBy fun _ =>
      Γ.layerMoments body (blockMoments Γ.enter body) ++
        (checkBlock Γ.enter body).followedBy fun _ => armMoments Γ rest

/-- The moments inside the block of an `else`. -/
def elseMoments (Γ : Context) : Option (List Source.Stmt) → List Moment
  | none => []
  | some body => Γ.layerMoments body (blockMoments Γ.enter body)

end

end Source.Stmt

/-! ### Items and programs -/

namespace Context

/-- The moments inside a function declaration. -/
def functionMoments (options : Options) (Γ : Context) (decl : Source.Function) : List Moment :=
  (decl.params.mapM Γ.param).followedBy fun params =>
    (TypeExpr.resolveList Γ.scopes decl.returns decl.loc).followedBy fun returns =>
      let ty := Ty.function (params.map (·.ty)) returns
      let complete := returns.isEmpty || Source.Block.returns decl.body
      (declareFunction options Γ decl.name ty decl.loc).followedBy fun Δ =>
        ⟨Δ, []⟩ :: Δ.bodyMoments params returns false decl.body
          (Report.require complete .missingReturn decl.loc).faults
          (Source.Stmt.blockMoments · decl.body)

/-- The moments inside a toplevel assignment. -/
def assignMoments (options : Options) (Γ : Context) (targets values : List Source.Expr)
    (loc : Location) : List Moment :=
  (targets.mapM Γ.itemTarget).followedBy fun found =>
    let expected := found.map ItemTarget.expected
    (Source.Expr.checkValues Γ (fun _ => .assignment) values expected 0).followedBy fun list =>
      (Report.require (list.fits targets.length)
          (.assignArity targets.length list.types.length) loc).followedBy fun _ =>
        fieldMoments options loc found list.types Γ

/-- The moments while the module variable is declared: the module knows its name first. -/
def declareModuleMoments (Γ : Context) (name : String) (nameLoc : Location) : List Moment :=
  match Γ.module.var with
  | some _ => []
  | none =>
    let Δ := { Γ with module := { Γ.module with var := some (name, nameLoc) } }
    ⟨Δ, []⟩ :: (Δ.declare name ⟨.module [], nameLoc, .module⟩).followedBy fun Θ => [⟨Θ, []⟩]

/-- The moments inside the declaration of the module variable. -/
def moduleMoments (Γ : Context) (decl : Source.Decl) (values : List Source.Expr)
    (loc : Location) : List Moment :=
  (Γ.moduleInit decl.name values loc).followedBy fun _ =>
    Γ.declareModuleMoments decl.name decl.loc

/-- The moments inside the declaration of a type name. -/
def typeMoments (Γ : Context) (name : String) (ty : Ty) (loc : Location) : List Moment :=
  (Γ.declareType name ty loc).followedBy fun Δ => [⟨Δ, []⟩]

end Context

namespace Source

/-- The moments inside an item. -/
def Item.moments (options : Options) (Γ : Context) : Item → List Moment
  | .var [⟨name, some .module, nameLoc⟩] values loc =>
    Γ.moduleMoments ⟨name, some .module, nameLoc⟩ values loc
  | .var decls values loc => Γ.varMoments decls values loc
  | .function decl => Γ.functionMoments options decl
  | .assign targets values loc => Γ.assignMoments options targets values loc
  | .record name fields loc =>
    (Γ.recordFields name fields []).followedBy fun fields =>
      Γ.typeMoments name (.record name fields) loc
  | .alias name type loc =>
    (type.resolve Γ.scopes loc).followedBy fun ty => Γ.typeMoments name ty loc
  | .ret .. => []

/-- The moments inside items and after each of them. -/
def itemMoments (options : Options) (Γ : Context) : List Item → List Moment
  | [] => []
  | item :: rest =>
    (Report.require (!item.isReturn || rest.isEmpty) .returnNotLast item.loc).followedBy fun _ =>
      item.moments options Γ ++
        (item.check options Γ).followedBy fun (_, Δ) => ⟨Δ, []⟩ :: itemMoments options Δ rest

/-- The moments of the run through a program. -/
def Program.moments (builtins : Builtins) (options : Options) (program : Program) : List Moment :=
  ⟨.start builtins, []⟩ :: itemMoments options (.start builtins) program.items

theorem final_mem_itemMoments (options : Options) : ∀ (items : List Item) (Γ : Context),
    ⟨(checkItems options Γ items).value.2, (checkItems options Γ items).faults⟩ ∈
      ⟨Γ, []⟩ :: itemMoments options Γ items
  | [], Γ => List.mem_cons_self
  | item :: rest, Γ => by
    have ih := final_mem_itemMoments options rest (item.check options Γ).value.2
    refine List.mem_cons_of_mem _ ?_
    rw [itemMoments, Report.followedBy, List.mem_map]
    refine ⟨_, List.mem_append_right _ (List.mem_map.mpr ⟨_, ih, rfl⟩), ?_⟩
    simp [checkItems, Moment.after]

/-- The run ends in one of its moments. -/
theorem Program.final_mem_moments (builtins : Builtins) (options : Options) (program : Program) :
    ⟨(checkItems options (.start builtins) program.items).value.2,
      (checkItems options (.start builtins) program.items).faults⟩ ∈
        program.moments builtins options :=
  final_mem_itemMoments options program.items (.start builtins)

end Source

/-! ### Properties of the moments before the first fault -/

/-- The property holds in every context in which a run arrives without having found a fault. -/
def Moment.Clean (p : Context → Prop) (moments : List Moment) : Prop :=
  ∀ moment ∈ moments, moment.recorded = [] → p moment.context

namespace Moment.Clean

variable {p : Context → Prop} {moments moments' : List Moment} {Γ : Context}

theorem nil : Clean p [] := by
  simp [Clean]

theorem cons (h : p Γ) (hrest : Clean p moments) : Clean p (⟨Γ, []⟩ :: moments) := by
  rw [Clean, List.forall_mem_cons]
  exact ⟨fun _ => h, hrest⟩

theorem append (h : Clean p moments) (h' : Clean p moments') : Clean p (moments ++ moments') := by
  rw [Clean, List.forall_mem_append]
  exact ⟨h, h'⟩

theorem around {closed : Context} {faults : List Fault} (hopened : p Γ) (h : Clean p moments)
    (hclosed : faults = [] → p closed) : Clean p (Moment.around Γ moments faults closed) := by
  refine .append (.cons hopened h) ?_
  rw [Clean, List.forall_mem_singleton]
  exact hclosed

/-- What follows a check that finds a fault is never reached without one. -/
theorem followedBy {report : Report α} {next : α → List Moment}
    (h : ∀ a, report.Yields a → Clean p (next a)) : Clean p (report.followedBy next) := by
  intro moment hm hr
  obtain ⟨later, hl, rfl⟩ := List.mem_map.mp hm
  obtain ⟨hfirst, hlater⟩ := List.append_eq_nil_iff.mp hr
  exact h _ (Report.yields_value hfirst) later hl hlater

end Moment.Clean

end LuaTyping
