import LuaTyping.Checking.Stmt
import LuaTyping.Proofs.Frame.Stmt
import LuaTyping.Proofs.Revision.Expr

/-!
# Revised statements

Declarations, assignments, loop headers and statements are checked in step with their revisions
(`Stmt.check_inStep`).  A statement declares variables only, so the type names stay those with which
its block began, and the revised annotations resolve in step throughout the block.
-/

namespace LuaTyping

open Report (InStep)

variable {strict : Prop} {ρ : Location → Location} {types : NameMap Declared} {Γ : Context}
  {r : Revision}

/-! ### Declarations of variables -/

namespace Context

theorem enter_revise : (Γ.revise ρ types).enter = Γ.enter.revise ρ types :=
  rfl

theorem enterLoop_revise : (Γ.revise ρ types).enterLoop = Γ.enterLoop.revise ρ types :=
  rfl

theorem varKind_revise : (Γ.revise ρ types).varKind = Γ.varKind := by
  simp [varKind, Scopes.isToplevel, revise]

theorem declare_inStep (name : String) (binding : Binding) :
    (Γ.declare name binding).InStep strict ρ (revise ρ types)
      ((Γ.revise ρ types).declare name (binding.relocate ρ)) := by
  obtain ⟨⟨builtins, inner, toplevel, names⟩, module, returns, inLoop⟩ := Γ
  cases inner with
  | cons layer outer =>
    refine .pure ?_
    simp [revise, NameMap.mapValues_insert]
  | nil =>
    simp only [revise, declare, Scopes.declare, List.map_nil, NameMap.lookup_mapValues]
    cases toplevel.lookup name with
    | some previous => exact .bind .fault fun _ _ => .pure rfl
    | none =>
      refine .pure ?_
      simp [revise, NameMap.mapValues_insert]

theorem declareAll_inStep (kind : VarKind) (decls : List Typed.Decl) (Γ : Context) :
    (declareAll kind decls Γ).InStep strict ρ (revise ρ types)
      (declareAll kind (decls.map (Typed.Decl.relocate ρ)) (Γ.revise ρ types)) := by
  induction decls generalizing Γ with
  | nil => exact .pure rfl
  | cons decl rest ih =>
    exact .bind (declare_inStep decl.name ⟨decl.ty, decl.loc, kind⟩) fun Δ _ => ih Δ

end Context

namespace Source.Decl

theorem stated_inStep (hres : r.Resolves strict Γ.scopes.types types) (decl : Decl) :
    (decl.stated Γ).InStep strict r.loc (fun ty => ty)
      ((decl.revise r).stated (Γ.revise r.loc types)) := by
  obtain ⟨name, type, loc⟩ := decl
  cases type with
  | none => exact .pure rfl
  | some type => exact .bind (type.resolve_inStep hres loc) fun _ _ => .pure rfl

theorem typed_inStep (decl : Decl) (stated value : Option Ty) :
    (decl.typed stated value).InStep strict r.loc (Typed.Decl.relocate r.loc)
      ((decl.revise r).typed stated value) := by
  unfold typed
  split
  · exact .pure rfl
  · exact .bind .fault fun _ _ => .pure rfl
  · exact .pure rfl
  · exact .pure rfl

/-- Declarations with the types that they state, revised. -/
def reviseStated (r : Revision) (decls : List (Decl × Option Ty)) : List (Decl × Option Ty) :=
  decls.map (Prod.map (Decl.revise r) id)

theorem zip_revise (decls : List Decl) (stated : List (Option Ty)) :
    (decls.map (Decl.revise r)).zip stated = reviseStated r (decls.zip stated) :=
  List.zip_map_left ..

theorem map_snd_reviseStated (decls : List (Decl × Option Ty)) :
    (reviseStated r decls).map Prod.snd = decls.map Prod.snd := by
  simp [reviseStated]

theorem site_revise (decls : List (Decl × Option Ty)) :
    site ((reviseStated r decls).map Prod.fst) = site (decls.map Prod.fst) := by
  funext position
  simp [site, reviseStated, Function.comp_def, revise]

theorem typedAll_inStep (decls : List (Decl × Option Ty)) (tys : List Ty) :
    (typedAll decls tys).InStep strict r.loc (List.map (Typed.Decl.relocate r.loc))
      (typedAll (reviseStated r decls) tys) := by
  induction decls generalizing tys with
  | nil => exact .pure rfl
  | cons entry rest ih =>
    obtain ⟨decl, stated⟩ := entry
    exact .bind (decl.typed_inStep stated tys.head?) fun _ _ => .bind (ih tys.tail) fun _ _ =>
      .pure rfl

theorem requireStated_inStep (decls : List (Decl × Option Ty)) :
    (requireStated decls).InStep strict r.loc (fun u => u)
      (requireStated (reviseStated r decls)) := by
  induction decls with
  | nil => exact .pure rfl
  | cons entry rest ih => exact .bind .require fun _ _ => ih

end Source.Decl

namespace Context

theorem declaredValues_inStep (hres : r.Resolves strict Γ.scopes.types types)
    (decls : List (Source.Decl × Option Ty)) (values : List Source.Expr) (loc : Location) :
    (Γ.declaredValues decls values loc).InStep strict r.loc (Values.relocate r.loc)
      ((Γ.revise r.loc types).declaredValues (Source.Decl.reviseStated r decls)
        (Source.Expr.reviseList r values) (r.loc loc)) := by
  have hlength : (Source.Decl.reviseStated r decls).length = decls.length := List.length_map _
  unfold declaredValues
  rw [Source.Expr.isEmpty_reviseList, Source.Decl.site_revise, Source.Decl.map_snd_reviseStated,
    hlength]
  split
  · exact .bind (Source.Decl.requireStated_inStep decls) fun _ _ => .pure rfl
  · exact .bind (Source.Expr.checkValues_inStep hres _ values _ 0) fun _ _ =>
      .bind .require fun _ _ => .pure rfl

theorem declareVars_inStep (hres : r.Resolves strict Γ.scopes.types types)
    (decls : List Source.Decl) (values : List Source.Expr) (loc : Location) :
    (Γ.declareVars decls values loc).InStep strict r.loc
      (Prod.map (Prod.map (List.map (Typed.Decl.relocate r.loc))
        (List.map (Typed.Expr.relocate r.loc))) (revise r.loc types))
      ((Γ.revise r.loc types).declareVars (decls.map (Source.Decl.revise r))
        (Source.Expr.reviseList r values) (r.loc loc)) := by
  have hstated : (decls.mapM (Source.Decl.stated Γ)).InStep strict r.loc (List.map fun ty => ty)
      ((decls.map (Source.Decl.revise r)).mapM (Source.Decl.stated (Γ.revise r.loc types))) :=
    .mapM (Source.Decl.stated_inStep hres)
  unfold declareVars
  refine .bind hstated fun stated _ => ?_
  rw [List.map_id', Source.Decl.zip_revise, varKind_revise]
  exact .bind (declaredValues_inStep hres _ values loc) fun list _ =>
    .bind (Source.Decl.typedAll_inStep _ list.types) fun typed _ =>
    .bind (declareAll_inStep Γ.varKind typed Γ) fun _ _ => .pure rfl

/-! ### Assignments -/

theorem nameTarget_inStep (name : String) (loc : Location) :
    (Γ.nameTarget name loc).InStep strict ρ (Option.map (Typed.Target.relocate ρ))
      ((Γ.revise ρ types).nameTarget name (ρ loc)) := by
  unfold nameTarget
  rw [lookup_revise]
  rcases Γ.scopes.lookup name with - | (⟨ty, declLoc, _ | _ | _⟩ | ty | members)
  · exact .bind .fault fun _ _ => .pure rfl
  · exact .pure rfl
  · exact .pure rfl
  · exact .bind .fault fun _ _ => .pure rfl
  · exact .bind .fault fun _ _ => .pure rfl
  · exact .bind .fault fun _ _ => .pure rfl

theorem target?_relocate (expr : Typed.Expr) :
    (expr.relocate ρ).target? = expr.target?.map (Typed.Target.relocate ρ) := by
  obtain ⟨kind, ty, loc⟩ := expr
  cases kind <;> simp [Typed.Expr.target?, Typed.Expr.relocate, Typed.ExprKind.relocate,
    Typed.Target.relocate]

theorem target_inStep (hres : r.Resolves strict Γ.scopes.types types) (expr : Source.Expr) :
    (Γ.target expr).InStep strict r.loc (Option.map (Typed.Target.relocate r.loc))
      ((Γ.revise r.loc types).target (expr.revise r)) := by
  have hmember : (expr.check Γ .results >>= fun typed => pure typed.target?).InStep strict r.loc
      (Option.map (Typed.Target.relocate r.loc))
      ((expr.revise r).check (Γ.revise r.loc types) .results >>= fun typed =>
        pure typed.target?) :=
    .bind (Source.Expr.check_inStep hres expr .results) fun typed _ =>
      .pure (target?_relocate typed)
  cases expr with
  | name name loc =>
    simp only [Source.Expr.revise, target]
    exact nameTarget_inStep name loc
  | field object field loc =>
    simp only [Source.Expr.revise, target, library?_revise] at hmember ⊢
    split
    · exact .bind .fault fun _ _ => .pure rfl
    · exact hmember
  | index object key loc =>
    simp only [Source.Expr.revise, target] at hmember ⊢
    exact hmember
  | _ =>
    simp only [Source.Expr.revise, target]
    exact .bind .fault fun _ _ => .pure rfl

theorem wanted_relocate (target : Option Typed.Target) :
    Typed.Target.wanted (target.map (Typed.Target.relocate ρ)) = Typed.Target.wanted target := by
  cases target <;> simp [Typed.Target.wanted]

theorem filterMap_relocate (found : List (Option Typed.Target)) :
    (found.map (Option.map (Typed.Target.relocate ρ))).filterMap id =
      (found.filterMap id).map (Typed.Target.relocate ρ) := by
  rw [List.filterMap_map, List.map_filterMap]
  rfl

theorem assign_inStep (hres : r.Resolves strict Γ.scopes.types types)
    (targets values : List Source.Expr) (loc : Location) :
    (Γ.assign targets values loc).InStep strict r.loc
      (Prod.map (List.map (Typed.Target.relocate r.loc)) (List.map (Typed.Expr.relocate r.loc)))
      ((Γ.revise r.loc types).assign (Source.Expr.reviseList r targets)
        (Source.Expr.reviseList r values) (r.loc loc)) := by
  unfold assign
  rw [Source.Expr.reviseList_eq_map targets, List.length_map]
  refine .bind (.mapM (target_inStep hres)) fun found _ => ?_
  simp only [List.map_map, Function.comp_def, wanted_relocate, filterMap_relocate]
  exact .bind (Source.Expr.checkValues_inStep hres _ values _ 0) fun list _ =>
    .bind .require fun _ _ => .pure rfl

end Context

/-! ### Loop headers -/

theorem Ty.control_inStep (ty : Ty) (name : String) (loc : Location) :
    (ty.control name loc).InStep strict ρ (fun ty => ty) (ty.control name (ρ loc)) := by
  unfold control
  split
  · exact .pure rfl
  · exact .bind .fault fun _ _ => .pure rfl

theorem Typed.Expr.one_relocate (ty : Ty) (loc : Location) :
    one ty (ρ loc) = (one ty loc).relocate ρ := by
  unfold one
  split <;> rfl

/-- The header with its locations moved. -/
def NumericHeader.relocate (ρ : Location → Location) (header : NumericHeader) : NumericHeader :=
  ⟨header.decl.relocate ρ, header.start.relocate ρ, header.limit.relocate ρ,
    header.step.relocate ρ⟩

/-- What a loop goes through, with the locations in it moved. -/
def Iterated.relocate (ρ : Location → Location) (iterated : Iterated) : Iterated :=
  ⟨iterated.iteration.relocate ρ, iterated.produced⟩

theorem Typed.Expr.ipairsTypes_inStep (array : Typed.Expr) :
    array.ipairsTypes.InStep strict ρ (fun types => types) (array.relocate ρ).ipairsTypes := by
  unfold ipairsTypes
  rw [ty_relocate, loc_relocate]
  split
  · exact .pure rfl
  · exact .pure rfl
  · exact .bind .fault fun _ _ => .pure rfl

namespace LoopValues

theorem uncertain_relocate (values : List Typed.Expr) :
    uncertain (values.map (Typed.Expr.relocate ρ)) = uncertain values := by
  induction values with
  | nil => rfl
  | cons expr rest ih =>
    cases rest with
    | nil => simp [uncertain]
    | cons next rest =>
      simp only [List.map_cons, uncertain] at ih ⊢
      exact ih

theorem requireThree_inStep (count : Nat) (loc : Location) :
    (requireThree count loc).InStep strict ρ (fun u => u) (requireThree count (ρ loc)) := by
  unfold requireThree
  split
  · exact .fault
  · exact .fault
  · exact .fault
  · exact .pure rfl
  · exact .fault

theorem coerce_inStep (want : Nat → Option Want) (position : Nat) (values : List Typed.Expr) :
    (coerce want position values).InStep strict ρ (List.map (Typed.Expr.relocate ρ))
      (coerce want position (values.map (Typed.Expr.relocate ρ))) := by
  induction values generalizing position with
  | nil => exact .pure rfl
  | cons expr rest ih =>
    cases rest with
    | nil =>
      simp only [List.map_cons, List.map_nil, coerce, Typed.Expr.valueTypes_relocate]
      split
      · exact .pure rfl
      · exact .bind (expr.coerce?_inStep (want position)) fun _ _ => .pure rfl
      · exact .bind (expr.spread_inStep _) fun _ _ => .pure rfl
    | cons next rest =>
      have hrest := ih (position + 1)
      simp only [List.map_cons, coerce] at hrest ⊢
      exact .bind (expr.coerce?_inStep (want position)) fun _ _ =>
        .bind hrest fun _ _ => .pure rfl

end LoopValues

namespace Context

theorem numericStart_inStep (hres : r.Resolves strict Γ.scopes.types types) (decl : Source.Decl)
    (start : Source.Expr) :
    (Γ.numericStart decl start).InStep strict r.loc (Prod.map (Typed.Expr.relocate r.loc) id)
      ((Γ.revise r.loc types).numericStart (decl.revise r) (start.revise r)) := by
  unfold numericStart
  refine .bind (decl.stated_inStep hres) fun stated _ => ?_
  cases stated with
  | some ty => exact .bind (start.check_inStep hres _) fun _ _ => .pure rfl
  | none =>
    refine .bind (start.check_inStep hres .value) fun start _ => .pure ?_
    simp

theorem numericStep_inStep (hres : r.Resolves strict Γ.scopes.types types) (ty : Ty)
    (step : Option Source.Expr) (loc : Location) :
    (Γ.numericStep ty step loc).InStep strict r.loc (Typed.Expr.relocate r.loc)
      ((Γ.revise r.loc types).numericStep ty (step.map (Source.Expr.revise r)) (r.loc loc)) := by
  cases step with
  | some step => exact step.check_inStep hres _
  | none => exact .pure (Typed.Expr.one_relocate ty loc)

theorem numericHeader_inStep (hres : r.Resolves strict Γ.scopes.types types) (decl : Source.Decl)
    (start limit : Source.Expr) (step : Option Source.Expr) (loc : Location) :
    (Γ.numericHeader decl start limit step loc).InStep strict r.loc (NumericHeader.relocate r.loc)
      ((Γ.revise r.loc types).numericHeader (decl.revise r) (start.revise r) (limit.revise r)
        (step.map (Source.Expr.revise r)) (r.loc loc)) :=
  .bind (numericStart_inStep hres decl start) fun ⟨_, ty⟩ _ =>
    .bind (ty.control_inStep decl.name decl.loc) fun ty _ =>
    .bind (limit.check_inStep hres _) fun _ _ =>
    .bind (numericStep_inStep hres ty step loc) fun _ _ => .pure rfl

theorem ipairsCall?_revise (exprs : List Source.Expr) :
    (Γ.revise ρ types).ipairsCall? (Source.Expr.reviseList r exprs) =
      (Γ.ipairsCall? exprs).map (Prod.map (Source.Expr.reviseList r) r.loc) := by
  cases exprs with
  | nil => rfl
  | cons expr rest =>
    cases rest with
    | cons next rest =>
      simp only [Source.Expr.reviseList]
      cases expr <;> simp [ipairsCall?]
    | nil =>
      cases expr with
      | call callee args loc =>
        cases callee with
        | name name nameLoc =>
          simp only [Source.Expr.reviseList, Source.Expr.revise, ipairsCall?, lookup_revise]
          rcases Γ.scopes.lookup name with - | (_ | _ | _)
          · rfl
          · rfl
          · simp only [Option.map_some, Resolved.relocate]
            split <;> rfl
          · rfl
        | _ => simp [Source.Expr.reviseList, Source.Expr.revise, ipairsCall?]
      | _ => simp [Source.Expr.reviseList, Source.Expr.revise, ipairsCall?]

theorem ipairsLoop_inStep (hres : r.Resolves strict Γ.scopes.types types)
    (args : List Source.Expr) (loc : Location) :
    (Γ.ipairsLoop args loc).InStep strict r.loc (Iterated.relocate r.loc)
      ((Γ.revise r.loc types).ipairsLoop (Source.Expr.reviseList r args) (r.loc loc)) := by
  unfold ipairsLoop
  rw [Source.Expr.reviseList_eq_map]
  refine .bind (.mapM fun arg => arg.check_inStep hres .value) fun values _ => ?_
  rw [List.length_map]
  refine .bind .require fun _ _ => ?_
  cases values with
  | nil => exact .pure rfl
  | cons array rest => exact .bind array.ipairsTypes_inStep fun _ _ => .pure rfl

theorem loopValues_inStep (hres : r.Resolves strict Γ.scopes.types types)
    (exprs : List Source.Expr) :
    (Γ.loopValues exprs).InStep strict r.loc (List.map (Typed.Expr.relocate r.loc))
      ((Γ.revise r.loc types).loopValues (Source.Expr.reviseList r exprs)) := by
  induction exprs with
  | nil => exact .pure rfl
  | cons expr rest ih =>
    simp only [Source.Expr.reviseList, loopValues, Source.Expr.isEmpty_reviseList,
      Source.Expr.isCall_revise]
    exact .bind (expr.check_inStep hres _) fun _ _ => .bind ih fun _ _ => .pure rfl

theorem iteratorLoop_inStep (hres : r.Resolves strict Γ.scopes.types types)
    (exprs : List Source.Expr) (loc : Location) :
    (Γ.iteratorLoop exprs loc).InStep strict r.loc (Iterated.relocate r.loc)
      ((Γ.revise r.loc types).iteratorLoop (Source.Expr.reviseList r exprs) (r.loc loc)) := by
  unfold iteratorLoop
  refine .bind (loopValues_inStep hres exprs) fun values _ => ?_
  simp only [Typed.flatTypes_relocate, LoopValues.uncertain_relocate]
  split
  · split
    · exact .bind (LoopValues.coerce_inStep _ 0 values) fun _ _ => .pure rfl
    · exact .bind (LoopValues.requireThree_inStep _ loc) fun _ _ =>
        .bind (LoopValues.coerce_inStep _ 0 values) fun _ _ => .pure rfl
  · exact .bind .fault fun _ _ => .pure rfl
  · exact .pure rfl
  · exact .bind .fault fun _ _ => .pure rfl

theorem iterate_inStep (hres : r.Resolves strict Γ.scopes.types types)
    (exprs : List Source.Expr) (loc : Location) :
    (Γ.iterate exprs loc).InStep strict r.loc (Iterated.relocate r.loc)
      ((Γ.revise r.loc types).iterate (Source.Expr.reviseList r exprs) (r.loc loc)) := by
  unfold iterate
  rw [ipairsCall?_revise]
  cases Γ.ipairsCall? exprs with
  | some found => exact ipairsLoop_inStep hres found.1 found.2
  | none => exact iteratorLoop_inStep hres exprs loc

theorem loopVar_inStep (hres : r.Resolves strict Γ.scopes.types types) (decl : Source.Decl)
    (found : Ty) :
    (Γ.loopVar decl found).InStep strict r.loc (Typed.Decl.relocate r.loc)
      ((Γ.revise r.loc types).loopVar (decl.revise r) found) := by
  unfold loopVar
  refine .bind (decl.stated_inStep hres) fun stated _ => ?_
  cases stated with
  | none => exact .pure rfl
  | some ty =>
    dsimp only
    split
    · exact .pure rfl
    · split
      · exact .pure rfl
      · exact .bind .fault fun _ _ => .pure rfl

theorem loopVarList_inStep (hres : r.Resolves strict Γ.scopes.types types)
    (decls : List Source.Decl) (tys : List Ty) :
    (Γ.loopVarList decls tys).InStep strict r.loc (List.map (Typed.Decl.relocate r.loc))
      ((Γ.revise r.loc types).loopVarList (decls.map (Source.Decl.revise r)) tys) := by
  induction decls generalizing tys with
  | nil => exact .pure rfl
  | cons decl rest ih =>
    exact .bind (loopVar_inStep hres decl _) fun _ _ => .bind (ih tys.tail) fun _ _ => .pure rfl

theorem loopVars_inStep (hres : r.Resolves strict Γ.scopes.types types)
    (decls : List Source.Decl) (produced : Option (List Ty)) (loc : Location) :
    (Γ.loopVars decls produced loc).InStep strict r.loc (List.map (Typed.Decl.relocate r.loc))
      ((Γ.revise r.loc types).loopVars (decls.map (Source.Decl.revise r)) produced
        (r.loc loc)) := by
  unfold loopVars
  rw [List.length_map]
  cases produced with
  | none => exact loopVarList_inStep hres decls []
  | some tys => exact .bind .require fun _ _ => loopVarList_inStep hres decls tys

end Context

/-! ### Statements -/

/-- The typed `elseif`s with their locations moved. -/
def relocateArms (ρ : Location → Location) :
    List (Typed.Expr × Typed.Block) → List (Typed.Expr × Typed.Block) :=
  List.map (Prod.map (Typed.Expr.relocate ρ) (Typed.Stmt.relocateBlock ρ))

theorem nestArms_relocate (arms : List (Typed.Expr × Typed.Block)) (elseBlock : Typed.Block) :
    nestArms (relocateArms ρ arms) (Typed.Stmt.relocateBlock ρ elseBlock) =
      Typed.Stmt.relocateBlock ρ (nestArms arms elseBlock) := by
  induction arms with
  | nil => rfl
  | cons arm rest ih =>
    have hnest : nestArms (arm :: rest) elseBlock =
        [.branch arm.1 arm.2 (nestArms rest elseBlock) arm.1.loc] := rfl
    rw [hnest]
    simp only [Typed.Stmt.relocateBlock, Typed.Stmt.relocate, ← ih, ← Typed.Expr.loc_relocate]
    rfl

namespace Source.Stmt

mutual

/-- **Statements are checked in step with their revisions.** -/
theorem check_inStep : ∀ (stmt : Source.Stmt) {Γ : Context},
    r.Resolves strict Γ.scopes.types types →
      (check Γ stmt).InStep strict r.loc
        (Prod.map (Typed.Stmt.relocate r.loc) (Context.revise r.loc types))
        (check (Γ.revise r.loc types) (stmt.revise r))
  | .declare decls values loc, Γ, hres => by
    simp only [revise, check]
    refine .bind (Context.declareVars_inStep hres decls values loc) fun declared _ => .pure ?_
    simp only [Prod.map, Typed.Stmt.relocate]
  | .assign targets values loc, Γ, hres => by
    simp only [revise, check]
    refine .bind (Context.assign_inStep hres targets values loc) fun assigned _ => .pure ?_
    simp only [Prod.map, Typed.Stmt.relocate]
  | .call expr loc, Γ, hres => by
    simp only [revise, check, Expr.isCall_revise]
    refine .bind (expr.check_inStep hres _) fun typed _ => .pure ?_
    simp only [Prod.map, Typed.Stmt.relocate]
  | .block body loc, Γ, hres => by
    simp only [revise, check, Context.enter_revise]
    refine .bind (checkBlock_inStep body hres) fun checked _ => .pure ?_
    simp only [Prod.map, Typed.Stmt.relocate]
  | .whileDo condition body loc, Γ, hres => by
    simp only [revise, check, Context.enterLoop_revise]
    refine .bind (condition.check_inStep hres _) fun typed _ =>
      .bind (checkBlock_inStep body hres) fun checked _ => .pure ?_
    simp only [Prod.map, Typed.Stmt.relocate]
  | .repeatUntil body condition loc, Γ, hres => by
    simp only [revise, check, Context.enterLoop_revise]
    refine .bind (checkBlock_inStep body hres) fun checked hchecked => ?_
    -- the condition sees the variables of the body, but the type names of the loop
    have htypes : checked.2.scopes.types = Γ.scopes.types := by
      rw [← hchecked]
      exact checkBlock_sameButVars.scopes.types
    refine .bind (condition.check_inStep (htypes ▸ hres) _) fun typed _ => .pure ?_
    simp only [Prod.map, Typed.Stmt.relocate]
  | .branch condition thenBlock arms elseBlock loc, Γ, hres => by
    simp only [revise, check, Context.enter_revise]
    refine .bind (condition.check_inStep hres _) fun typed _ =>
      .bind (checkBlock_inStep thenBlock hres) fun checked _ =>
      .bind (checkArms_inStep arms hres) fun typedArms _ =>
      .bind (checkElse_inStep elseBlock hres) fun typedElse _ => .pure ?_
    simp only [Prod.map, Typed.Stmt.relocate, nestArms_relocate]
  | .numericFor decl start limit step body loc, Γ, hres => by
    simp only [revise, check, Context.enterLoop_revise]
    refine .bind (Context.numericHeader_inStep hres decl start limit step loc) fun header _ => ?_
    refine .bind (Context.declareAll_inStep .inner [header.decl] Γ.enterLoop) fun Δ hΔ => ?_
    have htypes : Δ.scopes.types = Γ.scopes.types := by
      rw [← hΔ]
      exact Context.declareAll_sameButVars.scopes.types
    refine .bind (checkBlock_inStep body (htypes ▸ hres)) fun checked _ => .pure ?_
    simp only [Prod.map, Typed.Stmt.relocate, NumericHeader.relocate]
  | .genericFor decls values body loc, Γ, hres => by
    simp only [revise, check, Context.enterLoop_revise]
    refine .bind (Context.iterate_inStep hres values loc) fun iterated _ =>
      .bind (Context.loopVars_inStep hres decls iterated.produced loc) fun vars _ => ?_
    refine .bind (Context.declareAll_inStep .inner vars Γ.enterLoop) fun Δ hΔ => ?_
    have htypes : Δ.scopes.types = Γ.scopes.types := by
      rw [← hΔ]
      exact Context.declareAll_sameButVars.scopes.types
    refine .bind (checkBlock_inStep body (htypes ▸ hres)) fun checked _ => .pure ?_
    simp only [Prod.map, Typed.Stmt.relocate, Iterated.relocate]
  | .ret values loc, Γ, hres => by
    simp only [revise, check]
    refine .bind (Expr.checkValues_inStep hres _ values _ 0) fun list _ =>
      .bind .require fun _ _ => .pure ?_
    simp only [Prod.map, Typed.Stmt.relocate, Values.relocate]
  | .brk loc, Γ, hres => by
    simp only [revise, check]
    refine .bind .require fun _ _ => .pure ?_
    simp only [Prod.map, Typed.Stmt.relocate]

theorem checkBlock_inStep : ∀ (stmts : List Source.Stmt) {Γ : Context},
    r.Resolves strict Γ.scopes.types types →
      (checkBlock Γ stmts).InStep strict r.loc
        (Prod.map (Typed.Stmt.relocateBlock r.loc) (Context.revise r.loc types))
        (checkBlock (Γ.revise r.loc types) (reviseBlock r stmts))
  | [], _, _ => by
    simp only [reviseBlock, checkBlock]
    exact .pure rfl
  | stmt :: rest, Γ, hres => by
    simp only [reviseBlock, checkBlock]
    refine .bind (check_inStep stmt hres) fun checked hchecked => ?_
    have htypes : checked.2.scopes.types = Γ.scopes.types := by
      rw [← hchecked]
      exact check_sameButVars.scopes.types
    refine .bind (checkBlock_inStep rest (htypes ▸ hres)) fun block _ => .pure ?_
    simp only [Prod.map, Typed.Stmt.relocateBlock]

theorem checkArms_inStep : ∀ (arms : List Arm) {Γ : Context},
    r.Resolves strict Γ.scopes.types types →
      (checkArms Γ arms).InStep strict r.loc (relocateArms r.loc)
        (checkArms (Γ.revise r.loc types) (reviseArms r arms))
  | [], _, _ => by
    simp only [reviseArms, checkArms]
    exact .pure rfl
  | ⟨condition, body⟩ :: rest, Γ, hres => by
    simp only [reviseArms, checkArms, Context.enter_revise]
    exact .bind (condition.check_inStep hres _) fun _ _ =>
      .bind (checkBlock_inStep body hres) fun _ _ =>
      .bind (checkArms_inStep rest hres) fun _ _ => .pure rfl

theorem checkElse_inStep : ∀ (body : Option (List Source.Stmt)) {Γ : Context},
    r.Resolves strict Γ.scopes.types types →
      (checkElse Γ body).InStep strict r.loc (Typed.Stmt.relocateBlock r.loc)
        (checkElse (Γ.revise r.loc types) (reviseElse r body))
  | none, _, _ => by
    simp only [reviseElse, checkElse]
    exact .pure rfl
  | some body, Γ, hres => by
    simp only [reviseElse, checkElse, Context.enter_revise]
    exact .bind (checkBlock_inStep body hres) fun _ _ => .pure rfl

end

end Source.Stmt

end LuaTyping
