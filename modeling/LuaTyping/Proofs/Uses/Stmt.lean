import LuaTyping.Proofs.Uses.Expr

/-!
# Where statements look a name up

The look-ups of a statement are those of its expressions, each in the context in which the check
comes to it.  Two places need care.  An expression that cannot be assigned to is passed over as the
target of an assignment, and the argument of `ipairs` in a loop is looked at without a type.

A name that a statement does not introduce is lacking behind it if it was in front of it
(`Lacks.checkBlock`), so that an undeclared name is still reported where it is looked up, and only
there (`Stmt.check_reports`).
-/

namespace LuaTyping

open Violation (isUndeclared)

variable {Γ : Context} {n : String} {loc : Location}

/-! ### A name that is lacking -/

namespace Context

theorem Lacks.enter (h : Γ.Lacks n) : Γ.enter.Lacks n :=
  h

theorem Lacks.enterLoop (h : Γ.Lacks n) : Γ.enterLoop.Lacks n :=
  h

theorem Lacks.enterFunction (h : Γ.Lacks n) (returns : List Ty) :
    (Γ.enterFunction returns).Lacks n :=
  h

theorem lacks_iff : Γ.Lacks n ↔ Γ.scopes.var? n = none ∧ Γ.scopes.builtins.get? n = none := by
  unfold Lacks Scopes.lookup
  cases Γ.scopes.var? n with
  | some binding => simp
  | none =>
    cases Γ.scopes.builtins.get? n with
    | none => simp
    | some builtin => cases builtin <;> simp

theorem Lacks.declare (h : Γ.Lacks n) {name : String} (hne : n ≠ name) (binding : Binding) :
    (Γ.declare name binding).value.Lacks n := by
  obtain ⟨hvar, hbuiltin⟩ := lacks_iff.mp h
  refine lacks_iff.mpr ?_
  unfold Context.declare Scopes.declare
  simp only [Scopes.var?, Option.or_eq_none_iff] at hvar ⊢
  cases hinner : Γ.scopes.inner with
  | cons layer outer =>
    rw [hinner] at hvar
    simp only [Report.value_pure, List.findSome?_cons, NameMap.lookup_insert, if_neg hne] at hvar ⊢
    exact ⟨hvar, hbuiltin⟩
  | nil =>
    rw [hinner] at hvar
    cases hname : Γ.scopes.toplevel.lookup name with
    | some previous =>
      simp only [Report.value_bind, Report.value_pure, hinner]
      exact ⟨hvar, hbuiltin⟩
    | none =>
      simp only [Report.value_pure, NameMap.lookup_insert, if_neg hne]
      exact ⟨hvar, hbuiltin⟩

theorem Lacks.declareAll {kind : VarKind} {decls : List Typed.Decl} {Γ : Context} (h : Γ.Lacks n)
    (hn : n ∉ decls.map (·.name)) : (declareAll kind decls Γ).value.Lacks n := by
  induction decls generalizing Γ with
  | nil => exact h
  | cons decl rest ih =>
    rw [List.map_cons, List.mem_cons, not_or] at hn
    exact ih (h.declare hn.1 _) hn.2

theorem undeclared_declareAll (kind : VarKind) (decls : List Typed.Decl) :
    (declareAll kind decls Γ).undeclared n = [] :=
  (declareAll_avoids kind decls Γ fun _ _ _ => rfl).undeclared

end Context

/-! ### Declarations and assignments -/

namespace Source

theorem Decl.undeclared_stated (decl : Decl) : (decl.stated Γ).undeclared n = [] :=
  (decl.stated_avoids Γ).undeclared

theorem Decl.typed_value_name (decl : Decl) (stated value : Option Ty) :
    (decl.typed stated value).value.name = decl.name := by
  unfold typed
  split <;> rfl

theorem Decl.typedAll_value_names (decls : List (Decl × Option Ty)) (tys : List Ty) :
    (typedAll decls tys).value.map (·.name) = decls.map (·.1.name) := by
  induction decls generalizing tys with
  | nil => rfl
  | cons entry rest ih =>
    simp only [typedAll, Report.value_bind, Report.value_pure, List.map_cons, typed_value_name, ih]

namespace Expr

/-- Whether the expression is of a form that can be assigned to. -/
def isTarget : Expr → Bool
  | .name .. | .field .. | .index .. => true
  | _ => false

/-- The places where the target of an assignment uses the name, those in a target of another form
only if `all` are asked for. -/
def targetUses (all : Bool) (n : String) (expr : Expr) : List Location :=
  if all || expr.isTarget then expr.uses all n else []

/-- The look-ups in the target of an assignment. -/
def targetLooks (Γ : Context) (n : String) (expr : Expr) : List Location :=
  if expr.isTarget then expr.looks Γ n none else []

theorem targetLooks_between (expr : Expr) :
    Between (targetUses false n expr) (targetLooks Γ n expr) (targetUses true n expr) := by
  unfold targetUses targetLooks
  cases expr.isTarget with
  | false => exact ⟨List.nil_sublist _, List.nil_sublist _⟩
  | true => exact looks_between expr none

theorem listUses_eq_flatMap (all : Bool) (exprs : List Expr) :
    listUses all n exprs = exprs.flatMap (uses all n) := by
  induction exprs with
  | nil => rfl
  | cons expr rest ih => rw [listUses, ih, List.flatMap_cons]

end Expr

end Source

namespace Context

theorem declareVars_reports (h : Γ.Lacks n) (decls : List Source.Decl)
    (values : List Source.Expr) : (Γ.declareVars decls values loc).undeclared n =
      Source.Expr.listLooks Γ n values (decls.map fun decl => (decl.stated Γ).value) := by
  have hstated : (decls.mapM (Source.Decl.stated Γ)).undeclared n = [] :=
    (Report.Avoids.mapM fun decl => decl.stated_avoids Γ).undeclared
  have hsnd : ∀ stated : List (Option Ty), stated.length = decls.length →
      (decls.zip stated).map Prod.snd = stated := fun stated hlength =>
    List.map_snd_zip (Nat.le_of_eq hlength)
  simp only [declareVars, Report.undeclared_bind, hstated, List.nil_append, Report.undeclared_pure,
    (Source.Decl.typedAll_avoids _ _).undeclared, undeclared_declareAll, List.append_nil,
    Report.value_mapM, declaredValues]
  split
  · next hempty =>
    rw [List.isEmpty_iff.mp hempty]
    simp [Source.Expr.listLooks, (Source.Decl.requireStated_avoids _).undeclared]
  · simp [Source.Expr.checkValues_reports h, hsnd, isUndeclared]

theorem Lacks.declareVars (h : Γ.Lacks n) {decls : List Source.Decl} (hn : n ∉ decls.map (·.name))
    (values : List Source.Expr) : (Γ.declareVars decls values loc).value.2.Lacks n := by
  refine h.declareAll ?_
  rw [Source.Decl.typedAll_value_names, Report.value_mapM]
  intro hmem
  obtain ⟨entry, hentry, hname⟩ := List.mem_map.mp hmem
  exact hn (List.mem_map.mpr ⟨entry.1, (List.of_mem_zip hentry).1, hname⟩)

theorem target_reports (h : Γ.Lacks n) (expr : Source.Expr) :
    (Γ.target expr).undeclared n = expr.targetLooks Γ n := by
  cases expr with
  | name text loc =>
    simp only [target, nameTarget, Source.Expr.targetLooks, Source.Expr.isTarget, if_true,
      Source.Expr.looks]
    split
    case h_6 hname => simp [isUndeclared]
    all_goals
      rename_i hname
      simp [isUndeclared, h.ne_of_lookup hname]
  | field object field loc =>
    simp only [target, Source.Expr.targetLooks, Source.Expr.isTarget, if_true]
    split
    · next library members hlib =>
      simp [isUndeclared, Source.Expr.looks, h.looks_of_library? hlib]
    · simp [Source.Expr.check_reports h, Demand.type?]
  | index object key loc =>
    simp [target, Source.Expr.targetLooks, Source.Expr.isTarget, Source.Expr.check_reports h,
      Demand.type?]
  | _ => simp [target, Source.Expr.targetLooks, Source.Expr.isTarget, isUndeclared]

theorem assign_reports (h : Γ.Lacks n) (targets values : List Source.Expr) :
    (Γ.assign targets values loc).undeclared n =
      targets.flatMap (Source.Expr.targetLooks Γ n) ++ Source.Expr.listLooks Γ n values
        (targets.map fun target => some (Typed.Target.wanted (Γ.target target).value)) := by
  simp [assign, Report.undeclared_mapM, Report.value_mapM, target_reports h,
    Source.Expr.checkValues_reports h, isUndeclared, Function.comp_def]

/-! ### Loop headers -/

/-- The look-ups in the expressions of a loop.  The arguments of `ipairs` are not expected to have a
type. -/
def sourceLooks (Γ : Context) (n : String) (values : List Source.Expr) : List Location :=
  match values with
  | [.call callee args loc] =>
    if (Γ.ipairsCall? [.call callee args loc]).isSome then
      callee.looks Γ n none ++ args.flatMap (·.looks Γ n none)
    else
      (Source.Expr.call callee args loc).looks Γ n none
  | values => values.flatMap (·.looks Γ n none)

theorem sourceLooks_between (Γ : Context) (values : List Source.Expr) :
    Between (Source.Expr.listUses false n values) (Γ.sourceLooks n values)
      (Source.Expr.listUses true n values) := by
  unfold sourceLooks
  split
  · next callee args loc =>
    simp only [Source.Expr.listUses, List.append_nil]
    split
    · simp only [Source.Expr.uses, Source.Expr.listUses_eq_flatMap]
      exact (callee.looks_between none).append (.flatMap fun arg => arg.looks_between none)
    · exact Source.Expr.looks_between _ none
  · simp only [Source.Expr.listUses_eq_flatMap]
    exact .flatMap fun value => value.looks_between none

theorem loopValues_reports (h : Γ.Lacks n) (exprs : List Source.Expr) :
    (Γ.loopValues exprs).undeclared n = exprs.flatMap (·.looks Γ n none) := by
  induction exprs with
  | nil => rfl
  | cons expr rest ih =>
    have htype : (if rest.isEmpty && expr.isCall then Demand.results else .value).type? = none := by
      split <;> rfl
    rw [loopValues, Report.undeclared_bind, Report.undeclared_bind, Report.undeclared_pure,
      List.append_nil, Source.Expr.check_reports h, htype, ih, List.flatMap_cons]

theorem ipairsLoop_reports (h : Γ.Lacks n) (args : List Source.Expr) :
    (Γ.ipairsLoop args loc).undeclared n = args.flatMap (·.looks Γ n none) := by
  simp only [ipairsLoop, Report.undeclared_bind, Report.undeclared_mapM,
    Source.Expr.check_reports h, Demand.type?]
  split <;> simp [isUndeclared, (Typed.Expr.ipairsTypes_avoids _).undeclared]

theorem iteratorLoop_reports (h : Γ.Lacks n) (exprs : List Source.Expr) :
    (Γ.iteratorLoop exprs loc).undeclared n = exprs.flatMap (·.looks Γ n none) := by
  simp only [iteratorLoop, Report.undeclared_bind, loopValues_reports h]
  split
  · split <;> simp [(LoopValues.coerce_avoids _ _ _).undeclared,
      (LoopValues.requireThree_avoids _ _).undeclared]
  · simp [isUndeclared]
  · simp
  · simp [isUndeclared]

theorem iterate_reports (h : Γ.Lacks n) (exprs : List Source.Expr) :
    (Γ.iterate exprs loc).undeclared n = Γ.sourceLooks n exprs := by
  unfold iterate sourceLooks
  split
  · next args place hcall =>
    obtain ⟨site, ty, rfl, hname⟩ := ipairsCall?_eq_some_iff.mp hcall
    simp [hcall, ipairsLoop_reports h, Source.Expr.looks, h.ne_of_lookup hname]
  · next hcall =>
    rw [iteratorLoop_reports h]
    split
    · simp [hcall]
    · rfl

/-- The look-ups in the header of a numeric loop. -/
def headerLooks (Γ : Context) (n : String) (decl : Source.Decl) (start limit : Source.Expr)
    (step : Option Source.Expr) (loc : Location) : List Location :=
  let control := (Γ.numericHeader decl start limit step loc).value.decl.ty
  start.looks Γ n (decl.stated Γ).value ++ limit.looks Γ n (some control) ++
    step.elim [] (·.looks Γ n (some control))

theorem headerLooks_between (Γ : Context) (decl : Source.Decl) (start limit : Source.Expr)
    (step : Option Source.Expr) (loc : Location) :
    Between (start.uses false n ++ limit.uses false n ++ step.elim [] (·.uses false n))
      (Γ.headerLooks n decl start limit step loc)
      (start.uses true n ++ limit.uses true n ++ step.elim [] (·.uses true n)) := by
  refine ((start.looks_between _).append (limit.looks_between _)).append ?_
  cases step with
  | none => exact .refl
  | some step => exact step.looks_between _

theorem numericHeader_reports (h : Γ.Lacks n) (decl : Source.Decl) (start limit : Source.Expr)
    (step : Option Source.Expr) : (Γ.numericHeader decl start limit step loc).undeclared n =
      Γ.headerLooks n decl start limit step loc := by
  have hstart : (Γ.numericStart decl start).undeclared n =
      start.looks Γ n (decl.stated Γ).value := by
    simp only [numericStart, Report.undeclared_bind, decl.undeclared_stated, List.nil_append]
    split <;> simp [Source.Expr.check_reports h, Demand.type?, *]
  have hstep : ∀ ty, (Γ.numericStep ty step loc).undeclared n =
      step.elim [] (·.looks Γ n (some ty)) := by
    intro ty
    cases step with
    | none => rfl
    | some step => exact Source.Expr.check_reports h step _
  simp only [numericHeader, headerLooks, Report.undeclared_bind, hstart, hstep,
    (Ty.control_avoids _ _ _).undeclared, Source.Expr.check_reports h, Demand.type?,
    Report.undeclared_pure, Report.value_bind, Report.value_pure, List.append_nil, List.nil_append,
    List.append_assoc]
  rfl

theorem loopVar_value_name (decl : Source.Decl) (found : Ty) :
    (Γ.loopVar decl found).value.name = decl.name := by
  simp only [loopVar, Report.value_bind]
  split
  · rfl
  · split
    · rfl
    · split <;> rfl

theorem loopVars_value_names (decls : List Source.Decl) (produced : Option (List Ty)) :
    (Γ.loopVars decls produced loc).value.map (·.name) = decls.map (·.name) := by
  have hlist : ∀ tys, (Γ.loopVarList decls tys).value.map (·.name) = decls.map (·.name) := by
    intro tys
    induction decls generalizing tys with
    | nil => rfl
    | cons decl rest ih =>
      simp only [loopVarList, Report.value_bind, Report.value_pure, List.map_cons,
        loopVar_value_name, ih]
  cases produced with
  | none => exact hlist []
  | some tys => exact hlist tys

end Context

/-! ### Statements -/

namespace Source.Stmt

mutual

/-- The names that the statement introduces, those inside it included. -/
def introduces : Stmt → List String
  | .declare decls _ _ => decls.map (·.name)
  | .block body _ | .whileDo _ body _ | .repeatUntil body _ _ => blockIntroduces body
  | .branch _ thenBlock arms elseBlock _ =>
    blockIntroduces thenBlock ++ armIntroduces arms ++ elseIntroduces elseBlock
  | .numericFor decl _ _ _ body _ => decl.name :: blockIntroduces body
  | .genericFor decls _ body _ => decls.map (·.name) ++ blockIntroduces body
  | .assign .. | .call .. | .ret .. | .brk _ => []

/-- The names that the statements introduce. -/
def blockIntroduces : List Stmt → List String
  | [] => []
  | stmt :: rest => introduces stmt ++ blockIntroduces rest

/-- The names that the blocks of `elseif`s introduce. -/
def armIntroduces : List Arm → List String
  | [] => []
  | ⟨_, body⟩ :: rest => blockIntroduces body ++ armIntroduces rest

/-- The names that the block of an `else` introduces. -/
def elseIntroduces : Option (List Stmt) → List String
  | none => []
  | some body => blockIntroduces body

end

mutual

/-- The places where the statement uses the name, those in constructors and in targets that cannot
be assigned to only if `all` are asked for. -/
def uses (all : Bool) (n : String) : Stmt → List Location
  | .declare _ values _ => Expr.listUses all n values
  | .assign targets values _ =>
    targets.flatMap (Expr.targetUses all n) ++ Expr.listUses all n values
  | .call expr _ => expr.uses all n
  | .block body _ => blockUses all n body
  | .whileDo condition body _ => condition.uses all n ++ blockUses all n body
  | .repeatUntil body condition _ => blockUses all n body ++ condition.uses all n
  | .branch condition thenBlock arms elseBlock _ =>
    condition.uses all n ++ blockUses all n thenBlock ++ armUses all n arms ++
      elseUses all n elseBlock
  | .numericFor _ start limit step body _ =>
    start.uses all n ++ limit.uses all n ++ step.elim [] (·.uses all n) ++ blockUses all n body
  | .genericFor _ values body _ => Expr.listUses all n values ++ blockUses all n body
  | .ret values _ => Expr.listUses all n values
  | .brk _ => []

/-- The places where the statements use the name. -/
def blockUses (all : Bool) (n : String) : List Stmt → List Location
  | [] => []
  | stmt :: rest => uses all n stmt ++ blockUses all n rest

/-- The places where `elseif`s use the name. -/
def armUses (all : Bool) (n : String) : List Arm → List Location
  | [] => []
  | ⟨condition, body⟩ :: rest => condition.uses all n ++ blockUses all n body ++ armUses all n rest

/-- The places where the block of an `else` uses the name. -/
def elseUses (all : Bool) (n : String) : Option (List Stmt) → List Location
  | none => []
  | some body => blockUses all n body

end

mutual

/-- The places where the check of a statement looks the name up. -/
def looks (Γ : Context) (n : String) : Stmt → List Location
  | .declare decls values _ =>
    Expr.listLooks Γ n values (decls.map fun decl => (decl.stated Γ).value)
  | .assign targets values _ =>
    targets.flatMap (Expr.targetLooks Γ n) ++ Expr.listLooks Γ n values
      (targets.map fun target => some (Typed.Target.wanted (Γ.target target).value))
  | .call expr _ => expr.looks Γ n none
  | .block body _ => blockLooks Γ.enter n body
  | .whileDo condition body _ =>
    condition.looks Γ n (some .boolean) ++ blockLooks Γ.enterLoop n body
  | .repeatUntil body condition _ =>
    blockLooks Γ.enterLoop n body ++
      condition.looks (checkBlock Γ.enterLoop body).value.2 n (some .boolean)
  | .branch condition thenBlock arms elseBlock _ =>
    condition.looks Γ n (some .boolean) ++ blockLooks Γ.enter n thenBlock ++ armLooks Γ n arms ++
      elseLooks Γ n elseBlock
  | .numericFor decl start limit step body loc =>
    Γ.headerLooks n decl start limit step loc ++
      blockLooks (Context.declareAll .inner
        [(Γ.numericHeader decl start limit step loc).value.decl] Γ.enterLoop).value n body
  | .genericFor decls values body loc =>
    Γ.sourceLooks n values ++
      blockLooks (Context.declareAll .inner
        (Γ.loopVars decls (Γ.iterate values loc).value.produced loc).value Γ.enterLoop).value n body
  | .ret values _ => Expr.listLooks Γ n values (Γ.returns.map some)
  | .brk _ => []

/-- The look-ups in statements one after another. -/
def blockLooks (Γ : Context) (n : String) : List Stmt → List Location
  | [] => []
  | stmt :: rest => looks Γ n stmt ++ blockLooks (check Γ stmt).value.2 n rest

/-- The look-ups in `elseif`s. -/
def armLooks (Γ : Context) (n : String) : List Arm → List Location
  | [] => []
  | ⟨condition, body⟩ :: rest =>
    condition.looks Γ n (some .boolean) ++ blockLooks Γ.enter n body ++ armLooks Γ n rest

/-- The look-ups in the block of an `else`. -/
def elseLooks (Γ : Context) (n : String) : Option (List Stmt) → List Location
  | none => []
  | some body => blockLooks Γ.enter n body

end

/-! ### Look-ups and uses in statements -/

mutual

/-- **Names in plain sight are looked up**, and every look-up is a use. -/
theorem looks_between : ∀ (stmt : Source.Stmt) (Γ : Context),
    Between (uses false n stmt) (looks Γ n stmt) (uses true n stmt)
  | .declare decls values loc, Γ => by
    simp only [uses, looks]
    exact Expr.listLooks_between values _
  | .assign targets values loc, Γ => by
    simp only [uses, looks]
    exact .append (.flatMap Expr.targetLooks_between) (Expr.listLooks_between values _)
  | .call expr loc, Γ => by
    simp only [uses, looks]
    exact expr.looks_between _
  | .block body loc, Γ => by
    simp only [uses, looks]
    exact blockLooks_between body _
  | .whileDo condition body loc, Γ => by
    simp only [uses, looks]
    exact (condition.looks_between _).append (blockLooks_between body _)
  | .repeatUntil body condition loc, Γ => by
    simp only [uses, looks]
    exact (blockLooks_between body _).append (condition.looks_between _)
  | .branch condition thenBlock arms elseBlock loc, Γ => by
    simp only [uses, looks]
    exact (((condition.looks_between _).append (blockLooks_between thenBlock _)).append
      (armLooks_between arms Γ)).append (elseLooks_between elseBlock Γ)
  | .numericFor decl start limit step body loc, Γ => by
    simp only [uses, looks]
    exact (Γ.headerLooks_between decl start limit step loc).append (blockLooks_between body _)
  | .genericFor decls values body loc, Γ => by
    simp only [uses, looks]
    exact (Γ.sourceLooks_between values).append (blockLooks_between body _)
  | .ret values loc, Γ => by
    simp only [uses, looks]
    exact Expr.listLooks_between values _
  | .brk loc, Γ => by
    simp only [uses, looks]
    exact .refl

theorem blockLooks_between : ∀ (stmts : List Source.Stmt) (Γ : Context),
    Between (blockUses false n stmts) (blockLooks Γ n stmts) (blockUses true n stmts)
  | [], Γ => by
    simp only [blockUses, blockLooks]
    exact .refl
  | stmt :: rest, Γ => by
    simp only [blockUses, blockLooks]
    exact (looks_between stmt Γ).append (blockLooks_between rest _)

theorem armLooks_between : ∀ (arms : List Arm) (Γ : Context),
    Between (armUses false n arms) (armLooks Γ n arms) (armUses true n arms)
  | [], Γ => by
    simp only [armUses, armLooks]
    exact .refl
  | ⟨condition, body⟩ :: rest, Γ => by
    simp only [armUses, armLooks]
    exact ((condition.looks_between _).append (blockLooks_between body _)).append
      (armLooks_between rest Γ)

theorem elseLooks_between : ∀ (body : Option (List Source.Stmt)) (Γ : Context),
    Between (elseUses false n body) (elseLooks Γ n body) (elseUses true n body)
  | none, Γ => by
    simp only [elseUses, elseLooks]
    exact .refl
  | some body, Γ => by
    simp only [elseUses, elseLooks]
    exact blockLooks_between body _

end

/-! ### Reports on statements -/

theorem check_lacks {Γ : Context} (h : Γ.Lacks n) {stmt : Source.Stmt} (hn : n ∉ introduces stmt) :
    (check Γ stmt).value.2.Lacks n := by
  cases hdeclares : stmt.isDeclaration with
  | false => rwa [check_context_eq hdeclares]
  | true =>
    cases stmt with
    | declare decls values loc =>
      rw [introduces] at hn
      rw [check]
      exact h.declareVars hn values
    | _ => cases hdeclares

theorem checkBlock_lacks {stmts : List Source.Stmt} {Γ : Context} (h : Γ.Lacks n)
    (hn : n ∉ blockIntroduces stmts) : (checkBlock Γ stmts).value.2.Lacks n := by
  induction stmts generalizing Γ with
  | nil => exact h
  | cons stmt rest ih =>
    rw [blockIntroduces, List.mem_append, not_or] at hn
    rw [checkBlock]
    exact ih (check_lacks h hn.1) hn.2

mutual

/-- **An undeclared name is reported where it is looked up**, and nowhere else. -/
theorem check_reports : ∀ (stmt : Source.Stmt) {Γ : Context}, Γ.Lacks n →
    n ∉ introduces stmt → (check Γ stmt).undeclared n = looks Γ n stmt
  | .declare decls values loc, Γ, h, _ => by
    simp only [check, looks, Report.undeclared_bind, Report.undeclared_pure, List.append_nil,
      Context.declareVars_reports h]
  | .assign targets values loc, Γ, h, _ => by
    simp only [check, looks, Report.undeclared_bind, Report.undeclared_pure, List.append_nil,
      Context.assign_reports h]
  | .call expr loc, Γ, h, _ => by
    have htype : (if expr.isCall then Demand.results else .value).type? = none := by split <;> rfl
    simp only [check, looks, Report.undeclared_bind, Report.undeclared_pure, List.append_nil,
      Expr.check_reports h, htype]
  | .block body loc, Γ, h, hn => by
    rw [introduces] at hn
    simp only [check, looks, Report.undeclared_bind, Report.undeclared_pure, List.append_nil,
      checkBlock_reports body h.enter hn]
  | .whileDo condition body loc, Γ, h, hn => by
    rw [introduces] at hn
    simp only [check, looks, Report.undeclared_bind, Report.undeclared_pure, List.append_nil,
      Expr.check_reports h, Demand.type?, checkBlock_reports body h.enterLoop hn]
  | .repeatUntil body condition loc, Γ, h, hn => by
    rw [introduces] at hn
    simp only [check, looks, Report.undeclared_bind, Report.undeclared_pure, List.append_nil,
      checkBlock_reports body h.enterLoop hn,
      Expr.check_reports (checkBlock_lacks h.enterLoop hn), Demand.type?]
  | .branch condition thenBlock arms elseBlock loc, Γ, h, hn => by
    rw [introduces, List.mem_append, List.mem_append, not_or, not_or] at hn
    simp only [check, looks, Report.undeclared_bind, Report.undeclared_pure, List.append_nil,
      Expr.check_reports h, Demand.type?, checkBlock_reports thenBlock h.enter hn.1.1,
      checkArms_reports arms h hn.1.2, checkElse_reports elseBlock h hn.2, List.append_assoc]
  | .numericFor decl start limit step body loc, Γ, h, hn => by
    rw [introduces, List.mem_cons, not_or] at hn
    have hbody : (Context.declareAll .inner
        [(Γ.numericHeader decl start limit step loc).value.decl] Γ.enterLoop).value.Lacks n :=
      h.enterLoop.declareAll (by rw [List.map_singleton, List.mem_singleton]; exact hn.1)
    simp only [check, looks, Report.undeclared_bind, Report.undeclared_pure, List.append_nil,
      Context.numericHeader_reports h, Context.undeclared_declareAll, List.nil_append,
      checkBlock_reports body hbody hn.2]
  | .genericFor decls values body loc, Γ, h, hn => by
    rw [introduces, List.mem_append, not_or] at hn
    have hbody : (Context.declareAll .inner (Γ.loopVars decls
        (Γ.iterate values loc).value.produced loc).value Γ.enterLoop).value.Lacks n :=
      h.enterLoop.declareAll (by rw [Context.loopVars_value_names]; exact hn.1)
    simp only [check, looks, Report.undeclared_bind, Report.undeclared_pure, List.append_nil,
      Context.iterate_reports h, (Γ.loopVars_avoids _ _ _).undeclared,
      Context.undeclared_declareAll, List.nil_append, checkBlock_reports body hbody hn.2]
  | .ret values loc, Γ, h, _ => by
    simp [check, looks, Expr.checkValues_reports h, isUndeclared]
  | .brk loc, Γ, _, _ => by
    simp [check, looks, isUndeclared]

theorem checkBlock_reports : ∀ (stmts : List Source.Stmt) {Γ : Context}, Γ.Lacks n →
    n ∉ blockIntroduces stmts → (checkBlock Γ stmts).undeclared n = blockLooks Γ n stmts
  | [], Γ, _, _ => by
    simp only [checkBlock, blockLooks, Report.undeclared_pure]
  | stmt :: rest, Γ, h, hn => by
    rw [blockIntroduces, List.mem_append, not_or] at hn
    simp only [checkBlock, blockLooks, Report.undeclared_bind, Report.undeclared_pure,
      List.append_nil, check_reports stmt h hn.1,
      checkBlock_reports rest (check_lacks h hn.1) hn.2]

theorem checkArms_reports : ∀ (arms : List Arm) {Γ : Context}, Γ.Lacks n →
    n ∉ armIntroduces arms → (checkArms Γ arms).undeclared n = armLooks Γ n arms
  | [], Γ, _, _ => by
    simp only [checkArms, armLooks, Report.undeclared_pure]
  | ⟨condition, body⟩ :: rest, Γ, h, hn => by
    rw [armIntroduces, List.mem_append, not_or] at hn
    simp only [checkArms, armLooks, Report.undeclared_bind, Report.undeclared_pure, List.append_nil,
      Expr.check_reports h, Demand.type?, checkBlock_reports body h.enter hn.1,
      checkArms_reports rest h hn.2, List.append_assoc]

theorem checkElse_reports : ∀ (body : Option (List Source.Stmt)) {Γ : Context}, Γ.Lacks n →
    n ∉ elseIntroduces body → (checkElse Γ body).undeclared n = elseLooks Γ n body
  | none, Γ, _, _ => by
    simp only [checkElse, elseLooks, Report.undeclared_pure]
  | some body, Γ, h, hn => by
    rw [elseIntroduces] at hn
    simp only [checkElse, elseLooks, Report.undeclared_bind, Report.undeclared_pure,
      List.append_nil, checkBlock_reports body h.enter hn]

end

end Source.Stmt

end LuaTyping
