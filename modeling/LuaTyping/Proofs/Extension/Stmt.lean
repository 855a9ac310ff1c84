import LuaTyping.Proofs.Extension.Expr
import LuaTyping.Proofs.Frame.Stmt

/-!
# Statements over more builtins

Assignments, declarations, loop headers and statements yield the same over an extended table of
builtins (`Stmt.check_keeps`).  The context behind a statement then differs only by the table.
-/

namespace LuaTyping

open Report (Keeps)

variable {Γ : Context} {builtins : Builtins} {loc : Location}

/-- A result with its context over another table of builtins. -/
def rebaseResult {α : Type} (builtins : Builtins) (result : α × Context) : α × Context :=
  (result.1, result.2.rebase builtins)

/-! ### Declarations -/

theorem Source.Decl.stated_rebase (decl : Source.Decl) :
    decl.stated (Γ.rebase builtins) = decl.stated Γ := by
  unfold Source.Decl.stated
  cases decl.type with
  | none => rfl
  | some type =>
    simp only [TypeExpr.resolve_rebase]

namespace Context

theorem declare_keeps {name : String} {binding : Binding} :
    (Γ.declare name binding).Keeps (rebase · builtins)
      ((Γ.rebase builtins).declare name binding) := by
  obtain ⟨⟨_, inner, toplevel, types⟩, module, returns, inLoop⟩ := Γ
  cases inner with
  | cons layer outer => exact .pure
  | nil =>
    simp only [Context.declare, Scopes.declare, rebase]
    cases toplevel.lookup name with
    | some previous => exact .of_fault
    | none => exact .pure

theorem declareAll_keeps {kind : VarKind} : ∀ {decls : List Typed.Decl} {Γ : Context},
    (declareAll kind decls Γ).Keeps (rebase · builtins) (declareAll kind decls (Γ.rebase builtins))
  | [], _ => .pure
  | _ :: _, _ => .bind declare_keeps fun _ _ => declareAll_keeps

section
variable (hext : Γ.scopes.builtins.Extends builtins)
include hext

theorem declaredValues_keeps {decls : List (Source.Decl × Option Ty)}
    {values : List Source.Expr} :
    (Γ.declaredValues decls values loc).Keeps id
      ((Γ.rebase builtins).declaredValues decls values loc) := by
  unfold declaredValues
  split
  · exact .refl
  · exact .bind (Source.Expr.checkValues_keeps hext _ values _ 0) fun _ _ => .refl

theorem declareVars_keeps {decls : List Source.Decl} {values : List Source.Expr} :
    (Γ.declareVars decls values loc).Keeps (rebaseResult builtins)
      ((Γ.rebase builtins).declareVars decls values loc) := by
  unfold declareVars
  refine .bind (.mapM fun decl _ => ?_) fun stated _ => ?_
  · rw [Source.Decl.stated_rebase]
    exact .refl
  · exact .bind (declaredValues_keeps hext) fun _ _ => .bind .refl fun _ _ =>
      .bind declareAll_keeps fun _ _ => .pure

/-! ### Assignments -/

theorem nameTarget_keeps {name : String} :
    (Γ.nameTarget name loc).Keeps id ((Γ.rebase builtins).nameTarget name loc) := by
  intro target h
  obtain ⟨ty, site, ⟨hl, rfl⟩ | ⟨hl, rfl⟩⟩ := nameTarget_yields h <;>
    simp [nameTarget, lookup_rebase hext hl]

theorem target_keeps (expr : Source.Expr) :
    (Γ.target expr).Keeps id ((Γ.rebase builtins).target expr) := by
  cases expr with
  | name name loc => exact nameTarget_keeps hext
  | field object field loc =>
    cases hlib : Γ.library? object with
    | some found =>
      simp only [target, hlib]
      exact .of_fault
    | none =>
      intro found h
      simp only [target, hlib] at h
      obtain ⟨typed, hc, -⟩ := Report.yields_bind.mp h
      have hlib' : (Γ.rebase builtins).library? object = none := by
        simp only [Source.Expr.check, hlib, Report.yields_bind] at hc
        obtain ⟨_, ho, -⟩ := hc
        exact library?_rebase_of_none hext hlib ho
      simp only [target, hlib']
      exact Keeps.bind (Source.Expr.check_keeps hext _ _) (fun _ _ => .refl) found h
  | index object key loc => exact .bind (Source.Expr.check_keeps hext _ _) fun _ _ => .refl
  | _ => exact .of_fault

theorem assign_keeps {targets values : List Source.Expr} :
    (Γ.assign targets values loc).Keeps id ((Γ.rebase builtins).assign targets values loc) := by
  unfold assign
  exact .bind (.mapM fun expr _ => target_keeps hext expr) fun _ _ =>
    .bind (Source.Expr.checkValues_keeps hext _ values _ 0) fun _ _ => .refl

/-! ### Loop headers -/

theorem numericHeader_keeps {decl : Source.Decl} {start limit : Source.Expr}
    {step : Option Source.Expr} :
    (Γ.numericHeader decl start limit step loc).Keeps id
      ((Γ.rebase builtins).numericHeader decl start limit step loc) := by
  have hstart : (Γ.numericStart decl start).Keeps id
      ((Γ.rebase builtins).numericStart decl start) := by
    unfold numericStart
    rw [Source.Decl.stated_rebase]
    refine .bind .refl fun stated _ => ?_
    cases stated with
    | none => exact .bind (Source.Expr.check_keeps hext start _) fun _ _ => .refl
    | some ty => exact .bind (Source.Expr.check_keeps hext start _) fun _ _ => .refl
  have hstep : ∀ ty, (Γ.numericStep ty step loc).Keeps id
      ((Γ.rebase builtins).numericStep ty step loc) := by
    intro ty
    cases step with
    | none => exact .refl
    | some step => exact Source.Expr.check_keeps hext step _
  unfold numericHeader
  exact .bind hstart fun _ _ => .bind .refl fun _ _ =>
    .bind (Source.Expr.check_keeps hext limit _) fun _ _ => .bind (hstep _) fun _ _ => .refl

theorem ipairsLoop_keeps {args : List Source.Expr} :
    (Γ.ipairsLoop args loc).Keeps id ((Γ.rebase builtins).ipairsLoop args loc) := by
  unfold ipairsLoop
  exact .bind (.mapM fun arg _ => Source.Expr.check_keeps hext arg _) fun _ _ => .refl

theorem loopValues_keeps {exprs : List Source.Expr} :
    (Γ.loopValues exprs).Keeps id ((Γ.rebase builtins).loopValues exprs) := by
  induction exprs with
  | nil => exact .refl
  | cons expr rest ih =>
    exact .bind (Source.Expr.check_keeps hext expr _) fun _ _ => .bind ih fun _ _ => .refl

theorem ipairsCall?_rebase_of_some {exprs args : List Source.Expr}
    (h : Γ.ipairsCall? exprs = some (args, loc)) :
    (Γ.rebase builtins).ipairsCall? exprs = some (args, loc) := by
  obtain ⟨site, ty, he, hl⟩ := ipairsCall?_eq_some_iff.mp h
  exact ipairsCall?_eq_some_iff.mpr ⟨site, ty, he, lookup_rebase hext hl⟩

/-- Values that are no call of `ipairs` do not become one: their names stand for something. -/
theorem ipairsCall?_rebase_of_none {exprs : List Source.Expr} {values : List Typed.Expr}
    (h : Γ.ipairsCall? exprs = none) (hv : (Γ.loopValues exprs).Yields values) :
    (Γ.rebase builtins).ipairsCall? exprs = none := by
  cases hcall : (Γ.rebase builtins).ipairsCall? exprs with
  | none => rfl
  | some found =>
    obtain ⟨args, loc⟩ := found
    obtain ⟨site, ty, rfl, hl⟩ := ipairsCall?_eq_some_iff.mp hcall
    obtain ⟨_, hc, -⟩ := Report.yields_bind.mp hv
    simp only [Source.Expr.check, Report.yields_bind] at hc
    obtain ⟨_, ⟨_, hn, -⟩, -⟩ := hc
    obtain ⟨resolved, hl'⟩ := lookup_isSome_of_nameExpr hn
    obtain rfl : resolved = .builtin ty := by
      rw [lookup_rebase hext hl'] at hl
      exact Option.some.inj hl
    rw [ipairsCall?_eq_some_iff.mpr ⟨site, ty, rfl, hl'⟩] at h
    exact absurd h (by simp)

theorem iterate_keeps {exprs : List Source.Expr} :
    (Γ.iterate exprs loc).Keeps id ((Γ.rebase builtins).iterate exprs loc) := by
  unfold iterate
  cases hcall : Γ.ipairsCall? exprs with
  | some found =>
    rw [ipairsCall?_rebase_of_some hext hcall]
    exact ipairsLoop_keeps hext
  | none =>
    intro iterated h
    have hloop : (Γ.iteratorLoop exprs loc).Keeps id ((Γ.rebase builtins).iteratorLoop exprs loc) :=
      .bind (loopValues_keeps hext) fun _ _ => .refl
    obtain ⟨values, hv, -⟩ := Report.yields_bind.mp h
    rw [ipairsCall?_rebase_of_none hext hcall hv]
    exact hloop iterated h

end

theorem loopVarList_rebase : ∀ {decls : List Source.Decl} {types : List Ty},
    (Γ.rebase builtins).loopVarList decls types = Γ.loopVarList decls types
  | [], _ => rfl
  | decl :: _, _ => by
    simp only [loopVarList, loopVar, Source.Decl.stated_rebase, loopVarList_rebase]

theorem loopVars_rebase {decls : List Source.Decl} {produced : Option (List Ty)} :
    (Γ.rebase builtins).loopVars decls produced loc = Γ.loopVars decls produced loc := by
  cases produced <;> simp only [loopVars, loopVarList_rebase]

end Context

/-! ### Statements -/

namespace Source.Stmt

mutual

/-- **Statements yield the same over more builtins.** -/
theorem check_keeps : ∀ (stmt : Source.Stmt) {Γ : Context},
    Γ.scopes.builtins.Extends builtins →
      (check Γ stmt).Keeps (rebaseResult builtins) (check (Γ.rebase builtins) stmt)
  | .declare decls values loc, Γ, hext => by
    rw [check, check]
    exact .bind (Context.declareVars_keeps hext) fun _ _ => .pure
  | .assign targets values loc, Γ, hext => by
    rw [check, check]
    exact .bind (Context.assign_keeps hext) fun _ _ => .pure
  | .call expr loc, Γ, hext => by
    rw [check, check]
    exact .bind (Expr.check_keeps hext expr _) fun _ _ => .pure
  | .block body loc, Γ, hext => by
    rw [check, check]
    exact .bind (checkBlock_keeps body (Γ := Γ.enter) hext) fun _ _ => .pure
  | .whileDo condition body loc, Γ, hext => by
    rw [check, check]
    exact .bind (Expr.check_keeps hext condition _) fun _ _ =>
      .bind (checkBlock_keeps body (Γ := Γ.enterLoop) hext) fun _ _ => .pure
  | .repeatUntil body condition loc, Γ, hext => by
    rw [check, check]
    refine .bind (checkBlock_keeps body (Γ := Γ.enterLoop) hext) fun (_, Δ) h => ?_
    have hΔ : Γ.enterLoop.SameButVars Δ := sameButVars_of_checkBlock h
    exact .bind (Expr.check_keeps (hΔ.scopes.builtins ▸ hext) condition _) fun _ _ => .pure
  | .branch condition thenBlock arms elseBlock loc, Γ, hext => by
    rw [check, check]
    exact .bind (Expr.check_keeps hext condition _) fun _ _ =>
      .bind (checkBlock_keeps thenBlock (Γ := Γ.enter) hext) fun _ _ =>
        .bind (checkArms_keeps arms hext) fun _ _ =>
          .bind (checkElse_keeps elseBlock hext) fun _ _ => .pure
  | .numericFor decl start limit step body loc, Γ, hext => by
    rw [check, check]
    refine .bind (Context.numericHeader_keeps hext) fun header _ => ?_
    refine .bind (Context.declareAll_keeps (Γ := Γ.enterLoop)) fun Δ h => ?_
    have hΔ : Γ.enterLoop.SameButVars Δ := Context.sameButVars_of_declareAll h
    exact .bind (checkBlock_keeps body (hΔ.scopes.builtins ▸ hext)) fun _ _ => .pure
  | .genericFor decls values body loc, Γ, hext => by
    rw [check, check]
    refine .bind (Context.iterate_keeps hext) fun iterated _ => ?_
    rw [Context.loopVars_rebase]
    refine .bind .refl fun decls _ => ?_
    refine .bind (Context.declareAll_keeps (Γ := Γ.enterLoop)) fun Δ h => ?_
    have hΔ : Γ.enterLoop.SameButVars Δ := Context.sameButVars_of_declareAll h
    exact .bind (checkBlock_keeps body (hΔ.scopes.builtins ▸ hext)) fun _ _ => .pure
  | .ret values loc, Γ, hext => by
    rw [check, check]
    exact .bind (Expr.checkValues_keeps hext _ values _ 0) fun _ _ => .bind .refl fun _ _ => .pure
  | .brk loc, Γ, hext => by
    rw [check, check]
    exact .bind .refl fun _ _ => .pure

theorem checkBlock_keeps : ∀ (stmts : List Source.Stmt) {Γ : Context},
    Γ.scopes.builtins.Extends builtins →
      (checkBlock Γ stmts).Keeps (rebaseResult builtins) (checkBlock (Γ.rebase builtins) stmts)
  | [], Γ, _ => by
    rw [checkBlock, checkBlock]
    exact .pure
  | stmt :: rest, Γ, hext => by
    rw [checkBlock, checkBlock]
    refine .bind (check_keeps stmt hext) fun (_, Δ) h => ?_
    have hΔ : Γ.SameButVars Δ := sameButVars_of_check h
    exact .bind (checkBlock_keeps rest (hΔ.scopes.builtins ▸ hext)) fun _ _ => .pure

theorem checkArms_keeps : ∀ (arms : List Arm) {Γ : Context},
    Γ.scopes.builtins.Extends builtins →
      (checkArms Γ arms).Keeps id (checkArms (Γ.rebase builtins) arms)
  | [], Γ, _ => by
    rw [checkArms, checkArms]
    exact .refl
  | ⟨condition, body⟩ :: rest, Γ, hext => by
    rw [checkArms, checkArms]
    exact .bind (Expr.check_keeps hext condition _) fun _ _ =>
      .bind (checkBlock_keeps body (Γ := Γ.enter) hext) fun _ _ =>
        .bind (checkArms_keeps rest hext) fun _ _ => .refl

theorem checkElse_keeps : ∀ (body : Option (List Source.Stmt)) {Γ : Context},
    Γ.scopes.builtins.Extends builtins →
      (checkElse Γ body).Keeps id (checkElse (Γ.rebase builtins) body)
  | none, Γ, _ => by
    rw [checkElse, checkElse]
    exact .refl
  | some body, Γ, hext => by
    rw [checkElse, checkElse]
    exact .bind (checkBlock_keeps body (Γ := Γ.enter) hext) fun _ _ => .refl

end

end Source.Stmt

end LuaTyping
