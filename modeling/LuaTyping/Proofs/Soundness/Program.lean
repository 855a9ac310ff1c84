import LuaTyping.Proofs.Soundness.Stmt

/-!
# Accepted programs are well typed

Items are well typed in the environment of the context in front of them, and the environment behind
them is that of the context behind them (`Item.check_item`).  So an accepted program is well typed
over its builtins (`check_wellTyped`).
-/

namespace LuaTyping

open Typed (Env flatTypes)

variable {Γ Δ : Context} {E E' : Env} {options : Options} {loc : Location}

/-! ### Paths that return -/

theorem returns_nestArms (elseBlock : Typed.Block) (arms : List (Typed.Expr × Typed.Block)) :
    Typed.Block.returns (nestArms arms elseBlock) =
      (arms.all (fun arm => Typed.Block.returns arm.2) && Typed.Block.returns elseBlock) := by
  induction arms with
  | nil => simp [nestArms]
  | cons arm rest ih =>
    simp only [nestArms, List.foldr_cons] at ih ⊢
    simp [Typed.Block.returns, Typed.Stmt.returns, ih, Bool.and_assoc]

namespace Source.Stmt

mutual

/-- A typed statement returns on every path if the statement does. -/
theorem check_returns : ∀ {stmt : Source.Stmt} {Γ Δ : Context} {t : Typed.Stmt},
    (check Γ stmt).Yields (t, Δ) → t.returns = stmt.returns
  | .declare .., Γ, Δ, t, h | .assign .., Γ, Δ, t, h | .call .., Γ, Δ, t, h
  | .whileDo .., Γ, Δ, t, h | .repeatUntil .., Γ, Δ, t, h | .numericFor .., Γ, Δ, t, h
  | .genericFor .., Γ, Δ, t, h | .ret .., Γ, Δ, t, h | .brk _, Γ, Δ, t, h => by
    rw [show t = (t, Δ).1 from rfl, ← h.value_eq, check]
    rfl
  | .block body loc, Γ, Δ, t, h => by
    simp only [check, Report.yields_bind, Report.yields_pure, Prod.mk.injEq] at h
    obtain ⟨⟨typed, _⟩, hb, rfl, -⟩ := h
    rw [Typed.Stmt.returns, Stmt.returns, checkBlock_returns hb]
  | .branch condition thenBlock arms elseBlock loc, Γ, Δ, t, h => by
    simp only [check, Report.yields_bind, Report.yields_pure, Prod.mk.injEq] at h
    obtain ⟨_, -, ⟨thenBlock', _⟩, ht, arms', ha, elseBlock', he, rfl, -⟩ := h
    rw [Typed.Stmt.returns, Stmt.returns, returns_nestArms, checkBlock_returns ht,
      checkArms_returns ha, checkElse_returns he, Bool.and_assoc]

theorem checkBlock_returns : ∀ {stmts : List Source.Stmt} {Γ Δ : Context}
    {typed : List Typed.Stmt}, (checkBlock Γ stmts).Yields (typed, Δ) →
      Typed.Block.returns typed = Block.returns stmts
  | [], Γ, Δ, typed, h => by
    simp only [checkBlock, Report.yields_pure, Prod.mk.injEq] at h
    rw [h.1, Typed.Block.returns, Block.returns]
  | [last], Γ, Δ, typed, h => by
    simp only [checkBlock, Report.yields_bind, Report.yields_pure, Prod.mk.injEq] at h
    obtain ⟨⟨t, _⟩, hs, _, rfl, rfl, -⟩ := h
    rw [Typed.Block.returns, Block.returns, check_returns hs]
  | stmt :: next :: rest, Γ, Δ, typed, h => by
    rw [checkBlock] at h
    simp only [Report.yields_bind, Report.yields_pure, Prod.mk.injEq] at h
    obtain ⟨⟨t, Γ'⟩, -, ⟨ts, _⟩, hr, rfl, -⟩ := h
    have ih := checkBlock_returns hr
    simp only [checkBlock, Report.yields_bind, Report.yields_pure, Prod.mk.injEq] at hr
    obtain ⟨_, -, _, -, rfl, -⟩ := hr
    rw [Typed.Block.returns, Block.returns, ih]
    all_goals simp

theorem checkArms_returns : ∀ {arms : List Arm} {Γ : Context}
    {typed : List (Typed.Expr × Typed.Block)}, (checkArms Γ arms).Yields typed →
      typed.all (fun arm => Typed.Block.returns arm.2) = Arm.allReturn arms
  | [], Γ, typed, h => by
    rw [checkArms, Report.yields_pure] at h
    rw [h, Arm.allReturn, List.all_nil]
  | ⟨condition, body⟩ :: rest, Γ, typed, h => by
    simp only [checkArms, Report.yields_bind, Report.yields_pure] at h
    obtain ⟨_, -, ⟨body', _⟩, hb, arms', ha, rfl⟩ := h
    rw [List.all_cons, Arm.allReturn, checkBlock_returns hb, checkArms_returns ha]

theorem checkElse_returns : ∀ {body : Option (List Source.Stmt)} {Γ : Context}
    {typed : List Typed.Stmt}, (checkElse Γ body).Yields typed →
      Typed.Block.returns typed = Block.elseReturns body
  | none, Γ, typed, h => by
    rw [checkElse, Report.yields_pure] at h
    rw [h, Typed.Block.returns, Block.elseReturns]
  | some body, Γ, typed, h => by
    simp only [checkElse, Report.yields_bind, Report.yields_pure] at h
    obtain ⟨⟨body', _⟩, hb, rfl⟩ := h
    rw [Block.elseReturns, checkBlock_returns hb]

end

end Source.Stmt

/-! ### The module variable stays in sight -/

namespace Typed.Env

/-- The name of the module variable stands for it. -/
def ModuleInSight (E : Env) : Prop :=
  ∀ name, E.module = some name → E.vars name = some (.module, .module [])

theorem declareAll_vars {name : String} {found : VarKind × Ty} : ∀ {decls : List Decl} {E : Env},
    Fresh decls E → E.vars name = some found →
      (declareAll .toplevel decls E).vars name = some found
  | [], _, _, h => h
  | decl :: rest, E, hf, h => by
    rw [declareAll]
    refine declareAll_vars hf.2 ?_
    have hne : name ≠ decl.name := by
      rintro rfl
      rw [hf.1] at h
      cases h
    simpa [declare, hne] using h

theorem declareAll_module {kind : VarKind} : ∀ {decls : List Decl} {E : Env},
    (declareAll kind decls E).module = E.module
  | [], _ => rfl
  | decl :: rest, E => by
    rw [declareAll, declareAll_module]
    rfl

theorem Targets.same {targets : List Typed.Target} {E₁ E₂ : Env} (h : E.Targets E₁ targets E₂) :
    E₂.module = E₁.module ∧ E₂.vars = E₁.vars := by
  induction h with
  | nil => exact ⟨rfl, rfl⟩
  | existing _ _ ih => exact ih
  | newField _ _ _ _ ih => exact ih

theorem Item.moduleInSight {item : Typed.Item} (h : E.Item item E') (hE : E.ModuleInSight) :
    E'.ModuleInSight := by
  cases h with
  | module _ _ =>
    intro name hname
    cases hname
    simp [declare]
  | var _ hf =>
    intro name hname
    rw [declareAll_module] at hname
    exact declareAll_vars hf (hE name hname)
  | function _ hn _ _ =>
    cases hn with
    | plain hfresh =>
      intro name hname
      have hv := hE name hname
      have hne : name ≠ _ := fun he => by
        rw [he, hfresh] at hv
        cases hv
      simpa [declare, hne] using hv
    | member _ _ => exact hE
  | assign ht _ _ =>
    obtain ⟨hm, hv⟩ := ht.same
    intro name hname
    rw [hv]
    exact hE name (hm ▸ hname)
  | record _ => exact hE

end Typed.Env

/-! ### Items -/

theorem Ty.isModuleField_true {ty : Ty} {scalars : Bool} (h : ty.isModuleField scalars = true) :
    ty.isModuleField true = true := by
  cases ty <;> simp_all [isModuleField]

namespace Context

theorem moduleField?_eq_some {expr : Source.Expr} {module field : String}
    (h : Γ.moduleField? expr = some (module, field)) :
    (∃ site loc, expr = .field (.name module site) field loc) ∧ Γ.isModuleVar module = true := by
  unfold moduleField? at h
  split at h
  · next name site key loc =>
    split_ifs at h with hm
    cases h
    exact ⟨⟨site, loc, rfl⟩, hm⟩
  · cases h

/-- Targets at the toplevel, with the types of their values. -/
theorem declareFields_targets (hΓ : Γ.Proper false) : ∀ {exprs : List Source.Expr}
    {targets : List ItemTarget} {types : List Ty} {Γ₁ Δ : Context} {typed : List Typed.Target},
      List.Forall₂ (fun expr target => (Γ.itemTarget expr).Yields target) exprs targets →
        targets.length = types.length → Ty.Meets types (targets.map ItemTarget.expected) →
          (declareFields options loc targets types Γ₁).Yields (typed, Δ) →
            Γ.env.Targets Γ₁.env typed Δ.env ∧ List.Forall₂ Ty.Agrees types (typed.map (·.ty))
  | [], [], [], Γ₁, Δ, typed, _, _, _, h => by
    simp only [declareFields, Report.yields_pure, Prod.mk.injEq] at h
    obtain ⟨rfl, rfl⟩ := h
    exact ⟨.nil, .nil⟩
  | _ :: _, target :: rest, [], Γ₁, Δ, typed, _, hlen, _, _ => by simp at hlen
  | expr :: exprs, target :: rest, ty :: types, Γ₁, Δ, typed, .cons hfirst hrest, hlen, hm, h => by
    obtain ⟨hty, hm⟩ := hm
    have hlen' : rest.length = types.length := by simpa using hlen
    rcases itemTarget_yields hfirst with ⟨module, field, hmodule, -, rfl⟩ | ⟨found, hf, rfl⟩
    · simp only [declareFields, Report.yields_bind, Report.yields_pure, Prod.mk.injEq,
        List.headD_cons, List.tail_cons] at h
      obtain ⟨Γ₂, hd, ⟨typed', Δ'⟩, hr, rfl, rfl⟩ := h
      obtain ⟨ht, hagrees⟩ := declareFields_targets hΓ hrest hlen' hm hr
      obtain ⟨hnone, henv⟩ := env_declareField hd
      have hallowed := Ty.isModuleField_true (declareField_yields hd).1
      rw [henv] at ht
      exact ⟨.newField (hΓ.hasModule (moduleField?_eq_some hmodule).2) hnone hallowed ht,
        .cons (Or.inl rfl) hagrees⟩
    · obtain ⟨found, rfl, -⟩ := target_proper hΓ hf
      simp only [declareFields, Report.yields_bind, Report.yields_pure, Prod.mk.injEq,
        List.tail_cons] at h
      obtain ⟨⟨typed', Δ'⟩, hr, rfl, rfl⟩ := h
      obtain ⟨ht, hagrees⟩ := declareFields_targets hΓ hrest hlen' hm hr
      exact ⟨.existing (target_target hΓ hf) ht, .cons (hty _ rfl) hagrees⟩

theorem itemAssign_item (hΓ : Γ.Proper false) {targets values : List Source.Expr}
    {item : Typed.Item} (h : (itemAssign options Γ targets values loc).Yields (item, Δ)) :
    Γ.env.Item item Δ.env := by
  obtain ⟨found, list, typed, hf, hv, hlen, -, hd, rfl⟩ := itemAssign_yields hΓ h
  have he := itemTargets_expected_proper hΓ hf
  obtain ⟨ht, hagrees⟩ := declareFields_targets hΓ (Report.yields_mapM.mp hf) hlen
    (Source.Expr.checkValues_meets hΓ he hv) hd
  rw [Source.Expr.checkValues_flatTypes hv] at hagrees
  exact .assign ht (Source.Expr.checkValues_values hΓ he hv) hagrees

theorem declareFunction_names (hΓ : Γ.Proper false) (hk : Γ.varKind = .toplevel)
    {name : Source.FunctionName} {ty : Ty} (h : (declareFunction options Γ name ty loc).Yields Δ) :
    Γ.env.Names name ty Δ.env := by
  rcases declareFunction_yields h with ⟨plain, rfl, hd⟩ | ⟨module, field, rfl, hm, hd⟩
  · rw [env_declare hd]
    exact .plain (env_vars_eq_none hd hk)
  · obtain ⟨hnone, henv⟩ := env_declareField hd
    rw [henv]
    exact .member (hΓ.hasModule hm) hnone

theorem params_plain {decls : List Source.Decl} {params : List Typed.Decl}
    (h : (decls.mapM Γ.param).Yields params) : ∀ decl ∈ params, decl.implicitCast = false := by
  rw [Report.yields_mapM] at h
  induction h with
  | nil => simp
  | cons hfirst _ ih =>
    obtain ⟨ty, -, rfl⟩ := param_yields hfirst
    exact List.forall_mem_cons.mpr ⟨rfl, ih⟩

theorem function_item (hΓ : Γ.Proper false) (hk : Γ.varKind = .toplevel) {decl : Source.Function}
    {item : Typed.Item} (h : (Context.function options Γ decl).Yields (item, Δ)) :
    Γ.env.Item item Δ.env := by
  obtain ⟨params, returns, body, hparams, -, hp, hd, hb, rfl⟩ := function_yields hΓ h
  have hΔ := (hΓ.declareFunction hk hp hd).1
  rw [Ty.proper_function_iff] at hp
  simp only [functionBody, Report.yields_bind, Report.yields_require, Report.yields_pure] at hb
  obtain ⟨Γ', hall, ⟨typed, Δ'⟩, hblock, _, hret, rfl⟩ := hb
  obtain ⟨hΓ', hk'⟩ := hΔ.functionBody (params_proper hΓ hparams) hp.2 hall
  have hbody := Source.Stmt.checkBlock_stmts hΓ' hk' hblock
  rw [env_declareAll hall] at hbody
  refine .function (params_plain hparams) (declareFunction_names hΓ hk hd) hbody ?_
  rw [Source.Stmt.checkBlock_returns hblock]
  simpa using hret

theorem recordFields_nodup {record : String} : ∀ {decls : List Source.Decl}
    {known fields : NameMap Ty}, known.keys.Nodup →
      (Γ.recordFields record decls known).Yields fields → fields.keys.Nodup
  | [], known, fields, hk, h => by
    rw [recordFields, Report.yields_pure] at h
    rwa [h]
  | decl :: rest, known, fields, hk, h => by
    simp only [recordFields, Report.yields_bind] at h
    obtain ⟨_, -, _, -, h⟩ := h
    split_ifs at h
    · simp at h
    · exact recordFields_nodup (NameMap.nodup_keys_insert hk) h

theorem moduleVar_item (hk : Γ.varKind = .toplevel) {decl : Source.Decl}
    {values : List Source.Expr} {item : Typed.Item}
    (h : (Γ.moduleVar decl values loc).Yields (item, Δ)) : Γ.env.Item item Δ.env := by
  simp only [moduleVar, Report.yields_bind, Report.yields_pure, Prod.mk.injEq] at h
  obtain ⟨value, hv, Δ', hd, rfl, rfl⟩ := h
  obtain ⟨hmodule, hfresh, henv⟩ := env_declareModule hk hd
  unfold moduleInit at hv
  split at hv
  · simp only [Source.Expr.check, Report.yields_bind, Report.yields_pure] at hv
    obtain ⟨_, -, rfl⟩ := hv
    rw [henv]
    exact .module hmodule hfresh
  · simp at hv

end Context

namespace Source

/-- **Items are well typed.**  A type alias leaves no item behind. -/
theorem Item.check_item (hΓ : Γ.Proper false) (hk : Γ.varKind = .toplevel) {item : Item}
    (hr : item.isReturn = false) {t : Option Typed.Item}
    (h : (item.check options Γ).Yields (t, Δ)) :
    (t = none ∧ Δ.env = Γ.env) ∨ ∃ typed, t = some typed ∧ Γ.env.Item typed Δ.env := by
  unfold Item.check at h
  split at h <;> simp only [Report.yields_bind, Report.yields_pure, Prod.mk.injEq] at h
  · obtain ⟨⟨typed, Δ'⟩, hm, rfl, rfl⟩ := h
    exact Or.inr ⟨typed, rfl, Context.moduleVar_item hk hm⟩
  · obtain ⟨⟨⟨typed, values⟩, Δ'⟩, hd, rfl, rfl⟩ := h
    obtain ⟨hdecl, hall⟩ := Context.declareVars_declares hΓ hd
    rw [hk] at hall
    refine Or.inr ⟨_, rfl, ?_⟩
    rw [Context.env_declareAll hall]
    exact .var hdecl (Context.fresh_of_declareAll hk hall)
  · obtain ⟨⟨typed, Δ'⟩, hf, rfl, rfl⟩ := h
    exact Or.inr ⟨typed, rfl, Context.function_item hΓ hk hf⟩
  · obtain ⟨⟨typed, Δ'⟩, ha, rfl, rfl⟩ := h
    exact Or.inr ⟨typed, rfl, Context.itemAssign_item hΓ ha⟩
  · obtain ⟨fields, hf, Δ', hd, rfl, rfl⟩ := h
    refine Or.inr ⟨_, rfl, ?_⟩
    rw [Context.env_declareType hd]
    exact .record (Context.recordFields_nodup (by simp [NameMap.keys]) hf)
  · obtain ⟨ty, -, Δ', hd, rfl, rfl⟩ := h
    exact Or.inl ⟨rfl, Context.env_declareType hd⟩
  · cases hr

theorem Item.check_return (hΓ : Γ.Proper false) (hm : Γ.env.ModuleInSight) {item : Item}
    (hr : item.isReturn = true) {t : Option Typed.Item}
    (h : (item.check options Γ).Yields (t, Δ)) :
    ∃ typed, t = some typed ∧ Γ.env.Items [typed] := by
  cases item <;> simp only [Item.isReturn, Bool.false_eq_true] at hr
  simp only [Item.check, Report.yields_bind, Report.yields_pure, Prod.mk.injEq] at h
  obtain ⟨typed, hret, rfl, rfl⟩ := h
  obtain ⟨expr, value, name, -, hc, hkind, hname, rfl⟩ := Context.moduleReturn_yields hΓ hret
  refine ⟨_, rfl, .ret ?_ hkind ⟨hname, hm name hname⟩⟩
  exact Expr.check_value hΓ hc

theorem checkItems_items : ∀ {items : List Item} {last : Item} {Γ Δ : Context}
    {typed : List Typed.Item}, Γ.Proper false → Γ.varKind = .toplevel → Γ.env.ModuleInSight →
      items.getLast? = some last → last.isReturn = true →
        (checkItems options Γ items).Yields (typed, Δ) → Γ.env.Items typed
  | [], last, Γ, Δ, typed, _, _, _, hl, _, _ => by cases hl
  | [item], last, Γ, Δ, typed, hΓ, _, hm, hl, hr, h => by
    cases hl
    simp only [checkItems, Report.yields_bind, Report.yields_pure, Prod.mk.injEq] at h
    obtain ⟨_, -, ⟨t, Γ'⟩, ht, _, rfl, rfl, rfl⟩ := h
    obtain ⟨typed, rfl, hitems⟩ := Item.check_return hΓ hm hr ht
    exact hitems
  | item :: next :: rest, last, Γ, Δ, typed, hΓ, hk, hm, hl, hr, h => by
    rw [checkItems] at h
    simp only [Report.yields_bind, Report.yields_require, Report.yields_pure, Prod.mk.injEq] at h
    obtain ⟨_, hnot, ⟨t, Γ'⟩, ht, ⟨ts, Δ'⟩, hts, rfl, rfl⟩ := h
    have hnot' : item.isReturn = false := by simpa using hnot
    obtain ⟨hΓ', hk'⟩ := Item.check_context_proper hΓ hk ht
    have hl' : (next :: rest).getLast? = some last := by simpa using hl
    rcases Item.check_item hΓ hk hnot' ht with ⟨rfl, henv⟩ | ⟨typed, rfl, hitem⟩
    · have hrest := checkItems_items hΓ' hk' (henv ▸ hm) hl' hr hts
      rwa [henv] at hrest
    · exact .cons hitem (checkItems_items hΓ' hk' (hitem.moduleInSight hm) hl' hr hts)

namespace Program

/-- **Accepted programs are well typed.**  Over builtins in whose types neither `unknown` nor the
module type occurs, the typed program of an accepted module follows the typing rules. -/
theorem check_wellTyped (builtins : Builtins) (options : Options) (program : Program)
    (checked : CheckedModule) (hb : ∀ ty ∈ builtins.types, ty.proper false = true)
    (h : program.check builtins options = .ok checked) : checked.program.WellTyped builtins := by
  obtain ⟨items, Γ, name, hw, -, rfl⟩ := walk_yields_of_check h
  obtain ⟨hitems, -, last, hlast, hret⟩ := walk_yields hw
  have hstart := Context.start_proper hb
  exact checkItems_items hstart rfl (by intro name hname; cases hname) hlast hret hitems

/-- A module with a record, conversions between numbers and to and from `any`, a `repeat` whose
condition sees its body, and a field that an assignment declares. -/
def shapes : Program :=
  let here := Location.nowhere
  let name (text : String) : Expr := .name text here
  let scaled (key : String) : Entry :=
    .named key (.binary (.field (name "p") key here) .mul (name "by") here) here
  let scale : Function :=
    ⟨.member "m" "scale", [⟨"p", some (.name "Point" here), here⟩, ⟨"by", some .integer, here⟩],
      [.name "Point" here],
      [.declare [⟨"q", some (.name "Point" here), here⟩] [.init [scaled "x", scaled "y"] here] here,
        .repeatUntil
          [.declare [⟨"done", none, here⟩]
            [.binary (.field (name "q") "x" here) .gt (.integer 10 here) here] here]
          (name "done") here,
        .ret [name "q"] here], here⟩
  let pair : Function :=
    ⟨.plain "pair", [], [.integer, .any], [.ret [.integer 1 here, .string "a" here] here], here⟩
  let label : Function :=
    ⟨.member "m" "label", [⟨"flag", some .boolean, here⟩], [.string],
      [.declare [⟨"n", some .any, here⟩, ⟨"s", some .string, here⟩] [.call (name "pair") [] here] here,
        .branch (name "flag") [.ret [name "s"] here]
          [⟨.binary (name "n") .eq (name "n") here,
            [.ret [.call (name "tostring") [name "n"] here] here]⟩]
          (some [.ret [.string "none" here] here]) here], here⟩
  .inModule [.record "Point" [⟨"x", some .float, here⟩, ⟨"y", some .float, here⟩] here,
    .function scale, .function pair, .function label,
    .assign [.field (name "m") "limit" here] [.field (name "math") "maxinteger" here] here]

theorem shapes_wellTyped :
    (∀ ty ∈ Builtins.standard.types, ty.proper false = true) ∧
      ∃ checked, shapes.check .standard .standard = .ok checked ∧
        checked.program.WellTyped .standard := by
  have hb : ∀ ty ∈ Builtins.standard.types, ty.proper false = true := by decide
  obtain ⟨checked, hc⟩ := accepted_iff.mp
    (by decide +kernel : (shapes.check .standard .standard).isOk = true)
  exact ⟨hb, checked, hc, check_wellTyped .standard .standard shapes checked hb hc⟩

end Program

end Source

end LuaTyping
