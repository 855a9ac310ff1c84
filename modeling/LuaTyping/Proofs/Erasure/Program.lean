import LuaTyping.Proofs.Erasure.Stmt
import LuaTyping.Proofs.Soundness.Program

/-!
# Accepted programs erase back

The typed program of an accepted module erases to the source program without its annotations
(`check_norm_eq_erase`): nothing of the program is lost, duplicated, reordered or replaced.  The
builtins have to be without `unknown` and without the module type.  Where one of them is not, the
entries of a constructor can get lost, and a member of a builtin can become a field of the module
(`builtins_lose_source`).
-/

namespace LuaTyping

open Typed (Env)

variable {Γ Δ : Context} {E : Env} {visible : Option String} {options : Options} {loc : Location}

/-! ### The module variable at the toplevel -/

namespace Typed.Env

theorem Fresh.vars_eq_none {name : String} : ∀ {decls : List Typed.Decl} {E : Env},
    Fresh decls E → name ∈ decls.map (·.name) → E.vars name = none
  | decl :: rest, E, h, hn => by
    by_cases he : name = decl.name
    · rw [he]
      exact h.1
    · have hrest := h.2.vars_eq_none (List.mem_of_ne_of_mem he hn)
      simpa [declare, he] using hrest

/-- New names do not hide the module variable. -/
theorem Sees.declareFresh {decls : List Typed.Decl} (hs : E.Sees visible) (h : Fresh decls E) :
    (Env.declareAll .toplevel decls E).Sees visible := by
  intro name
  rw [declareAll_module_iff (by decide), hs name]
  refine ⟨fun hm => ⟨hm, fun hn => ?_⟩, And.left⟩
  obtain ⟨ty, hv⟩ := hm
  rw [h.vars_eq_none hn] at hv
  cases hv

theorem Sees.declare {name : String} {ty : Ty} (hs : E.Sees visible) (h : E.vars name = none) :
    (E.declare .toplevel name ty).Sees visible := by
  have hfresh : Fresh [.plain name ty .nowhere] E := ⟨h, trivial⟩
  exact hs.declareFresh hfresh

end Typed.Env

namespace Context

theorem declareModule_sees (hΓ : Γ.Proper false) (hk : Γ.varKind = .toplevel) {name : String}
    {nameLoc : Location} (h : (Γ.declareModule name nameLoc loc).Yields Δ) :
    Δ.env.Sees (some name) := by
  obtain ⟨hmodule, -, henv⟩ := env_declareModule hk h
  intro other
  rw [henv]
  by_cases he : other = name
  · simp [Env.declare, he]
  · -- there is no other module variable
    have hnone : ¬∃ ty, Γ.env.vars other = some (.module, ty) := by
      intro hv
      have hvar := (hΓ.hasModule (isModuleVar_iff.mpr hv)).1
      rw [hmodule] at hvar
      cases hvar
    have hne : name ≠ other := fun h => he h.symm
    simpa [Env.declare, he, hne] using hnone

theorem declareFunction_sees (hk : Γ.varKind = .toplevel) (hs : Γ.env.Sees visible)
    {name : Source.FunctionName} {ty : Ty} (h : (declareFunction options Γ name ty loc).Yields Δ) :
    Δ.env.Sees visible := by
  rcases declareFunction_yields h with ⟨plain, rfl, hd⟩ | ⟨module, field, rfl, -, hd⟩
  · rw [env_declare hd]
    exact hs.declare (env_vars_eq_none hd hk)
  · rw [(env_declareField hd).2]
    exact hs

/-! ### Toplevel assignments -/

/-- Targets at the toplevel. -/
theorem declareFields_erase (hΓ : Γ.Proper false) (hs : Γ.env.Sees visible)
    {exprs : List Source.Expr} {targets : List ItemTarget} {types : List Ty} {Γ₁ Δ : Context}
    {typed : List Typed.Target}
    (htargets : List.Forall₂ (fun expr target => (Γ.itemTarget expr).Yields target) exprs targets)
    (h : (declareFields options loc targets types Γ₁).Yields (typed, Δ)) :
    typed.map Typed.Target.erase = Source.Expr.normList visible exprs ∧
      Δ.env.vars = Γ₁.env.vars := by
  induction htargets generalizing types Γ₁ typed with
  | nil =>
    simp only [declareFields, Report.yields_pure, Prod.mk.injEq] at h
    obtain ⟨rfl, rfl⟩ := h
    exact ⟨rfl, rfl⟩
  | cons hfirst _ ih =>
    rcases itemTarget_yields hfirst with ⟨module, field, hmodule, -, rfl⟩ | ⟨found, hf, rfl⟩
    · obtain ⟨⟨site, loc', rfl⟩, hm⟩ := moduleField?_eq_some hmodule
      simp only [declareFields, Report.yields_bind, Report.yields_pure, Prod.mk.injEq] at h
      obtain ⟨Γ₂, hd, ⟨typed', Δ'⟩, hr, rfl, rfl⟩ := h
      obtain ⟨ht, hvars⟩ := ih hr
      rw [(env_declareField hd).2] at hvars
      refine ⟨?_, hvars⟩
      rw [List.map_cons, ht, Source.Expr.normList,
        Source.Expr.norm_field_of_eq rfl ((hs module).mpr (isModuleVar_iff.mp hm))]
      rfl
    · obtain ⟨found, rfl, -⟩ := target_proper hΓ hf
      simp only [declareFields, Report.yields_bind, Report.yields_pure, Prod.mk.injEq] at h
      obtain ⟨⟨typed', Δ'⟩, hr, rfl, rfl⟩ := h
      obtain ⟨ht, hvars⟩ := ih hr
      refine ⟨?_, hvars⟩
      rw [Option.toList_some, List.singleton_append, List.map_cons, target_erase hΓ hs hf, ht,
        Source.Expr.normList]

/-! ### Functions and records -/

theorem params_names {decls : List Source.Decl} {params : List Typed.Decl}
    (h : (decls.mapM Γ.param).Yields params) :
    params.map (·.name) = decls.map (·.name) := by
  rw [Report.yields_mapM] at h
  induction h with
  | nil => rfl
  | cons hfirst _ ih =>
    obtain ⟨ty, -, rfl⟩ := param_yields hfirst
    rw [List.map_cons, List.map_cons, ih]
    rfl

theorem recordFields_keys {record : String} : ∀ {decls : List Source.Decl}
    {known fields : NameMap Ty}, (Γ.recordFields record decls known).Yields fields →
      fields.keys = known.keys ++ decls.map (·.name)
  | [], known, fields, h => by
    rw [recordFields, Report.yields_pure] at h
    rw [h, List.map_nil, List.append_nil]
  | decl :: rest, known, fields, h => by
    simp only [recordFields, Report.yields_bind] at h
    obtain ⟨_, -, _, -, h⟩ := h
    split_ifs at h with hnew
    · simp at h
    · have hmem : decl.name ∉ known.keys := by
        intro hmem
        obtain ⟨⟨key, ty⟩, hentry, rfl⟩ := List.mem_map.mp hmem
        exact hnew (by simpa [NameMap.contains, List.lookup_isSome_iff] using ⟨ty, hentry⟩)
      rw [recordFields_keys h, NameMap.keys_insert, if_neg hmem, List.map_cons, List.append_assoc,
        List.singleton_append]

end Context

/-! ### Items -/

namespace Source

/-- What can be seen of the module variable behind an item. -/
theorem Item.check_sees (hΓ : Γ.Proper false) (hk : Γ.varKind = .toplevel)
    (hs : Γ.env.Sees visible) {item : Item} {t : Option Typed.Item}
    (h : (item.check options Γ).Yields (t, Δ)) : Δ.env.Sees (item.visibleAfter visible) := by
  unfold Item.check at h
  split at h <;> simp only [Report.yields_bind, Report.yields_pure, Prod.mk.injEq] at h
  · obtain ⟨⟨typed, Δ'⟩, hm, -, rfl⟩ := h
    simp only [Context.moduleVar, Report.yields_bind, Report.yields_pure, Prod.mk.injEq] at hm
    obtain ⟨_, -, Δ', hd, -, rfl⟩ := hm
    exact Context.declareModule_sees hΓ hk hd
  · next hne =>
    obtain ⟨⟨⟨typed, values⟩, Δ'⟩, hd, -, rfl⟩ := h
    obtain ⟨-, hall⟩ := Context.declareVars_declares hΓ hd
    rw [hk] at hall
    rw [Item.visibleAfter, Context.env_declareAll hall]
    · exact hs.declareFresh (Context.fresh_of_declareAll hk hall)
    · intro name site _ _ he
      cases he
      exact hne name site rfl
  · obtain ⟨⟨typed, Δ'⟩, hf, -, rfl⟩ := h
    obtain ⟨params, returns, body, -, -, -, hd, -, -⟩ := Context.function_yields hΓ hf
    exact Context.declareFunction_sees hk hs hd
  · obtain ⟨⟨typed, Δ'⟩, ha, -, rfl⟩ := h
    obtain ⟨found, list, _, hf, -, -, -, hd, -⟩ := Context.itemAssign_yields hΓ ha
    have hvars := (Context.declareFields_erase hΓ hs (Report.yields_mapM.mp hf) hd).2
    intro name
    rw [hvars]
    exact hs name
  · obtain ⟨fields, -, Δ', hd, -, rfl⟩ := h
    rw [Context.env_declareType hd]
    exact hs
  · obtain ⟨ty, -, Δ', hd, -, rfl⟩ := h
    rw [Context.env_declareType hd]
    exact hs
  · obtain ⟨_, -, -, rfl⟩ := h
    exact hs

/-- The types of the loop variables in what an item has become. -/
def Item.typedLoopTypes (t : Option Typed.Item) : List Ty :=
  t.toList.flatMap Typed.Item.loopTypes

theorem Item.function_norm (hΓ : Γ.Proper false) (hk : Γ.varKind = .toplevel)
    (hs : Γ.env.Sees visible) {decl : Function} {typed : Typed.Item}
    (h : (Context.function options Γ decl).Yields (typed, Δ)) (tys : List Ty) :
    (Item.function decl).norm visible (typed.loopTypes ++ tys) = (some typed.erase, tys) := by
  obtain ⟨params, returns, body, hparams, -, hp, hd, hb, rfl⟩ := Context.function_yields hΓ h
  have hΔ := (hΓ.declareFunction hk hp hd).1
  have hnames := Context.params_names hparams
  rw [Ty.proper_function_iff] at hp
  simp only [Context.functionBody, Report.yields_bind, Report.yields_pure] at hb
  obtain ⟨Γ', hall, ⟨body', Δ'⟩, hblock, _, -, rfl⟩ := hb
  obtain ⟨hΓ', hk'⟩ := hΔ.functionBody (Context.params_proper hΓ hparams) hp.2 hall
  have hs' : Γ'.env.Sees (hide (decl.params.map (·.name)) visible) := by
    have hseen := Context.declareFunction_sees hk hs hd
    rw [← hnames]
    exact Context.sees_declareAll hall (by decide) hseen
  have hbody := Stmt.checkBlock_norm hΓ' hk' hs' hblock tys
  simp only [Item.norm, Typed.Item.loopTypes, hbody, Typed.Item.erase, hnames]

/-- **Items erase back.** -/
theorem Item.check_norm (hΓ : Γ.Proper false) (hk : Γ.varKind = .toplevel)
    (hs : Γ.env.Sees visible) {item : Item} {t : Option Typed.Item}
    (h : (item.check options Γ).Yields (t, Δ)) (tys : List Ty) :
    item.norm visible (Item.typedLoopTypes t ++ tys) = (t.map Typed.Item.erase, tys) := by
  unfold Item.check at h
  split at h <;> simp only [Report.yields_bind, Report.yields_pure, Prod.mk.injEq] at h
  · obtain ⟨⟨typed, Δ'⟩, hm, rfl, -⟩ := h
    simp only [Context.moduleVar, Report.yields_bind, Report.yields_pure, Prod.mk.injEq] at hm
    obtain ⟨value, hv, _, -, rfl, -⟩ := hm
    unfold Context.moduleInit at hv
    split at hv
    · simp only [Expr.check, Report.yields_bind, Report.yields_require, Report.yields_pure,
        List.isEmpty_iff] at hv
      obtain ⟨_, rfl, rfl⟩ := hv
      rfl
    · simp at hv
  · obtain ⟨⟨⟨typed, values⟩, Δ'⟩, hd, rfl, -⟩ := h
    obtain ⟨hnames, hvalues⟩ := Context.declareVars_erase hΓ hs hd
    rw [Item.norm, ← hnames, ← hvalues]
    rfl
  · obtain ⟨⟨typed, Δ'⟩, hf, rfl, -⟩ := h
    rw [Item.typedLoopTypes, Option.toList_some, List.flatMap_singleton]
    exact Item.function_norm hΓ hk hs hf tys
  · obtain ⟨⟨typed, Δ'⟩, ha, rfl, -⟩ := h
    obtain ⟨found, list, targets, hf, hv, -, -, hd, rfl⟩ := Context.itemAssign_yields hΓ ha
    obtain ⟨htargets, -⟩ := Context.declareFields_erase hΓ hs (Report.yields_mapM.mp hf) hd
    have he := Context.itemTargets_expected_proper hΓ hf
    rw [Item.norm, ← htargets, ← Expr.checkValues_erase hΓ hs he hv]
    rfl
  · obtain ⟨fields, hf, _, -, rfl, -⟩ := h
    have hkeys : fields.map Prod.fst = _ := Context.recordFields_keys hf
    simp only [NameMap.keys, List.map_nil, List.nil_append] at hkeys
    rw [Item.norm, ← hkeys]
    rfl
  · obtain ⟨_, -, _, -, rfl, -⟩ := h
    rfl
  · obtain ⟨typed, hret, rfl, -⟩ := h
    obtain ⟨expr, value, name, rfl, hc, -, -, rfl⟩ := Context.moduleReturn_yields hΓ hret
    simp only [Item.norm, Expr.normList, ← Expr.check_erase hΓ hs Demand.proper_value hc]
    rfl

theorem checkItems_norm : ∀ {items : List Item} {Γ Δ : Context} {typed : List Typed.Item}
    {visible : Option String}, Γ.Proper false → Γ.varKind = .toplevel → Γ.env.Sees visible →
      (checkItems options Γ items).Yields (typed, Δ) → ∀ tys,
        Item.normList visible items (typed.flatMap Typed.Item.loopTypes ++ tys) =
          (typed.map Typed.Item.erase, tys)
  | [], Γ, Δ, typed, visible, _, _, _, h, tys => by
    simp only [checkItems, Report.yields_pure, Prod.mk.injEq] at h
    rw [h.1]
    rfl
  | item :: rest, Γ, Δ, typed, visible, hΓ, hk, hs, h, tys => by
    simp only [checkItems, Report.yields_bind, Report.yields_pure, Prod.mk.injEq] at h
    obtain ⟨_, -, ⟨t, Γ'⟩, ht, ⟨ts, Δ'⟩, hr, rfl, -⟩ := h
    obtain ⟨hΓ', hk'⟩ := Item.check_context_proper hΓ hk ht
    have hfirst := Item.check_norm hΓ hk hs ht
    have hrest := checkItems_norm hΓ' hk' (Item.check_sees hΓ hk hs ht) hr tys
    rw [Item.typedLoopTypes] at hfirst
    simp only [Item.normList, List.flatMap_append, List.append_assoc, hfirst, hrest, List.map_append]
    cases t <;> rfl

namespace Program

/-- **Accepted programs erase back.**  Over builtins in whose types neither `unknown` nor the module
type occurs, the typed program of an accepted module erases to the source program without its
annotations, with absent steps written out for the types of the loop variables. -/
theorem check_norm_eq_erase (builtins : Builtins) (options : Options) (program : Program)
    (checked : CheckedModule) (hb : ∀ ty ∈ builtins.types, ty.proper false = true)
    (h : program.check builtins options = .ok checked) :
    program.norm checked.program.loopTypes = (checked.program.erase, []) := by
  obtain ⟨items, Γ, name, hw, -, rfl⟩ := walk_yields_of_check h
  obtain ⟨hitems, -, -⟩ := walk_yields hw
  have hs : (Context.start builtins).env.Sees none := by
    intro name
    simp [Context.env_start, Env.start]
  have hnorm := checkItems_norm (Context.start_proper hb) rfl hs hitems []
  rw [List.append_nil] at hnorm
  exact hnorm

/-- A module with loops over an array and over numbers with and without a step, an `elseif`, a
spread call, and a field of the module variable in parentheses. -/
def tally : Program :=
  let here := Location.nowhere
  let name (text : String) : Expr := .name text here
  let array : TypeExpr := .array .integer here
  let add (expr : Expr) : Stmt :=
    .assign [name "total"] [.binary (name "total") .add expr here] here
  let pair : Function :=
    ⟨.plain "pair", [], [.integer, .any], [.ret [.integer 1 here, .string "a" here] here], here⟩
  let run : Function :=
    ⟨.member "m" "run", [⟨"xs", some array, here⟩], [.integer],
      [.declare [⟨"total", some .integer, here⟩, ⟨"s", some .string, here⟩]
          [.call (name "pair") [] here] here,
        .genericFor [⟨"i", none, here⟩, ⟨"x", none, here⟩]
          [.call (name "ipairs") [name "xs"] here] [add (name "x")] here,
        .numericFor ⟨"t", none, here⟩ (.float 0 here) (.float 1 here) none [.brk here] here,
        .numericFor ⟨"i", none, here⟩ (.integer 1 here) (.integer 9 here) none
          [.numericFor ⟨"j", none, here⟩ (name "i") (.integer 1 here)
            (some (.unary .neg (.integer 1 here) here)) [add (name "j")] here] here,
        .branch (.binary (name "total") .gt (.integer 9 here) here) [.ret [.integer 9 here] here]
          [⟨.binary (name "total") .gt (.integer 5 here) here, [.ret [.integer 5 here] here]⟩]
          none here,
        .ret [name "total"] here], here⟩
  let again : Function :=
    ⟨.member "m" "again", [⟨"xs", some array, here⟩], [.integer],
      [.ret [.call (.field (.paren (name "m") here) "run" here) [name "xs"] here] here], here⟩
  .inModule [.function pair, .function run, .function again]

theorem tally_norm_eq_erase :
    (∀ ty ∈ Builtins.standard.types, ty.proper false = true) ∧
      ∃ checked, tally.check .standard .standard = .ok checked ∧
        tally.norm checked.program.loopTypes = (checked.program.erase, []) := by
  have hb : ∀ ty ∈ Builtins.standard.types, ty.proper false = true := by decide
  obtain ⟨checked, hc⟩ := accepted_iff.mp
    (by decide +kernel : (tally.check .standard .standard).isOk = true)
  exact ⟨hb, checked, hc, check_norm_eq_erase .standard .standard tally checked hb hc⟩

/-- A module whose function calls the builtin `show` on a constructor. -/
def listing : Program :=
  let here := Location.nowhere
  let list : Expr := .init [.positional (.integer 1 here)] here
  .inModule [.function ⟨.plain "f", [], [], [.call (.call (.name "show" here) [list] here) here], here⟩]

/-- A module that calls `run` of the builtin `other`, and has a function `run` of its own. -/
def forwarding : Program :=
  let here := Location.nowhere
  let run : Expr := .field (.name "other" here) "run" here
  .inModule [.function ⟨.member "m" "run", [], [], [], here⟩,
    .function ⟨.plain "f", [], [], [.call (.call run [] here) here], here⟩]

/-- A builtin that takes `unknown` loses the entries of a constructor, and a member of a builtin of
the module type becomes a field of the module. -/
theorem builtins_lose_source :
    (∃ checked, listing.check (Builtins.empty.withFunction "show" (.function [.unknown] []))
        .standard = .ok checked ∧
          listing.norm checked.program.loopTypes ≠ (checked.program.erase, [])) ∧
      ∃ checked, forwarding.check (Builtins.empty.withFunction "other" (.module [])) .standard =
        .ok checked ∧ forwarding.norm checked.program.loopTypes ≠ (checked.program.erase, []) := by
  constructor
  · refine ⟨_, rfl, fun h => ?_⟩
    cases h
  · refine ⟨_, rfl, fun h => ?_⟩
    let items (owner : String) : List Bare.Item :=
      [.var ["m"] [.init []], .function (.member "m" "run") [] [],
        .function (.plain "f") [] [.call (.call (.field (.name owner) "run") [])], .ret [.name "m"]]
    have hitems : items "other" = items "m" := congrArg Prod.fst h
    simp [items] at hitems

end Program

end Source

end LuaTyping
