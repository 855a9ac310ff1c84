import LuaTyping.Checking.Program
import LuaTyping.Proofs.Proper.Stmt

/-!
# The contexts after items

Items keep a proper context proper where nothing wrong is found (`Item.check_context_proper`): they
declare toplevel names, type names and module fields of proper types, and at most one module
variable.
-/

namespace LuaTyping

variable {modules : Bool} {Γ Δ : Context} {options : Options} {loc : Location}

namespace Context

/-! ### What the declarations of items change -/

theorem declareField_yields {field : String} {ty : Ty}
    (h : (Γ.declareField options field ty loc).Yields Δ) :
    ty.isModuleField options.scalarFields = true ∧ Γ.module.fields.lookup field = none ∧
      Δ = { Γ with module :=
        { Γ.module with fields := Γ.module.fields.insert field ⟨ty, loc⟩ } } := by
  simp only [declareField, Report.yields_bind, Report.yields_require] at h
  obtain ⟨_, hty, h⟩ := h
  unfold ModuleDraft.declareField at h
  cases hl : Γ.module.fields.lookup field with
  | some previous => simp [hl] at h
  | none =>
    simp only [hl, Report.yields_pure] at h
    exact ⟨hty, rfl, h⟩

theorem declareModule_yields {name : String} {nameLoc : Location}
    (h : (Γ.declareModule name nameLoc loc).Yields Δ) :
    Γ.module.var = none ∧
      (Context.declare { Γ with module := { Γ.module with var := some (name, nameLoc) } } name
        ⟨.module [], nameLoc, .module⟩).Yields Δ := by
  unfold declareModule at h
  cases hv : Γ.module.var with
  | some first => simp [hv] at h
  | none => exact ⟨rfl, by simpa [hv] using h⟩

theorem declareType_yields {name : String} {ty : Ty} (h : (Γ.declareType name ty loc).Yields Δ) :
    Γ.scopes.types.lookup name = none ∧
      Δ = { Γ with scopes :=
        { Γ.scopes with types := Γ.scopes.types.insert name ⟨ty, loc⟩ } } := by
  unfold declareType Scopes.declareType at h
  cases hl : Γ.scopes.types.lookup name with
  | some previous => simp [hl] at h
  | none =>
    simp only [hl, Report.yields_pure] at h
    exact ⟨rfl, h⟩

/-- A function is declared at the toplevel, or as a new field of the module. -/
theorem declareFunction_yields {name : Source.FunctionName} {ty : Ty}
    (h : (declareFunction options Γ name ty loc).Yields Δ) :
    (∃ plain, name = .plain plain ∧ (Γ.declare plain ⟨ty, loc, .toplevel⟩).Yields Δ) ∨
      ∃ module field, name = .member module field ∧ Γ.isModuleVar module = true ∧
        (Γ.declareField options field ty loc).Yields Δ := by
  cases name with
  | plain plain => exact Or.inl ⟨plain, rfl, h⟩
  | member module field =>
    simp only [declareFunction] at h
    split_ifs at h with hm
    · exact Or.inr ⟨module, field, rfl, hm, h⟩
    · split at h <;> simp at h

/-! ### Declarations keep a context proper -/

theorem Proper.declareField (hΓ : Γ.Proper modules) {field : String} {ty : Ty}
    (hp : ty.proper modules = true) (h : (Γ.declareField options field ty loc).Yields Δ) :
    Δ.Proper modules ∧ Δ.varKind = Γ.varKind := by
  obtain ⟨-, -, rfl⟩ := declareField_yields h
  refine ⟨{ hΓ with fields := ?_ }, rfl⟩
  intro entry he
  rcases NameMap.mem_insert he with he | rfl
  · exact hΓ.fields entry he
  · exact hp

theorem Proper.declareType (hΓ : Γ.Proper modules) {name : String} {ty : Ty}
    (hp : ty.proper modules = true) (h : (Γ.declareType name ty loc).Yields Δ) :
    Δ.Proper modules ∧ Δ.varKind = Γ.varKind := by
  obtain ⟨-, rfl⟩ := declareType_yields h
  refine ⟨{ hΓ with types := ?_ }, rfl⟩
  intro entry he
  rcases NameMap.mem_insert he with he | rfl
  · exact hΓ.types entry he
  · exact hp

theorem Proper.declareModule (hΓ : Γ.Proper modules) {name : String} {nameLoc : Location}
    (hk : Γ.varKind = .toplevel) (h : (Γ.declareModule name nameLoc loc).Yields Δ) :
    Δ.Proper modules ∧ Δ.varKind = Γ.varKind := by
  obtain ⟨hnone, h⟩ := declareModule_yields h
  rcases declare_yields h with ⟨layer, outer, hin, -⟩ | ⟨-, -, rfl⟩
  · simp only at hin
    simp [varKind, Scopes.isToplevel, hin] at hk
  · refine ⟨{ hΓ with toplevel := ?_ }, rfl⟩
    intro entry he
    rcases NameMap.mem_insert he with he | rfl
    · -- there was no module variable before
      rcases hΓ.toplevel entry he with hp | ⟨-, -, hname⟩
      · exact Or.inl hp
      · simp [ModuleDraft.name?, hnone] at hname
    · exact Or.inr ⟨rfl, rfl, rfl⟩

theorem Proper.declareFunction (hΓ : Γ.Proper modules) {name : Source.FunctionName} {ty : Ty}
    (hk : Γ.varKind = .toplevel) (hp : ty.proper modules = true)
    (h : (declareFunction options Γ name ty loc).Yields Δ) :
    Δ.Proper modules ∧ Δ.varKind = Γ.varKind := by
  rcases declareFunction_yields h with ⟨plain, -, hd⟩ | ⟨module, field, -, -, hd⟩
  · exact hΓ.declare hk.symm hp hd
  · exact hΓ.declareField hp hd

/-! ### Functions -/

theorem param_yields {decl : Source.Decl} {typed : Typed.Decl} (h : (Γ.param decl).Yields typed) :
    ∃ ty, (decl.stated Γ).Yields (some ty) ∧ typed = .plain decl.name ty decl.loc := by
  simp only [param, Report.yields_bind, Report.yields_require, Report.yields_pure,
    Option.isSome_iff_exists] at h
  obtain ⟨_, hs, _, ⟨ty, rfl⟩, rfl⟩ := h
  exact ⟨ty, hs, rfl⟩

theorem params_proper (hΓ : Γ.Proper modules) {decls : List Source.Decl}
    {params : List Typed.Decl} (h : (decls.mapM Γ.param).Yields params) :
    ∀ decl ∈ params, decl.ty.proper modules = true := by
  rw [Report.yields_mapM] at h
  induction h with
  | nil => simp
  | cons hfirst _ ih =>
    obtain ⟨ty, hs, rfl⟩ := param_yields hfirst
    exact List.forall_mem_cons.mpr ⟨Source.Decl.stated_proper hΓ hs ty rfl, ih⟩

/-- **Functions**: what is declared, and in which context the body is typed. -/
theorem function_yields (hΓ : Γ.Proper modules) {decl : Source.Function} {item : Typed.Item}
    (h : (Context.function options Γ decl).Yields (item, Δ)) :
    ∃ params returns body, (decl.params.mapM Γ.param).Yields params ∧
      (TypeExpr.resolveList Γ.scopes decl.returns decl.loc).Yields returns ∧
        (Ty.function (params.map (·.ty)) returns).proper modules = true ∧
          (declareFunction options Γ decl.name (.function (params.map (·.ty)) returns)
            decl.loc).Yields Δ ∧
            (Δ.functionBody params returns decl.body decl.loc).Yields body ∧
              item = .function ⟨decl.name, params, .function (params.map (·.ty)) returns, body,
                decl.loc⟩ := by
  simp only [Context.function, Report.yields_bind, Report.yields_pure, Prod.mk.injEq] at h
  obtain ⟨params, hp, returns, hr, Δ', hd, body, hb, rfl, rfl⟩ := h
  refine ⟨params, returns, body, hp, hr, ?_, hd, hb, rfl⟩
  rw [Ty.proper_function_iff]
  refine ⟨by simpa using params_proper hΓ hp, ?_⟩
  exact TypeExpr.resolveList_proper (fun _ _ => hΓ.typeName) hr

/-! ### Assignments -/

/-- A target at the toplevel is a field that the module does not have yet, or what a target is
elsewhere. -/
theorem itemTarget_yields {expr : Source.Expr} {target : ItemTarget}
    (h : (Γ.itemTarget expr).Yields target) :
    (∃ module field, Γ.moduleField? expr = some (module, field) ∧
        Γ.module.fields.lookup field = none ∧ target = .newField module field) ∨
      ∃ found, (Γ.target expr).Yields found ∧ target = .existing found := by
  unfold itemTarget at h
  split at h
  · next module field hm =>
    split at h
    · simp at h
    · next hl => exact Or.inl ⟨module, field, hm, hl, Report.yields_pure.mp h⟩
  · simp only [Report.yields_bind, Report.yields_pure] at h
    obtain ⟨found, hf, rfl⟩ := h
    exact Or.inr ⟨found, hf, rfl⟩

theorem itemTarget_expected_proper (hΓ : Γ.Proper modules) {expr : Source.Expr}
    {target : ItemTarget} (h : (Γ.itemTarget expr).Yields target) :
    ∀ ty ∈ target.expected, ty.proper modules = true := by
  rcases itemTarget_yields h with ⟨module, field, -, -, rfl⟩ | ⟨found, hf, rfl⟩
  · simp [ItemTarget.expected]
  · obtain ⟨found, rfl, hp⟩ := target_proper hΓ hf
    intro ty hty
    cases hty
    exact hp

theorem itemTargets_expected_proper (hΓ : Γ.Proper modules) {exprs : List Source.Expr}
    {targets : List ItemTarget} (h : (exprs.mapM Γ.itemTarget).Yields targets) :
    ∀ ty, some ty ∈ targets.map ItemTarget.expected → ty.proper modules = true := by
  rw [Report.yields_mapM] at h
  intro ty hty
  obtain ⟨target, ht, he⟩ := List.mem_map.mp hty
  induction h with
  | nil => cases ht
  | cons hfirst _ ih =>
    rcases List.mem_cons.mp ht with rfl | ht
    · exact itemTarget_expected_proper hΓ hfirst ty he
    · exact ih (List.mem_map.mpr ⟨target, ht, he⟩) ht

/-- The types of module fields are not module types, so they are proper. -/
theorem Proper.declareFields : ∀ {targets : List ItemTarget} {types : List Ty} {Γ Δ : Context}
    {typed : List Typed.Target}, Γ.Proper modules → targets.length = types.length →
      (∀ ty ∈ types, ty.proper modules = true ∨ ty = .module []) →
        (declareFields options loc targets types Γ).Yields (typed, Δ) →
          Δ.Proper modules ∧ Δ.varKind = Γ.varKind
  | [], _, Γ, Δ, typed, hΓ, _, _, h => by
    simp only [Context.declareFields, Report.yields_pure, Prod.mk.injEq] at h
    obtain ⟨rfl, rfl⟩ := h
    exact ⟨hΓ, rfl⟩
  | _ :: _, [], Γ, Δ, typed, _, hlen, _, _ => by simp at hlen
  | .existing target :: rest, ty :: types, Γ, Δ, typed, hΓ, hlen, hp, h => by
    simp only [Context.declareFields, Report.yields_bind, Report.yields_pure, Prod.mk.injEq,
      List.tail_cons] at h
    obtain ⟨⟨typed', Δ'⟩, hr, rfl, rfl⟩ := h
    exact Proper.declareFields hΓ (by simpa using hlen)
      (fun ty hty => hp ty (List.mem_cons_of_mem _ hty)) hr
  | .newField module field :: rest, ty :: types, Γ, Δ, typed, hΓ, hlen, hp, h => by
    simp only [Context.declareFields, Report.yields_bind, Report.yields_pure, Prod.mk.injEq,
      List.tail_cons, List.headD_cons] at h
    obtain ⟨Γ', hd, ⟨typed', Δ'⟩, hr, rfl, rfl⟩ := h
    have hty : ty.proper modules = true := by
      rcases hp ty List.mem_cons_self with hp | rfl
      · exact hp
      · have hm := (declareField_yields hd).1
        cases hm
    obtain ⟨hΓ', hk⟩ := hΓ.declareField hty hd
    obtain ⟨hΔ, hk'⟩ := Proper.declareFields hΓ' (by simpa using hlen)
      (fun ty hty => hp ty (List.mem_cons_of_mem _ hty)) hr
    exact ⟨hΔ, hk'.trans hk⟩

/-- **Toplevel assignments**: targets and values, as many of one as of the other. -/
theorem itemAssign_yields (hΓ : Γ.Proper modules) {targets values : List Source.Expr}
    {item : Typed.Item} (h : (itemAssign options Γ targets values loc).Yields (item, Δ)) :
    ∃ found list typed, (targets.mapM Γ.itemTarget).Yields found ∧
      (Source.Expr.checkValues Γ (fun _ => .assignment) values (found.map ItemTarget.expected)
        0).Yields list ∧
        found.length = list.types.length ∧
          (∀ ty ∈ list.types, ty.proper modules = true ∨ ty = .module []) ∧
            (declareFields options loc found list.types Γ).Yields (typed, Δ) ∧
              item = .assign typed list.exprs loc := by
  simp only [itemAssign, Report.yields_bind, Report.yields_require, Report.yields_pure,
    Prod.mk.injEq] at h
  obtain ⟨found, hf, list, hv, _, hfit, ⟨typed, Δ'⟩, hd, rfl, rfl⟩ := h
  obtain ⟨hu, hp⟩ := Source.Expr.checkValues_proper hΓ (itemTargets_expected_proper hΓ hf) hv
  refine ⟨found, list, typed, hf, hv, ?_, hp, hd, rfl⟩
  rw [Values.length_of_fits hu hfit, (Report.yields_mapM.mp hf).length_eq]

/-! ### The returned module -/

/-- **The returned module**: one expression, which is the module variable. -/
theorem moduleReturn_yields (hΓ : Γ.Proper modules) {values : List Source.Expr}
    {item : Option Typed.Item} (h : (Γ.moduleReturn values loc).Yields item) :
    ∃ expr value name, values = [expr] ∧ (expr.check Γ .value).Yields value ∧
      value.kind = .toplevel name ∧ Γ.module.name? = some name ∧
        item = some (.ret value loc) := by
  simp only [moduleReturn, Report.yields_bind, Report.yields_mapM] at h
  obtain ⟨typed, ht, h⟩ := h
  split at h
  · next value =>
    obtain ⟨expr, _, hc, hnil, rfl⟩ := List.forall₂_cons_right_iff.mp ht
    rw [List.forall₂_nil_right_iff] at hnil
    have hk := Ty.not_isUnknown_of_properAt
      (Source.Expr.check_proper hΓ Demand.proper_value hc _ List.mem_cons_self)
    simp only [Report.yields_bind, Report.yields_require, Report.yields_pure, hk,
      Bool.or_false] at h
    obtain ⟨_, hm, rfl⟩ := h
    split at hm
    · next name hkind =>
      exact ⟨expr, value, name, by rw [hnil], hc, hkind, by simpa using hm, rfl⟩
    · cases hm
  · simp at h

/-! ### Records -/

theorem recordFields_proper (hΓ : Γ.Proper modules) {record : String} :
    ∀ {decls : List Source.Decl} {known fields : NameMap Ty},
      (∀ entry ∈ known, entry.2.proper modules = true) →
        (Γ.recordFields record decls known).Yields fields →
          ∀ entry ∈ fields, entry.2.proper modules = true
  | [], known, fields, hk, h => by
    rw [recordFields, Report.yields_pure] at h
    rwa [h]
  | decl :: rest, known, fields, hk, h => by
    simp only [recordFields, Report.yields_bind, Report.yields_require,
      Option.isSome_iff_exists] at h
    obtain ⟨_, hs, _, ⟨ty, rfl⟩, h⟩ := h
    split_ifs at h
    · simp at h
    · refine recordFields_proper hΓ (fun entry he => ?_) h
      rcases NameMap.mem_insert he with he | rfl
      · exact hk entry he
      · exact Source.Decl.stated_proper hΓ hs ty rfl

end Context

namespace Source

/-- **Items keep a toplevel context proper.** -/
theorem Item.check_context_proper (hΓ : Γ.Proper modules) (hk : Γ.varKind = .toplevel)
    {item : Item} {t : Option Typed.Item} (h : (item.check options Γ).Yields (t, Δ)) :
    Δ.Proper modules ∧ Δ.varKind = .toplevel := by
  suffices hΔ : Δ.Proper modules ∧ Δ.varKind = Γ.varKind from ⟨hΔ.1, hΔ.2.trans hk⟩
  unfold Item.check at h
  split at h <;> simp only [Report.yields_bind, Report.yields_pure, Prod.mk.injEq] at h
  · obtain ⟨⟨typed, Δ'⟩, hm, -, rfl⟩ := h
    simp only [Context.moduleVar, Report.yields_bind, Report.yields_pure, Prod.mk.injEq] at hm
    obtain ⟨_, -, Δ', hd, -, rfl⟩ := hm
    exact hΓ.declareModule hk hd
  · obtain ⟨⟨⟨typed, values⟩, Δ'⟩, hd, -, rfl⟩ := h
    exact (Context.declareVars_proper hΓ hd).2
  · obtain ⟨⟨typed, Δ'⟩, hf, -, rfl⟩ := h
    obtain ⟨params, returns, body, -, -, hp, hd, -, -⟩ := Context.function_yields hΓ hf
    exact hΓ.declareFunction hk hp hd
  · obtain ⟨⟨typed, Δ'⟩, ha, -, rfl⟩ := h
    obtain ⟨found, list, _, -, -, hlen, hp, hd, -⟩ := Context.itemAssign_yields hΓ ha
    exact hΓ.declareFields hlen hp hd
  · obtain ⟨fields, hf, Δ', hd, -, rfl⟩ := h
    refine hΓ.declareType ?_ hd
    rw [Ty.proper, Ty.properFields_iff]
    exact Context.recordFields_proper hΓ (by simp) hf
  · obtain ⟨ty, ht, Δ', hd, -, rfl⟩ := h
    exact hΓ.declareType (TypeExpr.resolve_proper (fun _ _ => hΓ.typeName) ht) hd
  · obtain ⟨_, -, -, rfl⟩ := h
    exact ⟨hΓ, rfl⟩

namespace Program

variable {builtins : Builtins} {program : Program}

/-- A walk through a program that finds nothing wrong. -/
theorem walk_yields {items : List Typed.Item} (h : (program.walk builtins options).Yields (items, Γ)) :
    (checkItems options (.start builtins) program.items).Yields (items, Γ) ∧
      Γ.module.var.isSome = true ∧
        ∃ last, program.items.getLast? = some last ∧ last.isReturn = true := by
  unfold walk at h
  split at h
  · simp at h
  · next first rest hitems =>
    simp only [Report.yields_bind, Report.yields_require, Report.yields_pure, Prod.mk.injEq] at h
    obtain ⟨⟨items', Γ'⟩, hc, _, hvar, _, hret, rfl, rfl⟩ := h
    refine ⟨by rw [hitems]; exact hc, hvar, rest.getLastD first, ?_, hret⟩
    rw [hitems, List.getLast?_cons, List.getLastD_eq_getLast?]

/-- An accepted program is walked through without a fault. -/
theorem walk_yields_of_check {checked : CheckedModule}
    (h : program.check builtins options = .ok checked) :
    ∃ items Γ name, (program.walk builtins options).Yields (items, Γ) ∧
      Γ.module.name? = some name ∧ checked = assemble name items Γ := by
  simp only [check] at h
  split at h
  · next name hf hname =>
    cases h
    exact ⟨_, _, name, Report.yields_value hf, hname, rfl⟩
  · cases h

/-- A program whose items are typed without a fault, with a module variable and a `return` at the
end, is accepted. -/
theorem check_of_checkItems {items : List Typed.Item} {name : String} {last : Item}
    (hitems : (checkItems options (.start builtins) program.items).Yields (items, Γ))
    (hname : Γ.module.name? = some name) (hlast : program.items.getLast? = some last)
    (hret : last.isReturn = true) :
    program.check builtins options = .ok (assemble name items Γ) := by
  have hvar : Γ.module.var.isSome = true := by
    obtain ⟨var, hvar, -⟩ := Option.map_eq_some_iff.mp hname
    rw [hvar, Option.isSome_some]
  have hwalk : (program.walk builtins options).Yields (items, Γ) := by
    unfold walk
    cases hfirst : program.items with
    | nil => simp [hfirst] at hlast
    | cons first rest =>
      have hend : rest.getLastD first = last := by
        rw [hfirst, List.getLast?_cons, ← List.getLastD_eq_getLast?] at hlast
        exact Option.some.inj hlast
      rw [hfirst] at hitems
      simp only [hend, Report.yields_bind, Report.yields_require, Report.yields_pure]
      exact ⟨(items, Γ), hitems, (), hvar, (), hret, rfl⟩
  simp only [check, hwalk.faults_eq, hwalk.value_eq, hname]

theorem check_error {diagnostics : List Diagnostic}
    (h : program.check builtins options = .error diagnostics) :
    diagnostics = (program.walk builtins options).faults.map (Fault.diagnostic options.filename) := by
  simp only [check] at h
  split at h
  · cases h
  · cases h
    rfl

theorem accepted_iff :
    (program.check builtins options).isOk = true ↔
      ∃ checked, program.check builtins options = .ok checked := by
  cases program.check builtins options <;> simp [Except.isOk, Except.toBool]

end Program

end Source

end LuaTyping
