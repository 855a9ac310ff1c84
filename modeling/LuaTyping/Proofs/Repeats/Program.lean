import LuaTyping.Proofs.Repeats.Attempts
import LuaTyping.Proofs.Scalar.Program

/-!
# The first declaration counts

Each item of a program attempts some declarations (`Item.attempts`), and the attempts of a program
are those of its items, each in the context that the items before it leave.  An item does with its
attempts what `Context.Tries` says (`Item.check_tries`), and so does a walk through a program
(`Program.walk_tries`).

A module field can be refused at two points of an assignment: where its targets are found, if the
field was declared before, and where the new fields are declared, if it is repeated among them.
These are different fields, so for each field by itself the attempts come in order.
-/

namespace LuaTyping

variable {options : Options} {loc : Location}

namespace Context

variable {Γ Δ : Context}

/-! ### Single declarations -/

/-- The attempt to declare a variable at the toplevel. -/
def varAttempt (name : String) (ty : Ty) (loc : Location) : Attempt :=
  ⟨.var name, ⟨ty, loc⟩, loc⟩

theorem declare_tries (hΓ : Γ.scopes.inner = []) (name : String) (binding : Binding) :
    Γ.Tries [varAttempt name binding.ty binding.loc] (Γ.declare name binding).faults
      (Γ.declare name binding).value := by
  cases hfound : Γ.scopes.toplevel.lookup name with
  | some previous =>
    have hdeclare : Γ.declare name binding =
        ⟨Γ, [⟨.duplicateToplevel name previous.loc, binding.loc⟩]⟩ := by
      simp only [Context.declare, Scopes.declare, hΓ, hfound]
      rfl
    have hknown : (Slot.var name).declared? Γ = some ⟨previous.ty, previous.loc⟩ := by
      simp [Slot.declared?, hfound]
    rw [hdeclare]
    exact .refused (varAttempt name binding.ty binding.loc) hknown
  | none =>
    have hdeclare : Γ.declare name binding = ⟨{ Γ with scopes :=
        { Γ.scopes with toplevel := Γ.scopes.toplevel.insert name binding } }, []⟩ := by
      simp only [Context.declare, Scopes.declare, hΓ, hfound]
      rfl
    rw [hdeclare]
    refine .accepted rfl ?_ ?_ fun slot hslot => ?_
    · simp [varAttempt, Slot.declared?, hfound]
    · simp [varAttempt, Slot.declared?, NameMap.lookup_insert]
    · cases slot with
      | var other =>
        have hne : other ≠ name := fun heq => hslot (by rw [heq]; rfl)
        simp [Slot.declared?, NameMap.lookup_insert, hne]
      | _ => rfl

theorem declareAll_tries (kind : VarKind) (decls : List Typed.Decl) (hΓ : Γ.scopes.inner = []) :
    Γ.Tries (decls.map fun decl => varAttempt decl.name decl.ty decl.loc)
      (declareAll kind decls Γ).faults (declareAll kind decls Γ).value := by
  induction decls generalizing Γ with
  | nil => exact .refl
  | cons decl rest ih =>
    have hfirst := declare_tries hΓ decl.name ⟨decl.ty, decl.loc, kind⟩
    exact hfirst.append (ih (hfirst.inner.trans hΓ))

theorem declareType_tries (name : String) (ty : Ty) :
    Γ.Tries [⟨.type name, ⟨ty, loc⟩, loc⟩] (Γ.declareType name ty loc).faults
      (Γ.declareType name ty loc).value := by
  cases hfound : Γ.scopes.types.lookup name with
  | some previous =>
    have hdeclare : Γ.declareType name ty loc =
        ⟨Γ, [⟨.duplicateType name previous.loc, loc⟩]⟩ := by
      simp only [Context.declareType, Scopes.declareType, hfound]
      rfl
    rw [hdeclare]
    exact .refused ⟨.type name, ⟨ty, loc⟩, loc⟩ hfound
  | none =>
    have hdeclare : Γ.declareType name ty loc = ⟨{ Γ with scopes :=
        { Γ.scopes with types := Γ.scopes.types.insert name ⟨ty, loc⟩ } }, []⟩ := by
      simp only [Context.declareType, Scopes.declareType, hfound]
      rfl
    rw [hdeclare]
    refine .accepted rfl hfound ?_ fun slot hslot => ?_
    · simp [Slot.declared?, NameMap.lookup_insert]
    · cases slot with
      | type other =>
        have hne : other ≠ name := fun heq => hslot (by rw [heq])
        simp [Slot.declared?, NameMap.lookup_insert, hne]
      | _ => rfl

theorem declareField_tries (field : String) (ty : Ty) :
    Γ.Tries [⟨.field field, ⟨ty, loc⟩, loc⟩] (Γ.declareField options field ty loc).faults
      (Γ.declareField options field ty loc).value := by
  refine .after (.require rfl) ?_
  cases hfound : Γ.module.fields.lookup field with
  | some previous =>
    have hdeclare : Γ.module.declareField field ty loc = .error previous.loc := by
      simp only [ModuleDraft.declareField, hfound]
    simp only [declareField, Report.value_bind, hdeclare]
    exact .refused ⟨.field field, ⟨ty, loc⟩, loc⟩ hfound
  | none =>
    have hdeclare : Γ.module.declareField field ty loc =
        .ok { Γ.module with fields := Γ.module.fields.insert field ⟨ty, loc⟩ } := by
      simp only [ModuleDraft.declareField, hfound]
    simp only [declareField, Report.value_bind, hdeclare]
    refine .accepted rfl hfound ?_ fun slot hslot => ?_
    · simp [Slot.declared?, NameMap.lookup_insert]
    · cases slot with
      | field other =>
        have hne : other ≠ field := fun heq => hslot (by rw [heq])
        simp [Slot.declared?, NameMap.lookup_insert, hne]
      | _ => rfl

/-! ### The module variable -/

/-- The attempts of a declaration of the module variable; only the first declares a name. -/
def moduleAttempts (Γ : Context) (name : String) (nameLoc loc : Location) : List Attempt :=
  ⟨.module, ⟨.module [], nameLoc⟩, loc⟩ ::
    if Γ.module.var.isNone then [varAttempt name (.module []) nameLoc] else []

theorem declareModule_tries (hΓ : Γ.scopes.inner = []) (name : String) (nameLoc : Location) :
    Γ.Tries (Γ.moduleAttempts name nameLoc loc) (Γ.declareModule name nameLoc loc).faults
      (Γ.declareModule name nameLoc loc).value := by
  unfold moduleAttempts declareModule
  cases hvar : Γ.module.var with
  | some first =>
    have hknown : Slot.module.declared? Γ = some ⟨.module [], first.2⟩ := by
      simp [Slot.declared?, hvar]
    exact .refused ⟨.module, ⟨.module [], nameLoc⟩, loc⟩ hknown
  | none =>
    have hmodule : Γ.Tries [⟨.module, ⟨.module [], nameLoc⟩, loc⟩] []
        { Γ with module := { Γ.module with var := some (name, nameLoc) } } := by
      refine .accepted rfl ?_ ?_ fun slot hslot => ?_
      · simp [Slot.declared?, hvar]
      · rfl
      · cases slot with
        | module => exact absurd rfl hslot
        | _ => rfl
    exact hmodule.append (declare_tries
      (Γ := { Γ with module := { Γ.module with var := some (name, nameLoc) } }) hΓ name
      ⟨.module [], nameLoc, .module⟩)

theorem moduleVar_tries (hΓ : Γ.scopes.inner = []) (decl : Source.Decl)
    (values : List Source.Expr) :
    Γ.Tries (Γ.moduleAttempts decl.name decl.loc loc) (Γ.moduleVar decl values loc).faults
      (Γ.moduleVar decl values loc).value.2 :=
  .after ((Γ.moduleInit_avoids _ _ _).mono Violation.itemOnly_of_isRepeat)
    (.before (declareModule_tries hΓ decl.name decl.loc) .pure)

/-! ### Variables and functions -/

/-- The attempts of a declaration of variables, in the order of the declarations. -/
def varAttempts (Γ : Context) (decls : List Source.Decl) (values : List Source.Expr)
    (loc : Location) : List Attempt :=
  decls.zipWith (fun decl (typed : Typed.Decl) => varAttempt decl.name typed.ty decl.loc)
    (Γ.declareVars decls values loc).value.1.1

theorem typedAll_attempts (decls : List Source.Decl) (stated : List (Option Ty)) (types : List Ty)
    (h : stated.length = decls.length) :
    decls.zipWith (fun decl (typed : Typed.Decl) => varAttempt decl.name typed.ty decl.loc)
        (Source.Decl.typedAll (decls.zip stated) types).value =
      (Source.Decl.typedAll (decls.zip stated) types).value.map fun decl =>
        varAttempt decl.name decl.ty decl.loc := by
  have htyped : ∀ (decl : Source.Decl) (stated value : Option Ty),
      (decl.typed stated value).value.name = decl.name ∧
        (decl.typed stated value).value.loc = decl.loc := by
    intro decl stated value
    unfold Source.Decl.typed
    split <;> exact ⟨rfl, rfl⟩
  induction decls generalizing stated types with
  | nil => rfl
  | cons decl rest ih =>
    cases stated with
    | nil => cases h
    | cons first stated =>
      obtain ⟨hname, hloc⟩ := htyped decl first types.head?
      simp only [List.zip_cons_cons, Source.Decl.typedAll, Report.value_bind, Report.value_pure,
        List.zipWith_cons_cons, List.map_cons, hname, hloc]
      rw [ih stated types.tail (by simpa using h)]

theorem declareVars_tries (hΓ : Γ.scopes.inner = []) (decls : List Source.Decl)
    (values : List Source.Expr) :
    Γ.Tries (Γ.varAttempts decls values loc) (Γ.declareVars decls values loc).faults
      (Γ.declareVars decls values loc).value.2 := by
  have hlength : (decls.mapM (Source.Decl.stated Γ)).value.length = decls.length := by
    rw [Report.value_mapM, List.length_map]
  have hp := Violation.itemOnly_of_isRepeat
  unfold varAttempts
  rw [show (Γ.declareVars decls values loc).value.1.1 = (Source.Decl.typedAll
    (decls.zip (decls.mapM (Source.Decl.stated Γ)).value) _).value from rfl,
    typedAll_attempts decls _ _ hlength]
  exact .after (.mapM fun decl => (decl.stated_avoids Γ).mono hp)
    (.after ((Γ.declaredValues_avoids _ values loc).mono hp)
    (.after ((Source.Decl.typedAll_avoids _ _).mono hp)
    (.before (declareAll_tries Γ.varKind _ hΓ) .pure)))

/-- The type that a function states. -/
def functionType (Γ : Context) (decl : Source.Function) : Ty :=
  .function ((decl.params.mapM Γ.param).value.map (·.ty))
    (TypeExpr.resolveList Γ.scopes decl.returns decl.loc).value

/-- The attempt of a function, on a toplevel variable or on a field of the module. -/
def functionAttempts (Γ : Context) (decl : Source.Function) : List Attempt :=
  match decl.name with
  | .plain name => [varAttempt name (Γ.functionType decl) decl.loc]
  | .member module field =>
    if Γ.isModuleVar module then
      [⟨.field field, ⟨Γ.functionType decl, decl.loc⟩, decl.loc⟩]
    else []

theorem function_tries (hΓ : Γ.scopes.inner = []) (decl : Source.Function) :
    Γ.Tries (Γ.functionAttempts decl) (function options Γ decl).faults
      (function options Γ decl).value.2 := by
  have hp := Violation.itemOnly_of_isRepeat
  have hdeclare : Γ.Tries (Γ.functionAttempts decl)
      (declareFunction options Γ decl.name (Γ.functionType decl) decl.loc).faults
      (declareFunction options Γ decl.name (Γ.functionType decl) decl.loc).value := by
    unfold functionAttempts declareFunction
    cases decl.name with
    | plain name => exact declare_tries hΓ name ⟨Γ.functionType decl, decl.loc, .toplevel⟩
    | member module field =>
      dsimp only
      split
      · exact declareField_tries field _
      · cases Γ.scopes.lookup module <;> exact .after (.fault rfl) .refl
  exact .after (.mapM (Γ.param_avoids hp fun _ => rfl))
    (.after ((TypeExpr.resolveList_avoids _ _ _).mono hp)
    (.before hdeclare (.bind (functionBody_avoids hp rfl _ _ _ _ _) fun _ => .pure)))

/-! ### Assignments -/

/-- The attempts of the targets of an assignment, those that are fields of the module.  A field that
was declared before is reported where it stands, one that is repeated with the assignment. -/
def fieldAttempts (Γ : Context) (loc : Location) : List Source.Expr → List Ty → List Attempt
  | [], _ => []
  | target :: rest, types =>
    (match Γ.moduleField? target with
    | some (_, field) => [⟨.field field, ⟨types.headD .unknown, loc⟩,
        if ((Slot.field field).declared? Γ).isSome then target.loc else loc⟩]
    | none => []) ++ fieldAttempts Γ loc rest types.tail

/-- Fields that were declared before are refused as targets. -/
theorem itemTargets_tries (loc : Location) (targets : List Source.Expr) (types : List Ty) :
    Γ.Tries ((Γ.fieldAttempts loc targets types).filter fun attempt =>
        (attempt.slot.declared? Γ).isSome)
      (targets.mapM Γ.itemTarget).faults Γ := by
  induction targets generalizing types with
  | nil => exact .refl
  | cons target rest ih =>
    rw [List.mapM_cons, fieldAttempts, List.filter_append]
    refine .bind ?_ (.before (ih types.tail) .pure)
    unfold itemTarget
    cases hmodule : Γ.moduleField? target with
    | none =>
      exact .after ((Γ.target_avoids target).mono Violation.itemOnly_of_isRepeat) .refl
    | some found =>
      obtain ⟨module, field⟩ := found
      cases hfound : Γ.module.fields.lookup field with
      | some previous =>
        simp only [Slot.declared?, hfound, Option.isSome_some, if_true, List.filter_cons,
          List.filter_nil]
        exact .before (.refused ⟨.field field, _, target.loc⟩ hfound) .pure
      | none =>
        simp only [Slot.declared?, hfound, Option.isSome_none, List.filter_cons, List.filter_nil]
        exact .refl

/-- New fields are declared, and refused where they are repeated. -/
theorem newFields_tries (options : Options) (Γ : Context) (loc : Location)
    (targets : List Source.Expr) (types : List Ty) (Δ : Context) :
    Δ.Tries ((Γ.fieldAttempts loc targets types).filter fun attempt =>
        !(attempt.slot.declared? Γ).isSome)
      (declareFields options loc (targets.map fun target => (Γ.itemTarget target).value) types
        Δ).faults
      (declareFields options loc (targets.map fun target => (Γ.itemTarget target).value) types
        Δ).value.2 := by
  induction targets generalizing types Δ with
  | nil => exact .refl
  | cons target rest ih =>
    rw [List.map_cons, fieldAttempts, List.filter_append]
    cases hmodule : Γ.moduleField? target with
    | none =>
      have htarget : (Γ.itemTarget target).value = .existing (Γ.target target).value := by
        simp only [itemTarget, hmodule, Report.value_bind, Report.value_pure]
      rw [htarget]
      exact .before (ih types.tail Δ) .pure
    | some found =>
      obtain ⟨module, field⟩ := found
      cases hfound : Γ.module.fields.lookup field with
      | some previous =>
        have htarget : (Γ.itemTarget target).value = .existing none := by
          simp only [itemTarget, hmodule, hfound, Report.value_bind, Report.value_pure]
        rw [htarget]
        simp only [Slot.declared?, hfound, Option.isSome_some, if_true, List.filter_cons,
          List.filter_nil]
        exact .before (ih types.tail Δ) .pure
      | none =>
        have htarget : (Γ.itemTarget target).value = .newField module field := by
          simp only [itemTarget, hmodule, hfound, Report.value_pure]
        rw [htarget]
        simp only [Slot.declared?, hfound, Option.isSome_none, List.filter_cons, List.filter_nil]
        exact .bind (declareField_tries field _) (.before (ih types.tail _) .pure)

/-- The attempts of an assignment. -/
def assignAttempts (Γ : Context) (targets values : List Source.Expr) (loc : Location) :
    List Attempt :=
  let expected := targets.map fun target => (Γ.itemTarget target).value.expected
  Γ.fieldAttempts loc targets
    (Source.Expr.checkValues Γ (fun _ => .assignment) values expected 0).value.types

theorem itemAssign_tries (targets values : List Source.Expr) :
    Γ.Tries (Γ.assignAttempts targets values loc) (itemAssign options Γ targets values loc).faults
      (itemAssign options Γ targets values loc).value.2 := by
  have hfound := Report.value_mapM Γ.itemTarget targets
  have hexpected : (targets.map fun target => (Γ.itemTarget target).value.expected) =
      (targets.mapM Γ.itemTarget).value.map ItemTarget.expected := by
    rw [hfound, List.map_map]
    rfl
  have hvalues := fun expected => (Source.Expr.checkValues_avoids Γ (fun _ => .assignment) values
    expected 0).mono Violation.itemOnly_of_isRepeat
  have hnew := fun types => newFields_tries options Γ loc targets types Γ
  rw [← hfound] at hnew
  unfold assignAttempts
  rw [hexpected]
  dsimp only
  -- fields declared before are refused first and new ones behind the values, in order for each field
  exact .of_own (.bind (itemTargets_tries loc targets _) (.after (hvalues _)
    (.after (.require rfl) (.before (hnew _) .pure)))) fun slot =>
      (Slot.own_partition (fun slot => (slot.declared? Γ).isSome) slot _).symm

end Context

/-! ### Items -/

namespace Source

/-- The declarations that an item attempts. -/
def Item.attempts (Γ : Context) : Item → List Attempt
  | .var [⟨name, some .module, nameLoc⟩] _ loc => Γ.moduleAttempts name nameLoc loc
  | .var decls values loc => Γ.varAttempts decls values loc
  | .function decl => Γ.functionAttempts decl
  | .assign targets values loc => Γ.assignAttempts targets values loc
  | .record name fields loc =>
    [⟨.type name, ⟨.record name (Γ.recordFields name fields []).value, loc⟩, loc⟩]
  | .alias name type loc => [⟨.type name, ⟨(type.resolve Γ.scopes loc).value, loc⟩, loc⟩]
  | .ret .. => []

variable {Γ : Context}

theorem Item.attempts_var {decls : List Decl} {values : List Expr}
    (hd : ∀ name nameLoc, decls ≠ [⟨name, some .module, nameLoc⟩]) :
    attempts Γ (.var decls values loc) = Γ.varAttempts decls values loc := by
  unfold attempts
  split
  · next heq =>
    cases heq
    exact absurd rfl (hd _ _)
  · next heq =>
    cases heq
    rfl
  all_goals next heq => cases heq

/-- **One item.** -/
theorem Item.check_tries (options : Options) (hΓ : Γ.scopes.inner = []) (item : Item) :
    Γ.Tries (item.attempts Γ) (item.check options Γ).faults (item.check options Γ).value.2 := by
  have hp := Violation.itemOnly_of_isRepeat
  cases item with
  | var decls values loc =>
    by_cases hmodule : ∃ name nameLoc, decls = [⟨name, some .module, nameLoc⟩]
    · obtain ⟨name, nameLoc, rfl⟩ := hmodule
      exact .before (Context.moduleVar_tries hΓ ⟨name, some .module, nameLoc⟩ values) .pure
    · have hd : ∀ name nameLoc, decls ≠ [⟨name, some .module, nameLoc⟩] :=
        fun name nameLoc heq => hmodule ⟨name, nameLoc, heq⟩
      rw [attempts_var hd, check_var hd]
      exact .before (Context.declareVars_tries hΓ decls values) .pure
  | function decl => exact .before (Context.function_tries hΓ decl) .pure
  | assign targets values loc => exact .before (Context.itemAssign_tries targets values) .pure
  | record name fields loc =>
    exact .after (Context.recordFields_avoids hp (fun _ => rfl) (fun _ _ => rfl) Γ name fields [])
      (.before (Context.declareType_tries name _) .pure)
  | «alias» name type loc =>
    exact .after ((type.resolve_avoids Γ.scopes loc).mono hp)
      (.before (Context.declareType_tries name _) .pure)
  | ret values loc =>
    exact .after (Context.moduleReturn_avoids hp (fun _ => rfl) (fun _ => rfl) Γ values loc) .refl

/-- The declarations that items attempt, one item after another. -/
def itemAttempts (options : Options) (Γ : Context) : List Item → List Attempt
  | [] => []
  | item :: rest => item.attempts Γ ++ itemAttempts options (item.check options Γ).value.2 rest

/-- **A run through items.** -/
theorem checkItems_tries (hΓ : Γ.scopes.inner = []) (items : List Item) :
    Γ.Tries (itemAttempts options Γ items) (checkItems options Γ items).faults
      (checkItems options Γ items).value.2 := by
  induction items generalizing Γ with
  | nil => exact .refl
  | cons item rest ih =>
    have hitem := item.check_tries options hΓ
    exact .after (.require rfl) (.bind hitem (.before (ih (hitem.inner.trans hΓ)) .pure))

namespace Program

/-- The declarations that a program attempts. -/
def attempts (builtins : Builtins) (options : Options) (program : Program) : List Attempt :=
  itemAttempts options (.start builtins) program.items

/-- **A program.** -/
theorem walk_tries (builtins : Builtins) (options : Options) (program : Program) :
    (Context.start builtins).Tries (program.attempts builtins options)
      (program.walk builtins options).faults (program.walk builtins options).value.2 := by
  unfold walk attempts
  cases program.items with
  | nil => exact .after (.fault rfl) .refl
  | cons first rest =>
    exact .before (checkItems_tries rfl (first :: rest))
      (.bind (.require rfl) fun _ => .bind (.require rfl) fun _ => .pure)

/-- **The first declaration counts, and each repetition is reported once.**  Of the attempts of a
program on a slot, in the order of the walk, the first is what is declared in the end.  Each other
attempt has one fault of its own, at its place; its diagnostic refers to the first declaration and
cites its line.  There are no other faults about the slot. -/
theorem check_repeats (builtins : Builtins) (options : Options) (program : Program) :
    let report := program.walk builtins options
    let attempts := program.attempts builtins options
    program.diagnostics builtins options =
        report.faults.map (Fault.diagnostic options.filename) ∧
      (∀ (slot : Slot) (first : Attempt) (rest : List Attempt), slot.own attempts = first :: rest →
        report.faults.filter (·.cause.repeats slot) = rest.map (slot.report first.entry) ∧
        slot.declared? report.value.2 = some first.entry) ∧
      (∀ slot : Slot, slot.own attempts = [] →
        report.faults.filter (·.cause.repeats slot) = [] ∧ slot.declared? report.value.2 = none) ∧
      ∀ (slot : Slot) (first : Declared) (again : Attempt),
        (slot.report first again).diagnostic options.filename =
          ⟨(slot.repeated first.loc).kind,
            slot.complaint ++ (", previous one at line " ++ first.loc.line.toNat.repr), again.place,
            options.filename, some first.loc⟩ := by
  have hwalk := walk_tries builtins options program
  have hstart : ∀ slot : Slot, slot.declared? (Context.start builtins) = none := by
    intro slot
    cases slot <;> rfl
  have hslot : ∀ (slot : Slot) {own : List Attempt},
      slot.own (program.attempts builtins options) = own →
        (program.walk builtins options).faults.filter (·.cause.repeats slot) =
          slot.reports none own ∧
        slot.declared? (program.walk builtins options).value.2 = Slot.keeps none own := by
    rintro slot _ rfl
    rw [hwalk.faults, hwalk.declared, hstart]
    exact ⟨rfl, rfl⟩
  refine ⟨diagnostics_eq, ?_, ?_, ?_⟩
  · intro slot first rest hown
    exact hslot slot hown
  · intro slot hown
    exact hslot slot hown
  · intro slot first again
    cases slot <;> rfl

/-- A module that declares each thing twice, one of its fields in one assignment. -/
def twice : Program :=
  let on (line : UInt64) := Location.lineCol line 1
  let field (line : UInt64) := Expr.field (.name "m" (on line)) "f" (on line)
  ⟨[.var [⟨"m", some .module, on 1⟩] [.init [] (on 1)] (on 1),
    .var [⟨"n", some .module, on 2⟩] [.init [] (on 2)] (on 2),
    .assign [field 3, field 3] [.integer 1 (on 3), .string "" (on 3)] (on 3),
    .assign [field 4] [.integer 1 (on 4)] (on 4),
    .var [⟨"x", some .integer, on 5⟩, ⟨"x", some .string, on 6⟩] [] (on 5),
    .alias "T" .integer (on 7),
    .record "T" [] (on 8),
    .ret [.name "m" (on 9)] (on 9)], [], []⟩

/-- What is declared again is reported, the field both where it is repeated and behind that. -/
theorem twice_repeats :
    let on (line : UInt64) := Location.lineCol line 1
    let report := twice.walk .standard ⟨"m.lua", true⟩
    report.faults.filter (·.cause.repeats .module) = [⟨.multipleModuleVariables (on 1), on 2⟩] ∧
      report.faults.filter (·.cause.repeats (.field "f")) =
        [⟨.duplicateModuleField "f" (on 3), on 3⟩, ⟨.duplicateModuleField "f" (on 3), on 4⟩] ∧
      report.faults.filter (·.cause.repeats (.var "x")) =
        [⟨.duplicateToplevel "x" (on 5), on 6⟩] ∧
      report.faults.filter (·.cause.repeats (.type "T")) =
        [⟨.duplicateType "T" (on 7), on 8⟩] ∧
      (Slot.type "T").declared? report.value.2 = some ⟨.integer, on 7⟩ := by
  intro on report
  obtain ⟨-, htwice, -⟩ := check_repeats .standard ⟨"m.lua", true⟩ twice
  exact ⟨(htwice .module _ _ rfl).1, (htwice (.field "f") _ _ rfl).1, (htwice (.var "x") _ _ rfl).1,
    (htwice (.type "T") _ _ rfl).1, (htwice (.type "T") _ _ rfl).2⟩

end Program

end Source

end LuaTyping
