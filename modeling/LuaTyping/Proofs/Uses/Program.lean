import LuaTyping.Proofs.Undeclared.Program
import LuaTyping.Proofs.Uses.Stmt

/-!
# Undeclared names in programs

A name that is no builtin and that a program introduces nowhere is reported as undeclared exactly at
the places where the check of the program looks it up (`reported_iff`), whatever other mistakes
there are.  Wherever the name stands in plain sight it is looked up.

Not every use is in plain sight.  The entries of table constructors are looked at as far as
`Entry.taken` says, and a target that cannot be assigned to and the values of the module variable
are passed over.  A name that is used only there is not reported (`overlooked_use`).
-/

namespace LuaTyping

open Violation (isUndeclared)

variable {Γ : Context} {n : String} {options : Options} {loc : Location}

/-! ### Parts of items -/

namespace Context

theorem Lacks.of_scopes {Δ : Context} (h : Γ.Lacks n) (heq : Δ.scopes = Γ.scopes) : Δ.Lacks n := by
  rwa [Lacks, heq]

theorem Lacks.declareModule (h : Γ.Lacks n) {name : String} (hne : n ≠ name) (nameLoc : Location) :
    (Γ.declareModule name nameLoc loc).value.Lacks n := by
  unfold Context.declareModule
  split
  · exact h
  · refine Lacks.declare ?_ hne _
    exact h

theorem Lacks.declareType (h : Γ.Lacks n) (name : String) (ty : Ty) :
    (Γ.declareType name ty loc).value.Lacks n := by
  unfold Context.declareType Scopes.declareType
  cases Γ.scopes.types.lookup name <;> exact h

theorem undeclared_declareField (field : String) (ty : Ty) :
    (Γ.declareField options field ty loc).undeclared n = [] := by
  unfold declareField
  rw [Report.undeclared_bind]
  split <;> simp [isUndeclared]

theorem undeclared_declareModule (name : String) (nameLoc : Location) :
    (Γ.declareModule name nameLoc loc).undeclared n = [] := by
  unfold declareModule
  split
  · simp [isUndeclared]
  · exact (declare_avoids _ _ _ fun _ _ => rfl).undeclared

theorem undeclared_declareType (name : String) (ty : Ty) :
    (Γ.declareType name ty loc).undeclared n = [] := by
  unfold declareType
  split <;> simp [isUndeclared]

theorem undeclared_declareFields : ∀ (targets : List ItemTarget) (tys : List Ty) (Γ : Context),
    (declareFields options loc targets tys Γ).undeclared n = []
  | [], _, _ => rfl
  | .existing target :: rest, tys, Γ => by
    simp [declareFields, undeclared_declareFields rest]
  | .newField module field :: rest, tys, Γ => by
    simp [declareFields, undeclared_declareField, undeclared_declareFields rest]

theorem undeclared_param (decl : Source.Decl) : (Γ.param decl).undeclared n = [] := by
  simp [param, decl.undeclared_stated, isUndeclared]

theorem undeclared_moduleInit (name : String) (values : List Source.Expr) :
    (Γ.moduleInit name values loc).undeclared n = [] := by
  unfold moduleInit
  split <;> simp [Source.Expr.check, isUndeclared]

theorem undeclared_recordFields (record : String) (decls : List Source.Decl) (known : NameMap Ty) :
    (Γ.recordFields record decls known).undeclared n = [] := by
  induction decls generalizing known with
  | nil => rfl
  | cons decl rest ih =>
    simp only [recordFields, Report.undeclared_bind, decl.undeclared_stated]
    split <;> simp [ih, isUndeclared]

theorem moduleReturn_reports (h : Γ.Lacks n) (values : List Source.Expr) :
    (Γ.moduleReturn values loc).undeclared n = values.flatMap (·.looks Γ n none) := by
  simp only [moduleReturn, Report.undeclared_bind, Report.undeclared_mapM,
    Source.Expr.check_reports h, Demand.type?]
  split <;> simp [isUndeclared]

theorem itemTarget_reports (h : Γ.Lacks n) (expr : Source.Expr) :
    (Γ.itemTarget expr).undeclared n = expr.targetLooks Γ n := by
  unfold itemTarget
  split
  · next module field hfield =>
    -- The name of the module variable is in sight, so it is another one.
    have hlooks : expr.targetLooks Γ n = [] := by
      unfold moduleField? at hfield
      split at hfield
      · next name nameLoc field' fieldLoc =>
        have hne : name ≠ n := by
          rintro rfl
          simp [isModuleVar, show Γ.scopes.lookup name = none from h] at hfield
        simp [Source.Expr.targetLooks, Source.Expr.isTarget, Source.Expr.looks, hne]
      · cases hfield
    rw [hlooks]
    split <;> simp [isUndeclared]
  · simp [target_reports h]

theorem itemAssign_reports (h : Γ.Lacks n) (targets values : List Source.Expr) :
    (itemAssign options Γ targets values loc).undeclared n =
      targets.flatMap (Source.Expr.targetLooks Γ n) ++ Source.Expr.listLooks Γ n values
        (targets.map fun target => (Γ.itemTarget target).value.expected) := by
  simp [itemAssign, Report.undeclared_mapM, Report.value_mapM, itemTarget_reports h,
    Source.Expr.checkValues_reports h, undeclared_declareFields, isUndeclared,
    Function.comp_def]

end Context

/-! ### Functions -/

namespace Source.FunctionName

/-- The names that a function name introduces. -/
def introduces : FunctionName → List String
  | .plain name => [name]
  | .member _ _ => []

/-- A function declared as a member uses the name in front of the dot. -/
def uses (n : String) (loc : Location) : FunctionName → List Location
  | .plain _ => []
  | .member module _ => if module = n then [loc] else []

end Source.FunctionName

namespace Context

theorem declareFunction_reports (h : Γ.Lacks n) (name : Source.FunctionName) (ty : Ty) :
    (declareFunction options Γ name ty loc).undeclared n = name.uses n loc := by
  cases name with
  | plain name => exact (declare_avoids _ _ _ fun _ _ => rfl).undeclared
  | member module field =>
    simp only [declareFunction, Source.FunctionName.uses]
    split
    · next hmodule =>
      have hne : module ≠ n := by
        rintro rfl
        simp [isModuleVar, show Γ.scopes.lookup module = none from h] at hmodule
      rw [undeclared_declareField, if_neg hne]
    · split
      · next found hfound => simp [isUndeclared, h.ne_of_lookup hfound]
      · simp [isUndeclared]

theorem Lacks.declareFunction (h : Γ.Lacks n) {name : Source.FunctionName}
    (hn : n ∉ name.introduces) (ty : Ty) :
    (declareFunction options Γ name ty loc).value.Lacks n := by
  cases name with
  | plain name => exact h.declare (List.ne_of_not_mem_cons hn) _
  | member module field =>
    simp only [Context.declareFunction]
    split
    · exact h.of_scopes scopes_declareField
    · split <;> exact h

/-- The context that the body of a function is checked in. -/
def insideFunction (options : Options) (Γ : Context) (decl : Source.Function) : Context :=
  let params := decl.params.map fun param => (Γ.param param).value
  let returns := (TypeExpr.resolveList Γ.scopes decl.returns decl.loc).value
  let Δ := (Context.declareFunction options Γ decl.name (.function (params.map (·.ty)) returns)
    decl.loc).value
  (declareAll .inner params (Δ.enterFunction returns)).value

theorem Lacks.insideFunction (h : Γ.Lacks n) (options : Options) {decl : Source.Function}
    (hname : n ∉ decl.name.introduces) (hparams : n ∉ decl.params.map (·.name)) :
    (Γ.insideFunction options decl).Lacks n := by
  refine ((h.declareFunction hname _).enterFunction _).declareAll ?_
  rwa [List.map_map]

theorem function_reports (h : Γ.Lacks n) (decl : Source.Function)
    (hname : n ∉ decl.name.introduces) (hparams : n ∉ decl.params.map (·.name))
    (hbody : n ∉ Source.Stmt.blockIntroduces decl.body) :
    (function options Γ decl).undeclared n = decl.name.uses n decl.loc ++
      Source.Stmt.blockLooks (Γ.insideFunction options decl) n decl.body := by
  have hsignature : (decl.params.mapM Γ.param).undeclared n = [] := by
    simp [Report.undeclared_mapM, undeclared_param]
  have hinside := Source.Stmt.checkBlock_reports decl.body
    (h.insideFunction options hname hparams) hbody
  simp only [function, functionBody, Report.undeclared_bind, Report.undeclared_pure, hsignature,
    (TypeExpr.resolveList_avoids _ _ _).undeclared, declareFunction_reports h,
    undeclared_declareAll, Report.undeclared_require, isUndeclared, Bool.false_eq_true, if_false,
    ite_self, List.append_nil, List.nil_append, Report.value_mapM]
  exact congrArg _ hinside

end Context

/-! ### Items -/

namespace Source

namespace Item

/-- The names that the item introduces, those inside it included. -/
def introduces : Item → List String
  | .var decls _ _ => decls.map (·.name)
  | .function decl =>
    decl.name.introduces ++ decl.params.map (·.name) ++ Stmt.blockIntroduces decl.body
  | .assign .. | .record .. | .alias .. | .ret .. => []

/-- The places where the item uses the name.  Those in constructors, in targets that cannot be
assigned to and in the values of the module variable count only if `all` are asked for. -/
def uses (all : Bool) (n : String) : Item → List Location
  | .var [⟨_, some .module, _⟩] values _ => if all then Expr.listUses all n values else []
  | .var _ values _ => Expr.listUses all n values
  | .function decl => decl.name.uses n decl.loc ++ Stmt.blockUses all n decl.body
  | .assign targets values _ =>
    targets.flatMap (Expr.targetUses all n) ++ Expr.listUses all n values
  | .ret values _ => Expr.listUses all n values
  | .record .. | .alias .. => []

/-- The places where the check of an item looks the name up. -/
def looks (options : Options) (Γ : Context) (n : String) : Item → List Location
  | .var [⟨_, some .module, _⟩] _ _ => []
  | .var decls values _ =>
    Expr.listLooks Γ n values (decls.map fun decl => (decl.stated Γ).value)
  | .function decl =>
    decl.name.uses n decl.loc ++ Stmt.blockLooks (Γ.insideFunction options decl) n decl.body
  | .assign targets values _ =>
    targets.flatMap (Expr.targetLooks Γ n) ++ Expr.listLooks Γ n values
      (targets.map fun target => (Γ.itemTarget target).value.expected)
  | .ret values _ => values.flatMap (·.looks Γ n none)
  | .record .. | .alias .. => []

theorem looks_between (Γ : Context) (item : Item) :
    Between (item.uses false n) (item.looks options Γ n) (item.uses true n) := by
  unfold uses looks
  split
  · exact ⟨List.nil_sublist _, List.nil_sublist _⟩
  · exact Expr.listLooks_between _ _
  · exact Between.refl.append (Stmt.blockLooks_between _ _)
  · exact .append (.flatMap Expr.targetLooks_between) (Expr.listLooks_between _ _)
  · rw [Expr.listUses_eq_flatMap, Expr.listUses_eq_flatMap]
    exact .flatMap fun value => value.looks_between none
  · exact .refl
  · exact .refl

theorem check_lacks (h : Γ.Lacks n) {item : Item} (hn : n ∉ item.introduces) :
    (item.check options Γ).value.2.Lacks n := by
  unfold check
  split <;> simp only [introduces, List.mem_append, not_or] at hn
  · exact h.declareModule (List.ne_of_not_mem_cons hn) _
  · exact h.declareVars hn _
  · exact h.declareFunction hn.1.1 _
  · exact h.of_scopes Context.scopes_declareFields
  · exact h.declareType _ _
  · exact h.declareType _ _
  · exact h

/-- **An undeclared name is reported where it is looked up**, and nowhere else. -/
theorem check_reports (h : Γ.Lacks n) {item : Item} (hn : n ∉ item.introduces) :
    (item.check options Γ).undeclared n = item.looks options Γ n := by
  unfold check looks
  split
  · simp [Context.moduleVar, Context.undeclared_moduleInit, Context.undeclared_declareModule]
  · simp [Context.declareVars_reports h]
  · next decl =>
    simp only [introduces, List.mem_append, not_or] at hn
    simp [Context.function_reports h decl hn.1.1 hn.1.2 hn.2]
  · simp [Context.itemAssign_reports h]
  · simp [Context.undeclared_recordFields, Context.undeclared_declareType]
  · simp [(TypeExpr.resolve_avoids _ _ _).undeclared, Context.undeclared_declareType]
  · simp [Context.moduleReturn_reports h]

end Item

/-! ### Programs -/

/-- The places where the check of items one after another looks the name up. -/
def itemLooks (options : Options) (Γ : Context) (n : String) : List Item → List Location
  | [] => []
  | item :: rest =>
    item.looks options Γ n ++ itemLooks options (item.check options Γ).value.2 n rest

theorem itemLooks_between (items : List Item) (Γ : Context) :
    Between (items.flatMap (Item.uses false n)) (itemLooks options Γ n items)
      (items.flatMap (Item.uses true n)) := by
  induction items generalizing Γ with
  | nil => exact .refl
  | cons item rest ih => exact (item.looks_between Γ).append (ih _)

theorem checkItems_reports {items : List Item} {Γ : Context} (h : Γ.Lacks n)
    (hn : n ∉ items.flatMap Item.introduces) :
    (checkItems options Γ items).undeclared n = itemLooks options Γ n items := by
  induction items generalizing Γ with
  | nil => rfl
  | cons item rest ih =>
    rw [List.flatMap_cons, List.mem_append, not_or] at hn
    simp [checkItems, itemLooks, Item.check_reports h hn.1, ih (Item.check_lacks h hn.1) hn.2,
      isUndeclared]

namespace Program

variable {builtins : Builtins} {program : Program}

/-- The names that the program introduces: those of variables, functions, parameters and loops. -/
def introduces (program : Program) : List String :=
  program.items.flatMap Item.introduces

/-- The places where the program uses the name, those out of plain sight only if `all` are asked
for. -/
def uses (all : Bool) (n : String) (program : Program) : List Location :=
  program.items.flatMap (Item.uses all n)

/-- The places where the check of the program looks the name up. -/
def looks (builtins : Builtins) (options : Options) (n : String) (program : Program) :
    List Location :=
  itemLooks options (.start builtins) n program.items

theorem walk_reports (hb : builtins.get? n = none) (hn : n ∉ program.introduces) :
    (program.walk builtins options).undeclared n = program.looks builtins options n := by
  have hstart : (Context.start builtins).Lacks n := Context.lacks_iff.mpr ⟨rfl, hb⟩
  unfold walk looks
  unfold introduces at hn
  split
  · next hitems => simp [hitems, itemLooks, isUndeclared]
  · next first rest hitems =>
    rw [hitems] at hn ⊢
    simp [checkItems_reports hstart hn, isUndeclared]

end Program

end Source

/-! ### Diagnostics -/

namespace Violation

theorem message_undeclaredName (n : String) : (Violation.undeclaredName n).message =
    "variable '" ++ n ++ "' is not declared" :=
  calc "variable " ++ ("'" ++ n ++ "'") ++ " is not declared"
    _ = ("variable " ++ "'") ++ n ++ ("'" ++ " is not declared") := by
      simp only [String.append_assoc]
    _ = "variable '" ++ n ++ "' is not declared" := rfl

theorem head?_message_unknownLibraryMember (library member : String) :
    (Violation.unknownLibraryMember library member).message.toList.head? = some '\'' := by
  have hmessage : (Violation.unknownLibraryMember library member).message =
      "'" ++ member ++ "'" ++ " is not a member of library " ++ quoted library := rfl
  simp only [hmessage, String.toList_append, List.append_assoc]
  rfl

/-- Among the violations of its kind, the message tells which name is not declared. -/
theorem eq_undeclaredName {cause : Violation} (hkind : cause.kind = .undeclaredName)
    (hmessage : cause.message = "variable '" ++ n ++ "' is not declared") :
    cause = .undeclaredName n := by
  have htext := congrArg String.toList hmessage
  rw [String.toList_append, String.toList_append] at htext
  cases cause with
  | undeclaredName name =>
    rw [message_undeclaredName, String.toList_append, String.toList_append] at htext
    rw [String.toList_inj.mp (List.append_cancel_left (List.append_cancel_right htext))]
  | unknownLibraryMember library member =>
    have hfirst := congrArg List.head? htext
    rw [head?_message_unknownLibraryMember, List.append_assoc,
      List.head?_append_of_ne_nil _ (by decide)] at hfirst
    exact absurd hfirst (by decide)
  | _ => cases hkind

end Violation

namespace Source.Program

variable {builtins : Builtins} {program : Program}

/-- The undeclared name is reported where it is looked up, in the words that a user reads. -/
theorem reported_iff (hb : builtins.get? n = none) (hn : n ∉ program.introduces) :
    (∃ diagnostics, program.check builtins options = .error diagnostics ∧
        ⟨.undeclaredName, "variable '" ++ n ++ "' is not declared", loc, options.filename, none⟩ ∈
          diagnostics) ↔ loc ∈ program.looks builtins options n := by
  rw [← walk_reports hb hn, Report.mem_undeclared]
  constructor
  · rintro ⟨diagnostics, hcheck, hmem⟩
    rw [check_error hcheck] at hmem
    obtain ⟨⟨cause, place⟩, hfault, hdiagnostic⟩ := List.mem_map.mp hmem
    have hcause := Violation.eq_undeclaredName (congrArg Diagnostic.kind hdiagnostic)
      (congrArg Diagnostic.message hdiagnostic)
    have hplace : place = loc := congrArg Diagnostic.location hdiagnostic
    rwa [← hcause, ← hplace]
  · intro hfault
    refine ⟨_, check_eq_error (List.ne_nil_of_mem hfault), List.mem_map.mpr ⟨_, hfault, ?_⟩⟩
    rw [Fault.diagnostic, Violation.message_undeclaredName]
    rfl

/-- **Every undeclared use that is looked up is reported, and no other.**  Let a name be no builtin,
and let a program introduce it nowhere.  Then the program is refused with a diagnostic about the
name at a place exactly if the check looks the name up there.  All uses in plain sight are looked
up, and of those inside table constructors the ones in entries that are taken. -/
theorem check_undeclared_use (builtins : Builtins) (options : Options) (program : Program)
    (n : String) (hb : builtins.get? n = none) (hn : n ∉ program.introduces) :
    (∀ loc, (∃ diagnostics, program.check builtins options = .error diagnostics ∧
        ⟨.undeclaredName, "variable '" ++ n ++ "' is not declared", loc, options.filename, none⟩ ∈
          diagnostics) ↔ loc ∈ program.looks builtins options n) ∧
      Between (program.uses false n) (program.looks builtins options n) (program.uses true n) :=
  ⟨fun _ => reported_iff hb hn, itemLooks_between _ _⟩

/-- Counts with a variable that is declared nowhere. -/
def ghostly : Program :=
  let here := Location.nowhere
  ofFunction ⟨.plain "count", [], [],
    [.declare [⟨"xs", some (.array .integer here), here⟩]
        [.init [.positional (.name "ghost" (.lineCol 1 1))] here] here,
      .assign [.name "ghost" (.lineCol 2 1)]
        [.index (.name "xs" here) (.name "ghost" (.lineCol 2 2)) here] here], here⟩

theorem ghostly_undeclared_use :
    Builtins.standard.get? "ghost" = none ∧ "ghost" ∉ ghostly.introduces ∧
      ∀ loc ∈ [Location.lineCol 1 1, .lineCol 2 1, .lineCol 2 2], ∃ diagnostics,
        ghostly.check .standard .standard = .error diagnostics ∧
          ⟨.undeclaredName, "variable '" ++ "ghost" ++ "' is not declared", loc,
            Options.standard.filename, none⟩ ∈ diagnostics := by
  have hb : Builtins.standard.get? "ghost" = none := by decide +kernel
  have hn : "ghost" ∉ ghostly.introduces := by decide +kernel
  obtain ⟨hiff, -⟩ := check_undeclared_use .standard .standard ghostly "ghost" hb hn
  have hlooks : ghostly.looks .standard .standard "ghost" =
      [.lineCol 1 1, .lineCol 2 1, .lineCol 2 2] := by decide +kernel
  exact ⟨hb, hn, fun loc hloc => (hiff loc).mpr (hlooks ▸ hloc)⟩

/-- Uses a variable that is declared nowhere in places that are passed over: as the value of the
module variable, in a named entry of an array, in a positional, a repeated and an unknown entry of a
table, in a constructor inside one without a type, and in a target that cannot be assigned to. -/
def overlooked : Program :=
  let here := Location.nowhere
  let ghost := fun line => Expr.name "ghost" (.lineCol line 1)
  let body := [
    Stmt.declare [⟨"xs", some (.array .integer here), here⟩]
      [.init [.named "x" (ghost 2) here] here] here,
    .declare [⟨"point", some (.table [⟨"x", .integer, here⟩] here), here⟩]
      [.init [.positional (ghost 3), .named "x" (.integer 1 here) here, .named "x" (ghost 4) here,
        .named "y" (ghost 5) here] here] here,
    .declare [⟨"grid", none, here⟩] [.init [.positional (.init [.positional (ghost 6)] here)] here]
      here,
    .assign [.paren (ghost 7) here] [.integer 1 here] here]
  { items := [.var [⟨"m", some .module, here⟩] [.init [.positional (ghost 1)] here] here,
      .function ⟨.plain "fill", [], [], body, here⟩, .ret [.name "m" here] here]
    typeRegions := []
    commentRegions := [] }

theorem overlooked_use :
    Builtins.standard.get? "ghost" = none ∧ "ghost" ∉ overlooked.introduces ∧
      overlooked.uses true "ghost" = [1, 2, 3, 4, 5, 6, 7].map (Location.lineCol · 1) ∧
        ∀ loc, ¬∃ diagnostics, overlooked.check .standard .standard = .error diagnostics ∧
          ⟨.undeclaredName, "variable '" ++ "ghost" ++ "' is not declared", loc,
            Options.standard.filename, none⟩ ∈ diagnostics := by
  have hb : Builtins.standard.get? "ghost" = none := by decide +kernel
  have hn : "ghost" ∉ overlooked.introduces := by decide +kernel
  have hlooks : overlooked.looks .standard .standard "ghost" = [] := by decide +kernel
  refine ⟨hb, hn, by decide +kernel, fun loc => ?_⟩
  rw [reported_iff hb hn, hlooks]
  exact List.not_mem_nil

end Source.Program

end LuaTyping
