import LuaTyping.Proofs.Frame.Declare
import LuaTyping.Proofs.Undeclared.Item

/-!
# An undeclared type name

In an accepted program one annotation, or a part of one, is replaced by a type name that the program
does not declare.  The new program is refused, with one diagnostic about an undeclared type name.
It is the only diagnostic exactly if the typed program that the checker works out is quiet
(`check_undeclared_type`): the `unknown` type that stands for the name can still be noticed, in a
comparison of values for equality and in a call with a table constructor as an argument.
-/

namespace LuaTyping

variable {ρ : String → NameMap Ty} {N : String} {Γ Γ' Δ : Context} {options : Options}
  {loc : Location}

/-! ### Diagnostics about undeclared type names -/

namespace Fault

theorem diagnostic_kind {filename : String} (fault : Fault) :
    decide ((fault.diagnostic filename).kind = .undeclaredType) = fault.isUndeclaredType := by
  obtain ⟨cause, loc⟩ := fault
  cases cause <;> rfl

theorem diagnostic_undeclaredType {filename : String} :
    (⟨.undeclaredType N, loc⟩ : Fault).diagnostic filename =
      ⟨.undeclaredType, "type '" ++ N ++ "' is not declared", loc, filename, none⟩ := by
  have hmessage : (Violation.undeclaredType N).message = "type '" ++ N ++ "' is not declared" :=
    calc "type " ++ ("'" ++ N ++ "'") ++ " is not declared"
      _ = ("type " ++ "'") ++ N ++ ("'" ++ " is not declared") := by
        simp only [String.append_assoc]
      _ = "type '" ++ N ++ "' is not declared" := rfl
  simp only [diagnostic, hmessage]
  rfl

end Fault

/-! ### Type names stay declared -/

namespace Context

theorem lookupType_declareType {name other : String} {ty ty' : Ty}
    (h : Γ.scopes.lookupType other = some ty') :
    (Γ.declareType name ty loc).value.scopes.lookupType other = some ty' := by
  unfold declareType Scopes.declareType
  cases hl : Γ.scopes.types.lookup name with
  | some previous => exact h
  | none =>
    have hne : other ≠ name := by
      rintro rfl
      simp [Scopes.lookupType, hl] at h
    simp only [Report.value_pure, Scopes.lookupType, NameMap.lookup_insert, if_neg hne]
    exact h

/-- The fields of the record with the given name. -/
def fieldsOf (Γ : Context) (record : String) : NameMap Ty :=
  match Γ.scopes.lookupType record with
  | some (.record _ fields) => fields
  | _ => []

end Context

namespace Source

/-- **Items keep the type names** with their types, whatever is wrong with them. -/
theorem Item.check_lookupType {item : Item} {name : String} {ty : Ty}
    (h : Γ.scopes.lookupType name = some ty) :
    (item.check options Γ).value.2.scopes.lookupType name = some ty := by
  have hkeep : ∀ {Δ : Context}, Δ.scopes.types = Γ.scopes.types →
      Δ.scopes.lookupType name = some ty := fun heq => by rwa [Scopes.lookupType, heq]
  unfold Item.check
  split <;> simp only [Report.value_bind, Report.value_pure]
  · exact hkeep Context.scopes_declareModule.types
  · exact hkeep Context.declareAll_sameButVars.scopes.types
  · exact hkeep Context.scopes_declareFunction.types
  · exact hkeep (congrArg Scopes.types Context.scopes_declareFields)
  · exact Context.lookupType_declareType h
  · exact Context.lookupType_declareType h
  · exact h

theorem checkItems_lookupType : ∀ {items : List Item} {Γ : Context} {name : String} {ty : Ty},
    Γ.scopes.lookupType name = some ty →
      (checkItems options Γ items).value.2.scopes.lookupType name = some ty
  | [], _, _, _, h => h
  | _ :: _, _, _, _, h => by
    simp only [checkItems, Report.value_bind, Report.value_pure]
    exact checkItems_lookupType (Item.check_lookupType h)

/-! ### Programs -/

theorem Item.all_quiet_toList {item : Option Typed.Item} :
    item.toList.all Typed.Item.quiet = Item.quietTyped item := by
  cases item <;> simp [Item.quietTyped]

/-- **Items with blurred types**, one after the other, show the replaced annotations and lead to a
blurred context. -/
theorem checkItems_leads : ∀ {items items' : List Item} {u : List Location} {Γ Γ' Δ : Context}
    {typed : List Typed.Item}, Γ.Proper false → Γ.varKind = .toplevel → Γ.Tracks ρ N u Γ' →
      EditsEach (Item.Edits N) u items items' → (∀ item ∈ items, item.typeName? ≠ some N) →
        (∀ name fields, (checkItems options Γ' items').value.2.scopes.lookupType name =
          some (.record name fields) → fields = ρ name) →
          (checkItems options Γ items).Yields (typed, Δ) →
            (checkItems options Γ' items').Leads ρ N u (fun items => items.all Typed.Item.quiet) Δ
  | _, _, _, Γ, Γ', Δ, typed, _, _, hT, .nil, _, _, h => by
    simp only [checkItems, Report.yields_pure, Prod.mk.injEq] at h
    obtain ⟨-, rfl⟩ := h
    exact ⟨.of_faults_eq_nil rfl, hT.blurs⟩
  | item :: rest, item' :: rest', _, Γ, Γ', Δ, typed, hΓ, hk, hT, .cons he hes, hN, hρ, h => by
    simp only [checkItems, Report.yields_bind, Report.yields_require, Report.yields_pure,
      Prod.mk.injEq] at h
    obtain ⟨_, hlast, ⟨t, Γ₁⟩, ht, ⟨ts, Δ'⟩, hts, -, rfl⟩ := h
    simp only [checkItems, Report.value_bind, Report.value_pure] at hρ
    have hl := Item.check_leads hΓ hk hT.left he (hN item List.mem_cons_self)
      (fun name fields hfound => hρ name fields (checkItems_lookupType hfound)) ht
    obtain ⟨hΓ₁, hk₁⟩ := Item.check_context_proper hΓ hk ht
    have hnext : Γ₁.Tracks ρ N _ (item'.check options Γ').value.2 :=
      hT.next hl.context fun hu hΓ' => by rw [he.eq_of_nil hu, hΓ', ht.value_eq]
    have hls := checkItems_leads hΓ₁ hk₁ hnext hes
      (fun item hitem => hN item (List.mem_cons_of_mem _ hitem)) hρ hts
    have hlast' : (!item'.isReturn || rest'.isEmpty) = true := by
      rwa [he.isReturn_eq, hes.isEmpty_eq]
    refine ⟨?_, hls.context⟩
    simp only [checkItems, Report.value_bind, Report.value_pure, List.all_append,
      Item.all_quiet_toList]
    exact .bind_silent (by simp [hlast']) (hl.shows.bind hls.shows.bind_pure)

theorem Item.Edits.isReturn_getLastD : ∀ {rest rest' : List Item} {first first' : Item}
    {u v : List Location}, first.Edits N u first' → EditsEach (Item.Edits N) v rest rest' →
      (rest'.getLastD first').isReturn = (rest.getLastD first).isReturn
  | _, _, _, _, _, _, he, .nil => he.isReturn_eq
  | _ :: _, _ :: _, _, _, _, _, _, .cons he hes => by
    rw [List.getLastD_cons, List.getLastD_cons]
    exact Item.Edits.isReturn_getLastD he hes

/-- The start of a program is a context with blurred types if no records occur in the types of the
builtins. -/
theorem start_blurs {builtins : Builtins} (hb : ∀ ty ∈ builtins.types, ty.proper false = true)
    (hr : ∀ ty ∈ builtins.types, ty.recordFree = true) :
    (Context.start builtins).Blurs ρ N (.start builtins) where
  env :=
    { builtins := rfl
      plain := fun ty hty => .refl (hb ty hty) (hr ty hty)
      vars := fun _ => .none
      module := rfl
      fields := fun _ => .none
      returns := .nil
      inLoop := rfl }
  varKind := rfl
  types := fun _ => .none
  undeclared := rfl

namespace Program

variable {builtins : Builtins} {program program' : Program}

/-- **Programs with blurred types** show the replaced annotation. -/
theorem walk_shows {u : List Location} {items : List Typed.Item} (hu : u.length ≤ 1)
    (hb : ∀ ty ∈ builtins.types, ty.proper false = true)
    (hr : ∀ ty ∈ builtins.types, ty.recordFree = true) (hN : N ∉ program.typeNames)
    (he : program.Edits N u program') (h : (program.walk builtins options).Yields (items, Δ)) :
    (program'.walk builtins options).Shows N u
      (Typed.Program.mk (program'.walk builtins options).value.1).quiet := by
  obtain ⟨hitems, hvar, last, hlast, hret⟩ := walk_yields h
  have hl : (checkItems options (.start builtins) program'.items).Leads
      (checkItems options (.start builtins) program'.items).value.2.fieldsOf N u
      (fun items => items.all Typed.Item.quiet) Δ := by
    refine checkItems_leads (Context.start_proper hb) rfl ⟨start_blurs hb hr, hu, fun _ => rfl⟩
      he ?_ ?_ hitems
    · intro item hitem hname
      exact hN (List.mem_filterMap.mpr ⟨item, hitem, hname⟩)
    · intro name fields hfound
      rw [Context.fieldsOf, hfound]
  obtain ⟨sources⟩ := program
  obtain ⟨sources'⟩ := program'
  cases he with
  | nil => cases hlast
  | @cons u v first first' rest rest' hfirst hrest =>
    have hvar' : (checkItems options (.start builtins) (first' :: rest')).value.2.module.var.isSome =
        true := by
      have hname := hl.context.env.module
      simp only [Context.env, ModuleDraft.name?] at hname
      rw [← Option.isSome_map, hname, Option.isSome_map]
      exact hvar
    have hret' : (rest'.getLastD first').isReturn = true := by
      rw [Item.Edits.isReturn_getLastD hfirst hrest]
      rw [List.getLast?_cons, ← List.getLastD_eq_getLast?] at hlast
      cases hlast
      exact hret
    unfold walk
    exact hl.shows.bind_shown (.bind_silent (by simp [hvar']) (.bind_pure (.of_require hret')))

theorem check_eq_error (h : (program.walk builtins options).faults ≠ []) :
    program.check builtins options =
      .error ((program.walk builtins options).faults.map (Fault.diagnostic options.filename)) := by
  simp only [check]
  split
  · next hnil _ => exact absurd hnil h
  · rfl

/-- **One undeclared type name, one diagnostic about it.**  An annotation of an accepted program, or
a part of one, is replaced by a name that the program does not declare.  The new program is refused
with one diagnostic about an undeclared type name, and this is the only one exactly if the typed
program is quiet. -/
theorem check_undeclared_type (builtins : Builtins) (options : Options)
    (program program' : Program) (checked : CheckedModule) (N : String) (loc : Location)
    (hb : ∀ ty ∈ builtins.types, ty.proper false = true)
    (hr : ∀ ty ∈ builtins.types, ty.recordFree = true)
    (h : program.check builtins options = .ok checked) (hN : N ∉ program.typeNames)
    (he : program.Edits N [loc] program') :
    ∃ diagnostics, program'.check builtins options = .error diagnostics ∧
      (diagnostics.filter fun diagnostic => diagnostic.kind = .undeclaredType) =
        [⟨.undeclaredType, "type '" ++ N ++ "' is not declared", loc, options.filename, none⟩] ∧
      (diagnostics.length = 1 ↔
        (Typed.Program.mk (program'.walk builtins options).value.1).quiet = true) := by
  obtain ⟨items, Γ, _, hw, -, -⟩ := walk_yields_of_check h
  have hs := walk_shows (u := [loc]) (Nat.le_refl 1) hb hr hN he hw
  have hfaults : (program'.walk builtins options).faults ≠ [] := by
    intro hnil
    have hu := hs.undeclared
    rw [hnil] at hu
    cases hu
  refine ⟨_, check_eq_error hfaults, ?_, ?_⟩
  · have hkind : ((fun diagnostic : Diagnostic => decide (diagnostic.kind = .undeclaredType)) ∘
        Fault.diagnostic options.filename) = Fault.isUndeclaredType :=
      funext fun fault => Fault.diagnostic_kind fault
    rw [List.filter_map, hkind, hs.undeclared]
    simp only [undeclaredAt, List.map_cons, List.map_nil, Fault.diagnostic_undeclaredType]
  · rw [← hs.others, List.length_map, List.length_eq_length_filter_add Fault.isUndeclaredType,
      hs.undeclared]
    simp [undeclaredAt]

/-- A module with a single function. -/
def ofFunction (decl : Function) : Program where
  items := [.var [⟨"m", some .module, .nowhere⟩] [.init [] .nowhere] .nowhere, .function decl,
    .ret [.name "m" .nowhere] .nowhere]
  typeRegions := []
  commentRegions := []

theorem edits_ofFunction {name : FunctionName} {param param' : Decl} {params : List Decl}
    {returns : List TypeExpr} {body : Block} {site : Location} (h : param.Edits N [loc] param') :
    (ofFunction ⟨name, param :: params, returns, body, site⟩).Edits N [loc]
      (ofFunction ⟨name, param' :: params, returns, body, site⟩) := by
  have hparams : EditsEach (Decl.Edits N) ([loc] ++ []) (param :: params) (param' :: params) :=
    .cons h (Decl.Edits.list_refl params)
  have hfunction : (Item.function ⟨name, param :: params, returns, body, site⟩).Edits N
      ([loc] ++ ([] ++ [])) (.function ⟨name, param' :: params, returns, body, site⟩) :=
    .function hparams (TypeExpr.Edits.list_refl returns) (Stmt.Edits.list_refl body)
  exact EditsEach.cons (Item.Edits.refl _) (.cons hfunction (.cons (Item.Edits.refl _) .nil))

/-- Adds one to the first element of an array. -/
def increments (elem : TypeExpr) : Program :=
  let here := Location.nowhere
  ofFunction ⟨.member "m" "increment", [⟨"xs", some (.array elem here), here⟩], [.integer],
    [.declare [⟨"x", some .integer, here⟩] [.index (.name "xs" here) (.integer 1 here) here] here,
      .ret [.binary (.name "x" here) .add (.integer 1 here) here] here], here⟩

theorem increments_undeclared_type :
    (∀ ty ∈ Builtins.standard.types, ty.proper false = true) ∧
      (∀ ty ∈ Builtins.standard.types, ty.recordFree = true) ∧
        (increments .integer).Edits "Item" [.nowhere] (increments (.name "Item" .nowhere)) ∧
          "Item" ∉ (increments .integer).typeNames ∧
            ∃ checked diagnostics,
              (increments .integer).check .standard .standard = .ok checked ∧
                (increments (.name "Item" .nowhere)).check .standard .standard =
                  .error diagnostics ∧
                  diagnostics.length = 1 := by
  have hb : ∀ ty ∈ Builtins.standard.types, ty.proper false = true := by decide
  have hr : ∀ ty ∈ Builtins.standard.types, ty.recordFree = true := by decide
  have he : (increments .integer).Edits "Item" [.nowhere] (increments (.name "Item" .nowhere)) :=
    edits_ofFunction (.typed (.array (.here rfl)))
  have hN : "Item" ∉ (increments .integer).typeNames := by decide
  have hq : (Typed.Program.mk ((increments (.name "Item" .nowhere)).walk .standard
      .standard).value.1).quiet = true := by decide +kernel
  obtain ⟨checked, hc⟩ := accepted_iff.mp
    (by decide +kernel : ((increments .integer).check .standard .standard).isOk = true)
  obtain ⟨diagnostics, herror, -, hone⟩ := check_undeclared_type .standard .standard _ _ checked
    "Item" .nowhere hb hr hc hN he
  exact ⟨hb, hr, he, hN, checked, diagnostics, hc, herror, hone.mpr hq⟩

/-- Compares two arrays. -/
def compares (elem : TypeExpr) : Program :=
  let here := Location.nowhere
  ofFunction ⟨.plain "same", [⟨"a", some (.array elem here), here⟩,
    ⟨"b", some (.array .integer here), here⟩], [.boolean],
    [.ret [.binary (.name "a" here) .eq (.name "b" here) here] here], here⟩

/-- Calls a parameter with a table constructor. -/
def feeds (type : TypeExpr) : Program :=
  let here := Location.nowhere
  ofFunction ⟨.plain "feed", [⟨"sink", some type, here⟩], [],
    [.call (.call (.name "sink" here) [.init [.positional (.integer 1 here)] here] here) here], here⟩

/-- The `unknown` type that stands for an undeclared name is noticed twice more: in a comparison of
two arrays, and in a call with a table constructor. -/
theorem unknown_type_noticed :
    ((compares .integer).Edits "Item" [.nowhere] (compares (.name "Item" .nowhere)) ∧
      "Item" ∉ (compares .integer).typeNames ∧
        ∃ checked diagnostics, (compares .integer).check .standard .standard = .ok checked ∧
          (compares (.name "Item" .nowhere)).check .standard .standard = .error diagnostics ∧
            diagnostics.map Diagnostic.kind = [.undeclaredType, .invalidOperand]) ∧
      (feeds (.function [.array .integer .nowhere] [] .nowhere)).Edits "Item" [.nowhere]
          (feeds (.name "Item" .nowhere)) ∧
        "Item" ∉ (feeds (.function [.array .integer .nowhere] [] .nowhere)).typeNames ∧
          ∃ checked diagnostics,
            (feeds (.function [.array .integer .nowhere] [] .nowhere)).check .standard .standard =
              .ok checked ∧
              (feeds (.name "Item" .nowhere)).check .standard .standard = .error diagnostics ∧
                diagnostics.map Diagnostic.kind = [.undeclaredType, .invalidInitializer] := by
  refine ⟨⟨edits_ofFunction (.typed (.array (.here rfl))), by decide, ?_⟩,
    edits_ofFunction (.typed (.here rfl)), by decide, ?_⟩
  · exact ⟨_, _, rfl, rfl, rfl⟩
  · exact ⟨_, _, rfl, rfl, rfl⟩

end Program

end Source

end LuaTyping
