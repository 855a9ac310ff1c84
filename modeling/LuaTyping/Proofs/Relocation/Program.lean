import LuaTyping.Proofs.Proper.Item
import LuaTyping.Proofs.Relocation.Locations
import LuaTyping.Proofs.Revision.Item

/-!
# Relocated programs

Locations are carried along and never looked at.  The check of a relocated program is in step with
that of the program, whatever is wrong with it (`checkItems_relocation`, `walk_relocate`).  So the
result is the same with its locations moved (`check_relocate`): a checked module with the same types,
or the same diagnostics in the same order, at the moved places and in the file that is named now.  A
message changes only in the line of an earlier declaration that it cites.

A relocation that fixes all locations of the program and sends every other one there leaves the
program as it is, hence the result too.  So no location in the result is invented.
-/

namespace LuaTyping

open Report (InStep)

variable {strict : Prop} {ρ : Location → Location} {options options' : Options} {Γ : Context}

/-! ### Type names -/

/-- Type names resolve in step with those at moved locations. -/
theorem Revision.relocation_resolves (types : NameMap Declared) :
    (relocation ρ).Resolves strict types (types.mapValues (Declared.relocate ρ)) := by
  intro scopes scopes' hfirst hsecond text loc site
  have hlookup : scopes'.lookupType text = scopes.lookupType text := by
    rw [Scopes.lookupType, Scopes.lookupType, hfirst, hsecond, NameMap.lookup_mapValues,
      Option.map_map]
    rfl
  simp only [relocation, TypeExpr.resolve, hlookup]
  exact .orUnknown

namespace Context

/-- The context with all its locations moved. -/
def relocate (ρ : Location → Location) (Γ : Context) : Context :=
  Γ.revise ρ (Γ.scopes.types.mapValues (Declared.relocate ρ))

theorem declareType_relocation (name : String) (ty : Ty) (loc : Location) :
    (Γ.declareType name ty loc).InStep strict ρ (relocate ρ)
      ((Γ.relocate ρ).declareType name ty (ρ loc)) := by
  have htypes : (Γ.relocate ρ).scopes.types = Γ.scopes.types.mapValues (Declared.relocate ρ) := rfl
  unfold declareType Scopes.declareType
  rw [htypes, NameMap.lookup_mapValues]
  cases Γ.scopes.types.lookup name with
  | some previous => exact .bind .fault fun _ _ => .pure rfl
  | none =>
    refine .pure ?_
    simp [relocate, revise, NameMap.mapValues_insert, Declared.relocate]

end Context

/-! ### Items and programs -/

namespace Source

/-- **One item.**  A relocated item is checked in step with the item. -/
theorem Item.check_relocation (hopt : options'.scalarFields = options.scalarFields) (item : Item) :
    (item.check options Γ).InStep strict ρ
      (Prod.map (Option.map (Typed.Item.relocate ρ)) (Context.relocate ρ))
      ((item.revise (.relocation ρ)).check options' (Γ.relocate ρ)) := by
  have hres : (Revision.relocation ρ).Resolves strict Γ.scopes.types
      (Γ.scopes.types.mapValues (Declared.relocate ρ)) := Revision.relocation_resolves _
  cases hitem : item.typeName? with
  | none =>
    have hkeep := check_inStep hopt (fun _ _ => rfl) hres hitem
    refine hkeep.congr ?_
    have htypes : (item.check options Γ).value.2.scopes.types = Γ.scopes.types := check_types hitem
    simp only [Prod.map, Context.relocate, htypes]
    rfl
  | some typeName =>
    cases item with
    | record name fields loc =>
      exact .bind (Context.recordFields_inStep hres name fields []) fun _ _ =>
        .bind (Context.declareType_relocation name _ loc) fun _ _ => .pure rfl
    | «alias» name type loc =>
      exact .bind (type.resolve_inStep hres loc) fun _ _ =>
        .bind (Context.declareType_relocation name _ loc) fun _ _ => .pure rfl
    | _ => simp [typeName?] at hitem

/-- **A run through items.**  Relocated items are checked in step with the items. -/
theorem checkItems_relocation (hopt : options'.scalarFields = options.scalarFields)
    (items : List Item) (Γ : Context) :
    (checkItems options Γ items).InStep strict ρ
      (Prod.map (List.map (Typed.Item.relocate ρ)) (Context.relocate ρ))
      (checkItems options' (Γ.relocate ρ) (items.map (Item.revise (.relocation ρ)))) := by
  induction items generalizing Γ with
  | nil => exact .pure rfl
  | cons item rest ih =>
    simp only [List.map_cons, checkItems, Item.isReturn_revise, Item.loc_revise, List.isEmpty_map]
    refine .bind .require fun _ _ => .bind (item.check_relocation hopt) fun checked _ =>
      .bind (ih checked.2) fun typed _ => .pure ?_
    obtain ⟨item, Δ⟩ := checked
    cases item <;> rfl

namespace Program

variable {builtins : Builtins} {program : Program} {typeRegions commentRegions : List Span}

/-- The program with every location moved, and with other spans. -/
def relocate (ρ : Location → Location) (typeRegions commentRegions : List Span)
    (program : Program) : Program where
  items := program.items.map (Item.revise (.relocation ρ))
  typeRegions := typeRegions
  commentRegions := commentRegions

/-- **The walk through a program that has items.** -/
theorem walk_relocation (hopt : options'.scalarFields = options.scalarFields)
    (hitems : program.items ≠ []) :
    (program.walk builtins options).InStep strict ρ
      (Prod.map (List.map (Typed.Item.relocate ρ)) (Context.relocate ρ))
      ((program.relocate ρ typeRegions commentRegions).walk builtins options') := by
  obtain ⟨items, types, comments⟩ := program
  cases items with
  | nil => exact absurd rfl hitems
  | cons first rest =>
    have hlast : (rest.map (Item.revise (.relocation ρ))).getLastD (first.revise (.relocation ρ)) =
        (rest.getLastD first).revise (.relocation ρ) := by
      rw [List.getLastD_eq_getLast?, List.getLastD_eq_getLast?, List.getLast?_map]
      cases rest.getLast? <;> rfl
    simp only [walk, relocate, List.map_cons, hlast, Item.isReturn_revise, Item.loc_revise]
    refine .bind (checkItems_relocation hopt (first :: rest) (.start builtins)) fun checked _ => ?_
    have hvar : (checked.2.relocate ρ).module.var.isSome = checked.2.module.var.isSome :=
      Option.isSome_map
    simp only [Prod.map, hvar]
    exact .bind .require fun _ _ => .bind .require fun _ _ => .pure rfl

end Program

end Source

/-- The module with the locations in its program moved. -/
def CheckedModule.relocate (ρ : Location → Location) (checked : CheckedModule) : CheckedModule :=
  { checked with program := ⟨checked.program.items.map (Typed.Item.relocate ρ)⟩ }

/-- The locations of the nodes of a typed program. -/
def Typed.Program.locs (program : Typed.Program) : List Location :=
  program.items.flatMap Typed.Item.locs

theorem Source.Program.assemble_relocate (name : String) (items : List Typed.Item) :
    assemble name (items.map (Typed.Item.relocate ρ)) (Γ.relocate ρ) =
      (assemble name items Γ).relocate ρ := by
  rw [Context.relocate, assemble_revise]
  rfl

/-! ### Diagnostics -/

/-- The end of a message that cites an earlier declaration. -/
def Diagnostic.cited (related : Option Location) : String :=
  (related.map Violation.previousLine).getD ""

/-- The second diagnostic is the first with its locations moved, in another file.  Its message
differs at most in the line that it cites. -/
structure Diagnostic.Relocates (ρ : Location → Location) (filename : String)
    (first second : Diagnostic) : Prop where
  kind : second.kind = first.kind
  location : second.location = ρ first.location
  related : second.related = first.related.map ρ
  filename : second.filename = filename
  message : ∃ text, first.message = text ++ cited first.related ∧
    second.message = text ++ cited second.related

theorem Violation.message_relocate (cause : Violation) :
    ∃ text, cause.message = text ++ Diagnostic.cited cause.related ∧
      (cause.relocate ρ).message = text ++ Diagnostic.cited (cause.relocate ρ).related := by
  cases cause with
  | duplicateToplevel | duplicateType | duplicateModuleField | multipleModuleVariables =>
    exact ⟨_, rfl, rfl⟩
  | _ => exact ⟨_, String.append_empty.symm, String.append_empty.symm⟩

theorem Fault.diagnostic_relocate (filename filename' : String) (fault : Fault) :
    (fault.diagnostic filename).Relocates ρ filename'
      ((fault.relocate ρ).diagnostic filename') := by
  obtain ⟨cause, loc⟩ := fault
  have hkind : (cause.relocate ρ).kind = cause.kind := by cases cause <;> rfl
  have hrelated : (cause.relocate ρ).related = cause.related.map ρ := by cases cause <;> rfl
  exact ⟨hkind, rfl, hrelated, rfl, cause.message_relocate⟩

/-! ### The result -/

namespace Source.Program

variable {builtins : Builtins} {program : Program} {typeRegions commentRegions : List Span}

/-- The walk through the relocated program, as a whole. -/
theorem walk_relocate (hopt : options'.scalarFields = options.scalarFields)
    (hitems : program.items ≠ []) :
    (program.relocate ρ typeRegions commentRegions).walk builtins options' =
      (program.walk builtins options).carry ρ
        (Prod.map (List.map (Typed.Item.relocate ρ)) (Context.relocate ρ)) := by
  have hstep : (program.walk builtins options).InStep True ρ
      (Prod.map (List.map (Typed.Item.relocate ρ)) (Context.relocate ρ))
      ((program.relocate ρ typeRegions commentRegions).walk builtins options') :=
    walk_relocation hopt hitems
  exact hstep (Or.inl trivial)

theorem check_ok_relocate (hopt : options'.scalarFields = options.scalarFields)
    (hitems : program.items ≠ []) {checked : CheckedModule}
    (h : program.check builtins options = .ok checked) :
    (program.relocate ρ typeRegions commentRegions).check builtins options' =
      .ok (checked.relocate ρ) := by
  obtain ⟨items, Γ, name, hwalk, hname, rfl⟩ := walk_yields_of_check h
  have hname' : (Γ.relocate ρ).module.name? = some name := by
    rw [Context.relocate, Context.name?_revise, hname]
  rw [check, walk_relocate hopt hitems]
  simp only [hwalk.value_eq, hwalk.faults_eq, Report.carry, Prod.map, List.map_nil, hname',
    assemble_relocate]

theorem check_error_relocate (hopt : options'.scalarFields = options.scalarFields)
    (hitems : program.items ≠ []) {diagnostics : List Diagnostic}
    (h : program.check builtins options = .error diagnostics) :
    (program.relocate ρ typeRegions commentRegions).check builtins options' =
      .error ((program.walk builtins options).faults.map fun fault =>
        (fault.relocate ρ).diagnostic options'.filename) := by
  have hname : ((program.walk builtins options).value.2.relocate ρ).module.name? =
      (program.walk builtins options).value.2.module.name? := Context.name?_revise
  simp only [check] at h
  rw [check, walk_relocate hopt hitems]
  simp only [Report.carry, Prod.map, hname]
  split at h
  · cases h
  · next hnot =>
    split
    · next name hf hn => exact absurd hn (hnot name (List.map_eq_nil_iff.mp hf))
    · rw [List.map_map]
      rfl

/-! ### No location is invented -/

/-- Fixes the locations of the program and sends every other one there. -/
def retract (program : Program) (loc : Location) : Location :=
  if loc ∈ program.locs then loc else program.locs.headD loc

theorem retract_mem (hitems : program.items ≠ []) (loc : Location) :
    program.retract loc ∈ program.locs := by
  obtain ⟨items, types, comments⟩ := program
  cases items with
  | nil => exact absurd rfl hitems
  | cons first rest =>
    have hfirst : first.loc ∈ Program.locs ⟨first :: rest, types, comments⟩ :=
      List.mem_flatMap.mpr ⟨first, List.mem_cons_self, first.loc_mem_locs⟩
    unfold retract
    split
    · next hloc => exact hloc
    · cases hlocs : Program.locs ⟨first :: rest, types, comments⟩ with
      | nil => rw [hlocs] at hfirst; cases hfirst
      | cons head tail => exact List.mem_cons_self

theorem relocate_retract :
    program.relocate program.retract program.typeRegions program.commentRegions = program := by
  have hfix : ∀ item ∈ program.items, item.revise (.relocation program.retract) = item := by
    intro item hitem
    apply Item.revise_eq_self
    intro loc hloc
    have hmem : loc ∈ program.locs := List.mem_flatMap.mpr ⟨item, hitem, hloc⟩
    rw [retract, if_pos hmem]
  have hitems : program.items.map (Item.revise (.relocation program.retract)) = program.items := by
    rw [List.map_congr_left hfix, List.map_id']
  rw [relocate, hitems]

theorem check_ok_locs (hitems : program.items ≠ []) {checked : CheckedModule}
    (h : program.check builtins options = .ok checked) {loc : Location}
    (hloc : loc ∈ checked.program.locs) : loc ∈ program.locs := by
  have hmoved : (program.relocate program.retract program.typeRegions
      program.commentRegions).check builtins options = .ok (checked.relocate program.retract) :=
    check_ok_relocate rfl hitems h
  -- the program is its own relocation, so the module is as well
  rw [relocate_retract, h, Except.ok.injEq] at hmoved
  have hlocs : checked.program.locs = checked.program.locs.map program.retract := by
    conv_lhs => rw [hmoved]
    exact Typed.flatMap_locs_relocate Typed.Item.locs_relocate checked.program.items
  rw [hlocs] at hloc
  obtain ⟨old, -, rfl⟩ := List.mem_map.mp hloc
  exact retract_mem hitems old

theorem check_error_locs (hitems : program.items ≠ []) {diagnostics : List Diagnostic}
    (h : program.check builtins options = .error diagnostics) {diagnostic : Diagnostic}
    (hd : diagnostic ∈ diagnostics) :
    diagnostic.location ∈ program.locs ∧
      ∀ previous ∈ diagnostic.related, previous ∈ program.locs := by
  have hmoved : (program.relocate program.retract program.typeRegions
      program.commentRegions).check builtins options = _ :=
    check_error_relocate rfl hitems h
  -- the program is its own relocation, so each diagnostic is as well
  rw [relocate_retract, h, check_error h] at hmoved
  have hsame := List.map_inj_left.mp (Except.error.inj hmoved)
  rw [check_error h] at hd
  obtain ⟨fault, hfault, rfl⟩ := List.mem_map.mp hd
  have hrelocates := fault.diagnostic_relocate (ρ := program.retract) options.filename
    options.filename
  rw [← hsame fault hfault] at hrelocates
  refine ⟨hrelocates.location ▸ retract_mem hitems _, fun previous hprevious => ?_⟩
  rw [hrelocates.related] at hprevious
  obtain ⟨old, -, rfl⟩ := Option.map_eq_some_iff.mp hprevious
  exact retract_mem hitems old

/-- **Locations are carried and never looked at.**  Move the locations of a program that has items,
give it other spans, and name another file.  An accepted program is accepted with its typed program
moved, and a refused one is refused with its diagnostics moved, one by one.  All locations in either
result are locations of nodes of the program. -/
theorem check_relocate (builtins : Builtins) (options : Options) (program : Program)
    (hitems : program.items ≠ []) (ρ : Location → Location) (typeRegions commentRegions : List Span)
    (filename : String) :
    (∀ checked, program.check builtins options = .ok checked →
      (program.relocate ρ typeRegions commentRegions).check builtins
          { options with filename := filename } = .ok (checked.relocate ρ) ∧
        ∀ loc ∈ checked.program.locs, loc ∈ program.locs) ∧
    (∀ diagnostics, program.check builtins options = .error diagnostics →
      (∃ moved, (program.relocate ρ typeRegions commentRegions).check builtins
          { options with filename := filename } = .error moved ∧
        List.Forall₂ (Diagnostic.Relocates ρ filename) diagnostics moved) ∧
        ∀ diagnostic ∈ diagnostics, diagnostic.location ∈ program.locs ∧
          ∀ previous ∈ diagnostic.related, previous ∈ program.locs) := by
  have hopt : ({ options with filename := filename } : Options).scalarFields =
      options.scalarFields := rfl
  constructor
  · intro checked h
    exact ⟨check_ok_relocate hopt hitems h, fun _ => check_ok_locs hitems h⟩
  · intro diagnostics h
    refine ⟨⟨_, check_error_relocate hopt hitems h, ?_⟩, fun _ => check_error_locs hitems h⟩
    rw [check_error h]
    induction (program.walk builtins options).faults with
    | nil => exact .nil
    | cons fault rest ih => exact .cons (fault.diagnostic_relocate options.filename filename) ih

/-- A module that declares a toplevel name twice, on lines two and three. -/
def redeclared : Program :=
  let here := Location.nowhere
  .inModule [.var [⟨"x", some .integer, here⟩] [.integer 1 here] here,
    .var [⟨"x", some .string, here⟩] [.string "s" here] here]

/-- Ten lines further down the second declaration cites line twelve instead of line two. -/
theorem redeclared_relocates :
    ∃ diagnostics moved,
      redeclared.check .standard .standard = .error diagnostics ∧
      (redeclared.relocate (·.shiftLines 10) [] []).check .standard ⟨"moved.lua", true⟩ =
        .error moved ∧
      List.Forall₂ (Diagnostic.Relocates (·.shiftLines 10) "moved.lua") diagnostics moved ∧
      diagnostics.map (·.message) =
        ["duplicate toplevel declaration for 'x', previous one at line 2"] ∧
      moved.map (·.message) =
        ["duplicate toplevel declaration for 'x', previous one at line 12"] := by
  have hitems : redeclared.items ≠ [] := by decide
  obtain ⟨diagnostics, h⟩ : ∃ diagnostics,
      redeclared.check .standard .standard = .error diagnostics := ⟨_, rfl⟩
  obtain ⟨⟨moved, hmoved, hall⟩, -⟩ := (check_relocate .standard .standard redeclared hitems
    (·.shiftLines 10) [] [] "moved.lua").2 diagnostics h
  refine ⟨diagnostics, moved, h, hmoved, hall, ?_, ?_⟩
  · cases h
    decide +kernel
  · cases hmoved
    decide +kernel

end Source.Program

end LuaTyping
