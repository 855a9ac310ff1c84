import LuaTyping.Proofs.Alias.Unfold
import LuaTyping.Proofs.Proper.Item
import LuaTyping.Proofs.Relocation.Locations
import LuaTyping.Proofs.Revision.Item
import Mathlib.Data.List.Nodup

/-!
# Programs without aliases

Type aliases are transparent: an accepted program stays accepted, with the same module, when its
aliases are unfolded in all annotations and their declarations are left out (`check_inlined`).

The two runs have different type names in sight.  The program resolves an alias when it is declared,
with the types declared so far; the annotations of the other program are resolved later, and only
records are declared there.  The runs are in step because type names are only ever added: what a
name once resolved to it resolves to ever after (`Unfolds`).
-/

namespace LuaTyping

open Report (InStep)

variable {options : Options}

section

variable {types types' : NameMap Declared} {aliases : List (String × TypeExpr)}

/-! ### Annotations under more type names -/

namespace TypeExpr

variable {scopes scopes' : Scopes} {type : TypeExpr} {site : Location} {ty : Ty}

/-- What a type expression resolves to does not depend on where it stands. -/
theorem resolve_site (h : (type.resolve scopes site).Yields ty) (site' : Location) :
    (type.resolve scopes site').Yields ty := by
  cases type with
  | module => simp [resolve] at h
  | _ =>
    simp only [resolve] at h ⊢
    exact h

theorem isModule_of_resolve (h : (type.resolve scopes site).Yields ty) : type.isModule = false := by
  cases type with
  | module => simp [resolve] at h
  | _ => rfl

/-- A type expression keeps its meaning when type names are added. -/
theorem resolve_of_grows (hgrow : ∀ text declared, scopes.types.lookup text = some declared →
      scopes'.types.lookup text = some declared)
    (h : (type.resolve scopes site).Yields ty) : (type.resolve scopes' site).Yields ty := by
  have hres : (Revision.relocation id).Resolves False scopes.types scopes'.types := by
    intro first second hfirst hsecond text loc site
    refine .of_yields fun ty hty => ?_
    simp only [Revision.relocation, resolve, Report.yields_orUnknown, Scopes.lookupType] at hty ⊢
    rw [hfirst] at hty
    obtain ⟨declared, hdeclared, rfl⟩ := Option.map_eq_some_iff.mp hty
    rw [hsecond, hgrow text declared hdeclared]
    rfl
  have hself : type.revise (.relocation id) = type := revise_eq_self type fun _ _ => rfl
  have hstep := (type.resolve_inStep hres site).yields h
  rwa [hself] at hstep

end TypeExpr

/-! ### Two maps of type names -/

/-- In the second type names, where no alias is declared, what a name is unfolded to resolves to the
type of the name in the first. -/
structure Unfolds (aliases : List (String × TypeExpr)) (types types' : NameMap Declared) : Prop where
  resolves : ∀ {scopes : Scopes}, scopes.types = types' → ∀ {text : String} {declared : Declared},
    types.lookup text = some declared → ∀ loc site,
      ((unfolded aliases text loc).resolve scopes site).Yields declared.ty
  declared : ∀ name ∈ types'.keys, name ∈ types.keys

namespace Unfolds

theorem start : Unfolds aliases [] [] where
  resolves := fun _ _ _ h => by cases h
  declared := fun _ h => h

/-- Unfolded annotations resolve in step. -/
theorem inStep (hU : Unfolds aliases types types') :
    (Revision.unfolding aliases).Resolves False types types' := by
  intro scopes scopes' hfirst hsecond text loc site
  refine .of_yields fun ty hty => ?_
  simp only [TypeExpr.resolve, Report.yields_orUnknown, Scopes.lookupType, hfirst] at hty
  obtain ⟨declared, hdeclared, rfl⟩ := Option.map_eq_some_iff.mp hty
  exact hU.resolves hsecond hdeclared loc site

theorem lookup_eq_none (hU : Unfolds aliases types types') {name : String}
    (hnew : types.lookup name = none) : types'.lookup name = none := by
  rw [NameMap.lookup_eq_none_iff] at hnew ⊢
  exact fun hmem => hnew (hU.declared name hmem)

/-- A record is declared in both. -/
theorem record (hU : Unfolds aliases types types') {name : String} (hnew : types.lookup name = none)
    (hname : name ∉ aliases.map Prod.fst) (declared : Declared) :
    Unfolds aliases (types.insert name declared) (types'.insert name declared) where
  resolves := by
    intro scopes hscopes text found hfound loc site
    rw [NameMap.lookup_insert] at hfound
    split at hfound
    · next heq =>
      cases hfound
      rw [heq, unfolded_of_not_mem hname]
      simp [TypeExpr.resolve, Scopes.lookupType, hscopes, NameMap.lookup_insert]
    · have hold : ((unfolded aliases text loc).resolve { scopes with types := types' } site).Yields
          found.ty := hU.resolves rfl hfound loc site
      refine TypeExpr.resolve_of_grows (fun text old hold => ?_) hold
      rw [hscopes, NameMap.lookup_insert, if_neg]
      · exact hold
      · rintro rfl
        rw [hU.lookup_eq_none hnew] at hold
        cases hold
  declared := by
    intro text htext
    rw [NameMap.mem_keys_insert] at htext ⊢
    exact htext.imp (hU.declared text) id

/-- An alias is declared in the first alone. -/
theorem addAlias {scopes : Scopes} (hU : Unfolds aliases scopes.types types') {name : String}
    {type : TypeExpr} {ty : Ty} {loc : Location} (ho : Ordered aliases)
    (hmem : (name, type) ∈ aliases) (hty : (type.resolve scopes loc).Yields ty) :
    Unfolds aliases (scopes.types.insert name ⟨ty, loc⟩) types' where
  resolves := by
    intro found hfound text declared hdeclared here site
    rw [NameMap.lookup_insert] at hdeclared
    split at hdeclared
    · next heq =>
      cases hdeclared
      rw [heq, unfolded_of_mem ho hmem]
      have hres := hU.inStep
      rw [← hfound] at hres
      exact TypeExpr.resolve_site ((type.resolve_inStep hres loc).yields hty) site
    · exact hU.resolves hfound hdeclared here site
  declared := by
    intro text htext
    rw [NameMap.mem_keys_insert]
    exact Or.inl (hU.declared text htext)

end Unfolds

/-! ### The type names that items declare -/

namespace Source

/-- The alias that an item declares, with what it stands for. -/
def Item.alias? : Item → Option (String × TypeExpr)
  | .alias name type _ => some (name, type)
  | _ => none

theorem Item.typeName?_of_alias? {item : Item} {entry : String × TypeExpr}
    (h : item.alias? = some entry) : item.typeName? = some entry.1 := by
  cases item <;> cases h
  rfl

/-- An item adds the type name that it declares, if any, to those before, and it has to be new. -/
theorem Item.check_typeName {item : Item} {Γ Δ : Context} {t : Option Typed.Item}
    (h : (item.check options Γ).Yields (t, Δ)) :
    Δ.scopes.types.keys = Γ.scopes.types.keys ++ item.typeName?.toList ∧
      ∀ name ∈ item.typeName?, name ∉ Γ.scopes.types.keys := by
  have hdeclare : ∀ {name : String} {ty : Ty} {loc : Location},
      (Γ.declareType name ty loc).Yields Δ →
        Δ.scopes.types.keys = Γ.scopes.types.keys ++ [name] ∧ name ∉ Γ.scopes.types.keys := by
    intro name ty loc hd
    obtain ⟨hnew, rfl⟩ := Context.declareType_yields hd
    rw [NameMap.lookup_eq_none_iff] at hnew
    exact ⟨by rw [NameMap.keys_insert, if_neg hnew], hnew⟩
  have hsame : item.typeName? = none → Δ.scopes.types.keys = Γ.scopes.types.keys := by
    intro hitem
    have htypes : (item.check options Γ).value.2.scopes.types = Γ.scopes.types := check_types hitem
    rw [h.value_eq] at htypes
    rw [htypes]
  cases item with
  | record name fields loc =>
    simp only [check, Report.yields_bind, Report.yields_pure, Prod.mk.injEq] at h
    obtain ⟨_, -, _, hd, -, rfl⟩ := h
    simpa [typeName?] using hdeclare hd
  | «alias» name type loc =>
    simp only [check, Report.yields_bind, Report.yields_pure, Prod.mk.injEq] at h
    obtain ⟨_, -, _, hd, -, rfl⟩ := h
    simpa [typeName?] using hdeclare hd
  | _ => simpa [typeName?] using hsame rfl

/-- **Type names along a run**: each is new, and none is declared twice. -/
theorem checkItems_typeNames {items : List Item} {Γ Δ : Context} {typed : List Typed.Item}
    (h : (checkItems options Γ items).Yields (typed, Δ)) :
    (∀ name ∈ items.filterMap Item.typeName?, name ∉ Γ.scopes.types.keys) ∧
      (items.filterMap Item.typeName?).Nodup := by
  induction items generalizing Γ typed with
  | nil => simp
  | cons item rest ih =>
    simp only [checkItems, Report.yields_bind, Report.yields_pure, Prod.mk.injEq] at h
    obtain ⟨_, -, ⟨t, Γ'⟩, ht, ⟨_, _⟩, hr, -, rfl⟩ := h
    obtain ⟨hkeys, hnew⟩ := Item.check_typeName ht
    obtain ⟨hrest, hnodup⟩ := ih hr
    rw [hkeys] at hrest
    cases hname : item.typeName? with
    | none =>
      rw [List.filterMap_cons_none hname]
      simp only [hname, Option.toList_none, List.append_nil] at hrest
      exact ⟨hrest, hnodup⟩
    | some name =>
      rw [List.filterMap_cons_some hname, List.forall_mem_cons, List.nodup_cons]
      simp only [hname, Option.toList_some, List.mem_append, List.mem_singleton, not_or] at hrest
      exact ⟨⟨hnew name hname, fun other hother => (hrest other hother).1⟩,
        fun hmem => (hrest name hmem).2 rfl, hnodup⟩

/-- **Aliases along a run** are in order, behind those that come before. -/
theorem checkItems_ordered {items : List Item} {Γ Δ : Context} {typed : List Typed.Item}
    {earlier : List (String × TypeExpr)} (h : (checkItems options Γ items).Yields (typed, Δ))
    (ho : Ordered earlier) (hearlier : ∀ entry ∈ earlier,
      entry.1 ∈ Γ.scopes.types.keys ∧ ∀ name ∈ entry.2.names, name ∈ Γ.scopes.types.keys) :
    Ordered ((items.filterMap Item.alias?).reverse ++ earlier) := by
  induction items generalizing Γ typed earlier with
  | nil => exact ho
  | cons item rest ih =>
    simp only [checkItems, Report.yields_bind, Report.yields_pure, Prod.mk.injEq] at h
    obtain ⟨_, -, ⟨t, Γ'⟩, ht, ⟨_, _⟩, hr, -, rfl⟩ := h
    obtain ⟨hkeys, hnew⟩ := Item.check_typeName ht
    have hgrow : ∀ name ∈ Γ.scopes.types.keys, name ∈ Γ'.scopes.types.keys := by
      intro name hname
      rw [hkeys]
      exact List.mem_append_left _ hname
    have hold : ∀ entry ∈ earlier,
        entry.1 ∈ Γ'.scopes.types.keys ∧ ∀ name ∈ entry.2.names, name ∈ Γ'.scopes.types.keys :=
      fun entry hentry => ⟨hgrow _ (hearlier entry hentry).1,
        fun name hname => hgrow _ ((hearlier entry hentry).2 name hname)⟩
    cases item with
    | «alias» name type loc =>
      have hfresh : name ∉ Γ.scopes.types.keys := hnew name rfl
      have hdeclared : name ∈ Γ'.scopes.types.keys := by
        rw [hkeys]
        exact List.mem_append_right _ List.mem_cons_self
      simp only [Item.check, Report.yields_bind] at ht
      obtain ⟨ty, hty, -⟩ := ht
      have hnames := TypeExpr.names_declared hty
      have hunused : ∀ entry ∈ (name, type) :: earlier, name ∉ entry.2.names := by
        rw [List.forall_mem_cons]
        exact ⟨fun hmem => hfresh (hnames name hmem),
          fun entry hentry hmem => hfresh ((hearlier entry hentry).2 name hmem)⟩
      have hlatest : name ∉ earlier.map Prod.fst := by
        rintro hmem
        obtain ⟨entry, hentry, rfl⟩ := List.mem_map.mp hmem
        exact hfresh (hearlier entry hentry).1
      have ho' : Ordered ((name, type) :: earlier) :=
        ⟨hlatest, TypeExpr.isModule_of_resolve hty, hunused, ho⟩
      have hall := ih hr ho' (List.forall_mem_cons.mpr
        ⟨⟨hdeclared, fun text htext => hgrow _ (hnames text htext)⟩, hold⟩)
      simpa [Item.alias?] using hall
    | _ => exact ih hr ho hold

/-! ### Unfolded items -/

/-- An item that is no alias, with the aliases in it unfolded. -/
theorem Item.check_unfolded (ho : Ordered aliases) {item : Item} (halias : item.alias? = none)
    (hname : ∀ name ∈ item.typeName?, name ∉ aliases.map Prod.fst) {Γ Δ : Context}
    {t : Option Typed.Item} (hU : Unfolds aliases Γ.scopes.types types')
    (h : (item.check options Γ).Yields (t, Δ)) :
    ∃ names, Unfolds aliases Δ.scopes.types names ∧
      ((item.revise (.unfolding aliases)).check options (Γ.revise id types')).Yields
        (t, Δ.revise id names) := by
  cases hitem : item.typeName? with
  | none =>
    have htypes : (item.check options Γ).value.2.scopes.types = Γ.scopes.types := check_types hitem
    rw [h.value_eq] at htypes
    refine ⟨types', htypes ▸ hU, ?_⟩
    have hopt : options.scalarFields = options.scalarFields := rfl
    have hstep := (check_inStep hopt (unfolded_isModule ho) hU.inStep hitem).yields h
    have hsame : t.map (Typed.Item.relocate id) = t := by cases t <;> simp
    simp only [Revision.unfolding, Prod.map, hsame] at hstep
    exact hstep
  | some typeName =>
    cases item with
    | record name fields loc =>
      simp only [check, Report.yields_bind, Report.yields_pure, Prod.mk.injEq] at h
      obtain ⟨found, hfields, _, hd, rfl, rfl⟩ := h
      obtain ⟨hnew, rfl⟩ := Context.declareType_yields hd
      refine ⟨_, hU.record hnew (hname _ rfl) _, ?_⟩
      have hfound := (Context.recordFields_inStep hU.inStep name fields []).yields hfields
      simp only [revise, check, Report.yields_bind, Report.yields_pure]
      refine ⟨found, hfound, _, ?_, rfl⟩
      have hnew' : (Γ.revise id types').scopes.types.lookup name = none :=
        hU.lookup_eq_none hnew
      unfold Context.declareType Scopes.declareType
      rw [hnew', Report.yields_pure]
      rfl
    | «alias» name type loc => cases halias
    | _ => cases hitem

/-- The items that are no aliases, with the aliases in them unfolded. -/
def inlineItems (aliases : List (String × TypeExpr)) (items : List Item) : List Item :=
  (items.filter fun item => item.alias?.isNone).map (Item.revise (.unfolding aliases))

/-- **A run through items whose aliases are unfolded.** -/
theorem checkItems_inlined (ho : Ordered aliases) {items : List Item} {Γ Δ : Context}
    {typed : List Typed.Item} (hitems : ∀ item ∈ items,
      (∀ entry, item.alias? = some entry → entry ∈ aliases) ∧
        (item.alias? = none → ∀ name ∈ item.typeName?, name ∉ aliases.map Prod.fst))
    (hU : Unfolds aliases Γ.scopes.types types')
    (h : (checkItems options Γ items).Yields (typed, Δ)) :
    ∃ names, (checkItems options (Γ.revise id types') (inlineItems aliases items)).Yields
      (typed, Δ.revise id names) := by
  induction items generalizing Γ typed types' with
  | nil =>
    simp only [checkItems, Report.yields_pure, Prod.mk.injEq] at h
    obtain ⟨rfl, rfl⟩ := h
    exact ⟨types', rfl⟩
  | cons item rest ih =>
    simp only [checkItems, Report.yields_bind, Report.yields_require, Report.yields_pure,
      Prod.mk.injEq] at h
    obtain ⟨_, hret, ⟨t, Γ'⟩, ht, ⟨_, _⟩, hr, rfl, rfl⟩ := h
    rw [List.forall_mem_cons] at hitems
    obtain ⟨⟨hmem, hname⟩, hrest⟩ := hitems
    cases halias : item.alias? with
    | some entry =>
      -- the declaration is left out, and only the first run has a type name more
      cases item with
      | «alias» name type loc =>
        cases halias
        simp only [Item.check, Report.yields_bind, Report.yields_pure, Prod.mk.injEq] at ht
        obtain ⟨ty, hty, _, hd, rfl, rfl⟩ := ht
        obtain ⟨-, rfl⟩ := Context.declareType_yields hd
        have hnext := ih hrest (hU.addAlias ho (hmem _ rfl) hty) hr
        exact hnext
      | _ => cases halias
    | none =>
      obtain ⟨names, hU', hstep⟩ := Item.check_unfolded ho halias (hname halias) hU ht
      obtain ⟨final, hfinal⟩ := ih hrest hU' hr
      have hcons : inlineItems aliases (item :: rest) =
          item.revise (.unfolding aliases) :: inlineItems aliases rest := by
        simp [inlineItems, halias]
      have hlast : (!item.isReturn || (inlineItems aliases rest).isEmpty) = true := by
        cases rest with
        | nil => simp [inlineItems]
        | cons next rest =>
          rw [List.isEmpty_cons, Bool.or_false] at hret
          rw [hret, Bool.true_or]
      refine ⟨final, ?_⟩
      simp only [hcons, checkItems, Item.isReturn_revise, Report.yields_bind,
        Report.yields_require, Report.yields_pure]
      exact ⟨(), hlast, _, hstep, _, hfinal, rfl⟩

end Source

end

/-! ### Programs -/

namespace Source.Program

/-- The aliases of a program with what they stand for, the latest first. -/
def aliases (program : Program) : List (String × TypeExpr) :=
  (program.items.filterMap Item.alias?).reverse

/-- What becomes of annotations when the aliases of the program are unfolded. -/
def unfolding (program : Program) : Revision :=
  .unfolding program.aliases

/-- The program without its aliases, which are unfolded in all annotations. -/
def inlined (program : Program) : Program :=
  { program with items := inlineItems program.aliases program.items }

variable {program : Program}

/-- The alias items of a program are its aliases, and no record has the name of one. -/
theorem aliases_of_run {typed : List Typed.Item} {Γ Δ : Context}
    (h : (checkItems options Γ program.items).Yields (typed, Δ)) :
    ∀ item ∈ program.items, (∀ entry, item.alias? = some entry → entry ∈ program.aliases) ∧
      (item.alias? = none → ∀ name ∈ item.typeName?, name ∉ program.aliases.map Prod.fst) := by
  intro item hitem
  constructor
  · intro entry hentry
    exact List.mem_reverse.mpr (List.mem_filterMap.mpr ⟨item, hitem, hentry⟩)
  · intro halias name hname hmem
    obtain ⟨entry, hentry, rfl⟩ := List.mem_map.mp hmem
    obtain ⟨other, hother, hentry⟩ := List.mem_filterMap.mp (List.mem_reverse.mp hentry)
    have hsame : other.typeName? = some entry.1 := Item.typeName?_of_alias? hentry
    have hnodup := (checkItems_typeNames h).2
    -- the name would be declared by two items of the program
    obtain ⟨before, after, hsplit⟩ := List.append_of_mem hitem
    rw [hsplit] at hnodup hother
    have hother' : other ∈ before ++ after := by
      rcases List.mem_append.mp hother with hmem | hmem
      · exact List.mem_append_left _ hmem
      · rcases List.mem_cons.mp hmem with rfl | hmem
        · rw [halias] at hentry
          cases hentry
        · exact List.mem_append_right _ hmem
    rw [List.filterMap_append, List.filterMap_cons_some hname, List.nodup_middle,
      ← List.filterMap_append, List.nodup_cons] at hnodup
    exact hnodup.1 (List.mem_filterMap.mpr ⟨other, hother', hsame⟩)

/-- **Aliases are transparent.**  In an accepted program an alias unfolds to its right-hand side with
all aliases unfolded there, every other name stays, and no alias is left.  The program without its
aliases is accepted with the very same module. -/
theorem check_inlined (builtins : Builtins) (options : Options) (program : Program)
    (checked : CheckedModule) (h : program.check builtins options = .ok checked) :
    (∀ entry ∈ program.aliases, ∀ loc,
        program.unfolding.name entry.1 loc = entry.2.revise program.unfolding) ∧
      (∀ text, text ∉ program.aliases.map Prod.fst → ∀ loc,
        program.unfolding.name text loc = .name text loc) ∧
      (∀ type : TypeExpr, ∀ name ∈ (type.revise program.unfolding).names,
        name ∉ program.aliases.map Prod.fst) ∧
      program.inlined.check builtins options = .ok checked := by
  obtain ⟨typed, Γ, name, hwalk, hname, rfl⟩ := walk_yields_of_check h
  obtain ⟨hitems, -, last, hlast, hret⟩ := walk_yields hwalk
  have ho : Ordered program.aliases := by
    have hordered : Ordered (program.aliases ++ []) :=
      checkItems_ordered hitems trivial (by simp)
    rwa [List.append_nil] at hordered
  refine ⟨fun entry hentry loc => unfolded_of_mem ho hentry loc,
    fun text htext loc => unfolded_of_not_mem htext loc,
    fun type => TypeExpr.names_revise fun text _ loc => names_unfolded ho text loc, ?_⟩
  obtain ⟨names, hinlined⟩ : ∃ names, (checkItems options (.start builtins)
      program.inlined.items).Yields (typed, Γ.revise id names) :=
    checkItems_inlined ho (aliases_of_run hitems) Unfolds.start hitems
  have hlast' : program.inlined.items.getLast? = some (last.revise program.unfolding) := by
    have halias : last.alias?.isNone = true := by cases last <;> first | rfl | cases hret
    obtain ⟨front, hfront⟩ := List.getLast?_eq_some_iff.mp hlast
    simp [inlined, inlineItems, hfront, halias, unfolding]
  have hname' : (Γ.revise id names).module.name? = some name := by
    rw [Context.name?_revise, hname]
  rw [check_of_checkItems hinlined hname' hlast' (by rw [Item.isReturn_revise, hret]),
    assemble_revise]

/-- A record and three aliases, of which two use other aliases, in annotations of all kinds. -/
def paths : Program :=
  let here := Location.nowhere
  let type (text : String) : TypeExpr := .name text here
  let field (object : String) (text : String) : Expr := .field (.name object here) text here
  let first : Function :=
    ⟨.member "m" "first", [⟨"path", some (type "Path"), here⟩], [type "Point"],
      [.declare [⟨"points", some (type "Points"), here⟩] [field "path" "points"] here,
        .ret [.index (.name "points" here) (.integer 1 here) here] here], here⟩
  .inModule [.alias "Coordinate" .integer here,
    .record "Point" [⟨"x", some (type "Coordinate"), here⟩] here,
    .alias "Points" (.array (type "Point") here) here,
    .alias "Path" (.table [⟨"points", type "Points", here⟩, ⟨"at", type "Coordinate", here⟩] here)
      here,
    .function first]

theorem paths_inlined :
    ∃ checked, paths.check .standard .standard = .ok checked ∧
      paths.inlined.check .standard .standard = .ok checked ∧
      paths.aliases.map Prod.fst = ["Path", "Points", "Coordinate"] ∧
      ((TypeExpr.name "Path" .nowhere).revise paths.unfolding).names = ["Point"] ∧
      paths.items.length = 7 ∧ paths.inlined.items.length = 4 := by
  obtain ⟨checked, hc⟩ := accepted_iff.mp
    (by decide +kernel : (paths.check .standard .standard).isOk = true)
  obtain ⟨-, -, -, hinlined⟩ := check_inlined .standard .standard paths checked hc
  exact ⟨checked, hc, hinlined, by decide +kernel⟩

end Source.Program

end LuaTyping
