import LuaTyping.Proofs.Shape.Program
import LuaTyping.Proofs.Summary.Stmt

/-!
# The summary of a checked module

A checked module lists its toplevel names and the fields that it exports.  Both lists agree with the
typed program.  The toplevel names are those of the variables and functions, in order; the exported
fields are those that member functions and assignments give to the module, each at its first place.
All references to module fields, in function bodies too, are to exported fields with their types
(`check_summary`).

The lists are accumulated in the context while the program is checked.  `Context.Adds` says what a
step adds to them, and the steps of a run add up (`Adds.trans`).  An exported field is a function or,
where they are allowed, a scalar; only a builtin of an unknown type can make a field of an unknown
type (`unknown_builtin_exported`).
-/

namespace LuaTyping

variable {Γ Δ Θ : Context} {options : Options} {loc : Location}

/-! ### Toplevel names and fields of typed items -/

namespace Typed

/-- The toplevel names that an item declares, with their types. -/
def Item.toplevels : Item → List (String × Ty)
  | .var decls _ _ => decls.map fun decl => (decl.name, decl.ty)
  | .function ⟨.plain name, _, ty, _, _⟩ => [(name, ty)]
  | _ => []

/-- The module field that a target assigns to, with its type. -/
def Target.field? : Target → Option (String × Ty)
  | .moduleField _ key ty => some (key, ty)
  | _ => none

/-- The module fields that an item gives a value to, with their types. -/
def Item.fields : Item → List (String × Ty)
  | .function ⟨.member _ field, _, ty, _, _⟩ => [(field, ty)]
  | .assign targets _ _ => targets.filterMap Target.field?
  | _ => []

/-- A field that an item gives a value to is one that it refers to. -/
theorem Item.ref_of_fields {item : Item} {entry : String × Ty} (h : entry ∈ item.fields) :
    ∃ ref ∈ item.refs, (ref.field, ref.ty) = entry := by
  unfold fields at h
  split at h
  · rw [List.mem_singleton] at h
    exact ⟨_, List.mem_append_left _ List.mem_cons_self, h.symm⟩
  · obtain ⟨target, ht, hfield⟩ := List.mem_filterMap.mp h
    unfold Target.field? at hfield
    split at hfield
    · cases hfield
      refine ⟨_, List.mem_append_left _ (List.mem_flatMap.mpr ⟨_, ht, List.mem_cons_self⟩), rfl⟩
    · cases hfield
  · cases h

end Typed

/-! ### Drafts that grow -/

/-- The second draft has the module variable and the fields of the first. -/
structure ModuleDraft.Grows (draft draft' : ModuleDraft) : Prop where
  name : ∀ module, draft.name? = some module → draft'.name? = some module
  fields : ∀ field declared, draft.fields.lookup field = some declared →
    draft'.fields.lookup field = some declared

namespace ModuleDraft

variable {draft draft' draft'' : ModuleDraft}

theorem Grows.refl : draft.Grows draft :=
  ⟨fun _ h => h, fun _ _ h => h⟩

theorem Grows.trans (h : draft.Grows draft') (h' : draft'.Grows draft'') : draft.Grows draft'' :=
  ⟨fun _ hn => h'.name _ (h.name _ hn), fun _ _ hf => h'.fields _ _ (h.fields _ _ hf)⟩

/-- What is declared stays declared. -/
theorem Declares.mono {ref : Typed.FieldRef} (h : draft.Declares ref) (hgrow : draft.Grows draft') :
    draft'.Declares ref := by
  obtain ⟨hname, loc, hfield⟩ := h
  exact ⟨hgrow.name _ hname, loc, hgrow.fields _ _ hfield⟩

end ModuleDraft

/-! ### What the steps of a run add -/

namespace Context

/-- The second context has the given toplevel names and module fields in addition to those of the
first.  An entry for a field that the module has already adds nothing. -/
structure Adds (options : Options) (Γ Δ : Context) (toplevels fields : List (String × Ty)) :
    Prop where
  toplevel : Δ.scopes.toplevel.mapValues (·.ty) = Γ.scopes.toplevel.mapValues (·.ty) ++ toplevels
  nodup : Γ.scopes.toplevel.keys.Nodup → Δ.scopes.toplevel.keys.Nodup
  grows : Γ.module.Grows Δ.module
  exports : ∀ entries, Γ.module.exports = NameMap.firsts entries →
    Δ.module.exports = NameMap.firsts (entries ++ fields)
  allowed : (∀ entry ∈ Γ.module.exports, entry.2.isModuleField options.scalarFields = true) →
    ∀ entry ∈ Δ.module.exports, entry.2.isModuleField options.scalarFields = true

namespace Adds

variable {toplevels toplevels' fields fields' : List (String × Ty)}

theorem refl : Adds options Γ Γ [] [] where
  toplevel := (List.append_nil _).symm
  nodup := id
  grows := .refl
  exports := fun entries h => by rw [h, List.append_nil]
  allowed := id

theorem trans (h : Adds options Γ Δ toplevels fields) (h' : Adds options Δ Θ toplevels' fields') :
    Adds options Γ Θ (toplevels ++ toplevels') (fields ++ fields') where
  toplevel := by rw [h'.toplevel, h.toplevel, List.append_assoc]
  nodup := h'.nodup ∘ h.nodup
  grows := h.grows.trans h'.grows
  exports := fun entries hentries => by
    rw [h'.exports _ (h.exports entries hentries), List.append_assoc]
  allowed := h'.allowed ∘ h.allowed

/-- A field that the module has already. -/
theorem old {field : String} {ty : Ty} {declared : Declared}
    (h : Γ.module.fields.lookup field = some declared) : Adds options Γ Γ [] [(field, ty)] where
  toplevel := (List.append_nil _).symm
  nodup := id
  grows := .refl
  exports := fun entries hentries => by
    have hmem : field ∈ Γ.module.exports.keys := by
      by_contra hnot
      rw [← NameMap.lookup_eq_none_iff, ModuleDraft.exports, NameMap.lookup_mapValues, h] at hnot
      cases hnot
    rw [hentries, NameMap.mem_keys_firsts] at hmem
    rw [NameMap.firsts_concat, if_pos hmem, hentries]
  allowed := id

end Adds

theorem declareField_adds {field : String} {ty : Ty}
    (h : (Γ.declareField options field ty loc).Yields Δ) : Adds options Γ Δ [] [(field, ty)] := by
  obtain ⟨hty, hl, rfl⟩ := declareField_yields h
  have hnew : field ∉ Γ.module.exports.keys := by
    rw [← NameMap.lookup_eq_none_iff, ModuleDraft.exports, NameMap.lookup_mapValues, hl]
    rfl
  have hexports : (Γ.module.fields.insert field ⟨ty, loc⟩).mapValues (·.ty) =
      Γ.module.exports ++ [(field, ty)] := by
    rw [NameMap.insert_eq_append hl, NameMap.mapValues, List.map_append]
    rfl
  refine ⟨(List.append_nil _).symm, id, ⟨fun _ h => h, fun other declared hother => ?_⟩,
    fun entries hentries => ?_, fun hall => ?_⟩
  · rw [NameMap.lookup_insert, if_neg (by rintro rfl; simp [hl] at hother)]
    exact hother
  · rw [hentries, NameMap.mem_keys_firsts] at hnew
    rw [NameMap.firsts_concat, if_neg hnew, ← hentries]
    exact hexports
  · intro entry hmem
    rw [ModuleDraft.exports, hexports] at hmem
    rcases List.mem_append.mp hmem with hmem | hmem
    · exact hall entry hmem
    · rw [List.mem_singleton] at hmem
      rw [hmem]
      exact hty

/-- A declaration at the toplevel. -/
theorem declare_adds (hΓ : Γ.scopes.inner = []) {name : String} {binding : Binding}
    (h : (Γ.declare name binding).Yields Δ) : Adds options Γ Δ [(name, binding.ty)] [] := by
  obtain ⟨_, _, hin, -⟩ | ⟨-, hl, rfl⟩ := declare_yields h
  · rw [hΓ] at hin
    cases hin
  · refine ⟨?_, NameMap.nodup_keys_insert, .refl, fun entries hentries => ?_, id⟩
    · rw [NameMap.insert_eq_append hl, NameMap.mapValues, List.map_append]
      rfl
    · rw [List.append_nil]
      exact hentries

theorem declareAll_adds {kind : VarKind} (hk : kind ≠ .module) : ∀ {decls : List Typed.Decl}
    {Γ Δ : Context}, Γ.Owned → (declareAll kind decls Γ).Yields Δ →
      Adds options Γ Δ (decls.map fun decl => (decl.name, decl.ty)) []
  | [], Γ, Δ, _, h => by
    rw [declareAll, Report.yields_pure] at h
    rw [h]
    exact .refl
  | decl :: rest, Γ, Δ, hΓ, h => by
    simp only [declareAll, Report.yields_bind] at h
    obtain ⟨Γ', hd, hr⟩ := h
    exact (declare_adds hΓ.toplevel hd).trans (declareAll_adds hk (hΓ.declare hk hd).1 hr)

theorem declareModule_adds (hΓ : Γ.Owned) {name : String} {nameLoc : Location}
    (h : (Γ.declareModule name nameLoc loc).Yields Δ) :
    Adds options Γ Δ [(name, .module [])] [] := by
  obtain ⟨hvar, h⟩ := declareModule_yields h
  have hadds : Adds options { Γ with module := { Γ.module with var := some (name, nameLoc) } } Δ
      [(name, .module [])] [] := declare_adds (by exact hΓ.toplevel) h
  refine ⟨hadds.toplevel, hadds.nodup, ⟨fun module hname => ?_, hadds.grows.fields⟩, hadds.exports,
    hadds.allowed⟩
  simp [ModuleDraft.name?, hvar] at hname

theorem declareType_adds {name : String} {ty : Ty} (h : (Γ.declareType name ty loc).Yields Δ) :
    Adds options Γ Δ [] [] := by
  obtain ⟨-, rfl⟩ := declareType_yields h
  have hrefl : Adds options Γ Γ [] [] := .refl
  exact ⟨hrefl.toplevel, id, .refl, hrefl.exports, id⟩

/-- The name of a function is a toplevel name or a field, and the function refers to it then. -/
theorem declareFunction_adds (hΓ : Γ.Owned) (decl : Typed.Function)
    (h : (declareFunction options Γ decl.name decl.ty loc).Yields Δ) :
    Adds options Γ Δ (Typed.Item.function decl).toplevels (Typed.Item.function decl).fields ∧
      ∀ ref ∈ Typed.nameRefs decl.name decl.ty, Δ.module.Declares ref := by
  obtain ⟨name, params, ty, body, site⟩ := decl
  obtain ⟨plain, rfl, h⟩ | ⟨module, field, rfl, hm, h⟩ := declareFunction_yields h
  · exact ⟨declare_adds hΓ.toplevel h, by simp [Typed.nameRefs]⟩
  · have hadds : Adds options Γ Δ [] [(field, ty)] := declareField_adds h
    refine ⟨hadds, ?_⟩
    simp only [Typed.nameRefs, List.forall_mem_singleton]
    refine ⟨hadds.grows.name _ (hΓ.name_of_isModuleVar hm), loc, ?_⟩
    obtain ⟨-, -, rfl⟩ := declareField_yields h
    simp [NameMap.lookup_insert]

/-- The targets of an assignment at the toplevel.  Those that exist refer to declared fields, and the
others declare their fields. -/
theorem declareFields_adds : ∀ {targets : List ItemTarget} {types : List Ty} {Γ Δ : Context}
    {typed : List Typed.Target},
      (∀ target, .existing (some target) ∈ targets → ∀ ref ∈ target.refs, Γ.module.Declares ref) →
        (∀ module field, .newField module field ∈ targets → Γ.module.name? = some module) →
          (declareFields options loc targets types Γ).Yields (typed, Δ) →
            Adds options Γ Δ [] (typed.filterMap Typed.Target.field?) ∧
              ∀ ref ∈ typed.flatMap Typed.Target.refs, Δ.module.Declares ref
  | [], types, Γ, Δ, typed, _, _, h => by
    simp only [declareFields, Report.yields_pure, Prod.mk.injEq] at h
    obtain ⟨rfl, rfl⟩ := h
    exact ⟨.refl, by simp⟩
  | .existing none :: rest, types, Γ, Δ, typed, ho, hn, h => by
    simp only [declareFields, Report.yields_bind, Report.yields_pure, Prod.mk.injEq] at h
    obtain ⟨⟨typed', Δ'⟩, hr, rfl, rfl⟩ := h
    exact declareFields_adds (fun target hmem => ho target (List.mem_cons_of_mem _ hmem))
      (fun module field hmem => hn module field (List.mem_cons_of_mem _ hmem)) hr
  | .existing (some target) :: rest, types, Γ, Δ, typed, ho, hn, h => by
    simp only [declareFields, Report.yields_bind, Report.yields_pure, Prod.mk.injEq] at h
    obtain ⟨⟨typed', Δ'⟩, hr, rfl, rfl⟩ := h
    obtain ⟨hadds, hrefs⟩ := declareFields_adds
      (fun target hmem => ho target (List.mem_cons_of_mem _ hmem))
      (fun module field hmem => hn module field (List.mem_cons_of_mem _ hmem)) hr
    have htarget := ho target List.mem_cons_self
    rw [Option.toList_some, List.singleton_append, List.flatMap_cons, List.forall_mem_append]
    refine ⟨?_, fun ref hmem => (htarget ref hmem).mono hadds.grows, hrefs⟩
    cases target with
    | moduleField module key ty =>
      obtain ⟨-, _, hl⟩ := htarget ⟨module, key, ty⟩ List.mem_cons_self
      exact (Adds.old hl).trans hadds
    | _ => exact hadds
  | .newField module field :: rest, types, Γ, Δ, typed, ho, hn, h => by
    simp only [declareFields, Report.yields_bind, Report.yields_pure, Prod.mk.injEq] at h
    obtain ⟨Γ', hd, ⟨typed', Δ'⟩, hr, rfl, rfl⟩ := h
    have hfirst : Adds options Γ Γ' [] _ := declareField_adds hd
    obtain ⟨hadds, hrefs⟩ := declareFields_adds
      (fun target hmem ref href =>
        (ho target (List.mem_cons_of_mem _ hmem) ref href).mono hfirst.grows)
      (fun module field hmem =>
        hfirst.grows.name _ (hn module field (List.mem_cons_of_mem _ hmem))) hr
    refine ⟨hfirst.trans hadds, ?_⟩
    rw [List.flatMap_cons, List.forall_mem_append]
    refine ⟨?_, hrefs⟩
    simp only [Typed.Target.refs, List.forall_mem_singleton]
    have hdeclared : Γ'.module.Declares ⟨module, field, types.headD .unknown⟩ := by
      refine ⟨hfirst.grows.name _ (hn module field List.mem_cons_self), loc, ?_⟩
      obtain ⟨-, -, rfl⟩ := declareField_yields hd
      simp [NameMap.lookup_insert]
    exact hdeclared.mono hadds.grows

/-! ### Items -/

theorem functionBody_refs (hΓ : Γ.module.Named) {params : List Typed.Decl} {returns : List Ty}
    {body : Source.Block} {typed : Typed.Block}
    (h : (Γ.functionBody params returns body loc).Yields typed) :
    ∀ ref ∈ Typed.Stmt.listRefs typed, Γ.module.Declares ref := by
  simp only [functionBody, Report.yields_bind, Report.yields_pure] at h
  obtain ⟨Γ', hd, ⟨typed', _⟩, hb, _, -, rfl⟩ := h
  have hmodule : Γ'.module = Γ.module := (sameButVars_of_declareAll hd).module
  rw [← hmodule] at hΓ ⊢
  exact Source.Stmt.checkBlock_refs hΓ hb

theorem function_adds (hΓ : Γ.Owned) {decl : Source.Function} {item : Typed.Item}
    (h : (function options Γ decl).Yields (item, Δ)) :
    Adds options Γ Δ item.toplevels item.fields ∧ ∀ ref ∈ item.refs, Δ.module.Declares ref := by
  simp only [function, Report.yields_bind, Report.yields_pure, Prod.mk.injEq] at h
  obtain ⟨params, -, returns, -, Δ', hd, body, hb, rfl, rfl⟩ := h
  have hΔ := (hΓ.declareFunction hd).1
  obtain ⟨hadds, hname⟩ := declareFunction_adds hΓ
    ⟨decl.name, params, .function (params.map (·.ty)) returns, body, decl.loc⟩ hd
  refine ⟨hadds, ?_⟩
  rw [Typed.Item.refs, List.forall_mem_append]
  exact ⟨hname, functionBody_refs hΔ.fields hb⟩

theorem itemAssign_adds (hΓ : Γ.Owned) {targets values : List Source.Expr} {item : Typed.Item}
    (h : (itemAssign options Γ targets values loc).Yields (item, Δ)) :
    Adds options Γ Δ item.toplevels item.fields ∧ ∀ ref ∈ item.refs, Δ.module.Declares ref := by
  simp only [itemAssign, Report.yields_bind, Report.yields_pure, Prod.mk.injEq] at h
  obtain ⟨found, hf, list, hv, _, -, ⟨typed, Δ'⟩, hd, rfl, rfl⟩ := h
  have hold : ∀ target, .existing (some target) ∈ found →
      ∀ ref ∈ target.refs, Γ.module.Declares ref := by
    intro target hmem
    obtain ⟨expr, ht⟩ := Report.exists_yields_of_mem_mapM hf _ hmem
    obtain ⟨_, _, -, -, heq⟩ | ⟨_, ht, heq⟩ := itemTarget_yields ht
    · cases heq
    · cases heq
      exact target_refs hΓ.fields ht
  obtain ⟨hadds, hrefs⟩ := declareFields_adds hold (hΓ.newFields hf) hd
  refine ⟨hadds, ?_⟩
  rw [Typed.Item.refs, List.forall_mem_append]
  exact ⟨hrefs, fun ref hmem =>
    (Source.Expr.checkValues_refs hΓ.fields hv ref hmem).mono hadds.grows⟩

theorem moduleVar_adds (hΓ : Γ.Owned) {decl : Source.Decl} {values : List Source.Expr}
    {item : Typed.Item} (h : (Γ.moduleVar decl values loc).Yields (item, Δ)) :
    Adds options Γ Δ item.toplevels item.fields ∧ ∀ ref ∈ item.refs, Δ.module.Declares ref := by
  simp only [moduleVar, Report.yields_bind, Report.yields_pure, Prod.mk.injEq] at h
  obtain ⟨value, hv, Δ', hd, rfl, rfl⟩ := h
  have hadds : Adds options Γ Δ [(decl.name, .module [])] [] := declareModule_adds hΓ hd
  obtain ⟨initLoc, rfl⟩ := moduleInit_yields hv
  refine ⟨hadds, fun ref hmem => ?_⟩
  simp only [Typed.Item.refs, Typed.Expr.listRefs, List.append_nil] at hmem
  exact (Source.Expr.check_refs hΓ.fields hv ref hmem).mono hadds.grows

theorem moduleReturn_refs (hΓ : Γ.module.Named) {values : List Source.Expr}
    {item : Option Typed.Item} (h : (Γ.moduleReturn values loc).Yields item) :
    ∃ value, item = some (.ret value loc) ∧ ∀ ref ∈ value.refs, Γ.module.Declares ref := by
  simp only [moduleReturn, Report.yields_bind] at h
  obtain ⟨typed, ht, h⟩ := h
  split at h
  · next value =>
    simp only [Report.yields_bind, Report.yields_pure] at h
    obtain ⟨_, -, rfl⟩ := h
    obtain ⟨_, hc⟩ := Report.exists_yields_of_mem_mapM ht _ List.mem_cons_self
    exact ⟨value, rfl, Source.Expr.check_refs hΓ hc⟩
  · simp at h

end Context

namespace Source

/-- **What an item adds**, and that the references in it are declared behind it. -/
theorem Item.check_adds (hΓ : Γ.Owned) {item : Item} {t : Option Typed.Item}
    (h : (item.check options Γ).Yields (t, Δ)) :
    Context.Adds options Γ Δ (t.toList.flatMap Typed.Item.toplevels)
        (t.toList.flatMap Typed.Item.fields) ∧
      ∀ ref ∈ t.toList.flatMap Typed.Item.refs, Δ.module.Declares ref := by
  have hsome : ∀ {typed : Typed.Item} {Δ : Context},
      Context.Adds options Γ Δ typed.toplevels typed.fields ∧
          (∀ ref ∈ typed.refs, Δ.module.Declares ref) →
        Context.Adds options Γ Δ ((some typed).toList.flatMap Typed.Item.toplevels)
            ((some typed).toList.flatMap Typed.Item.fields) ∧
          ∀ ref ∈ (some typed).toList.flatMap Typed.Item.refs, Δ.module.Declares ref := by
    intro typed Δ hadds
    simpa only [Option.toList_some, List.flatMap_singleton] using hadds
  unfold Item.check at h
  split at h <;> simp only [Report.yields_bind, Report.yields_pure, Prod.mk.injEq] at h
  · obtain ⟨⟨_, Δ'⟩, hm, rfl, rfl⟩ := h
    exact hsome (Context.moduleVar_adds hΓ hm)
  · obtain ⟨⟨⟨decls, values⟩, Δ'⟩, hd, rfl, rfl⟩ := h
    have hrefs := Context.declareVars_refs hΓ.fields hd
    simp only [Context.declareVars, Report.yields_bind, Report.yields_pure, Prod.mk.injEq] at hd
    obtain ⟨_, -, _, -, _, -, Δ', hd, ⟨rfl, rfl⟩, rfl⟩ := hd
    have hk : Γ.varKind ≠ .module := by simp [hΓ.varKind_eq]
    have hadds : Context.Adds options Γ Δ _ [] := Context.declareAll_adds hk hΓ hd
    exact hsome ⟨hadds, fun ref hmem => (hrefs ref hmem).mono hadds.grows⟩
  · obtain ⟨⟨_, Δ'⟩, hf, rfl, rfl⟩ := h
    exact hsome (Context.function_adds hΓ hf)
  · obtain ⟨⟨_, Δ'⟩, ha, rfl, rfl⟩ := h
    exact hsome (Context.itemAssign_adds hΓ ha)
  · obtain ⟨_, -, Δ', hd, rfl, rfl⟩ := h
    exact hsome ⟨Context.declareType_adds hd, by simp [Typed.Item.refs]⟩
  · obtain ⟨_, -, Δ', hd, rfl, rfl⟩ := h
    exact ⟨Context.declareType_adds hd, by simp⟩
  · obtain ⟨_, hr, rfl, rfl⟩ := h
    obtain ⟨value, rfl, hrefs⟩ := Context.moduleReturn_refs hΓ.fields hr
    exact hsome ⟨.refl, hrefs⟩

/-- **What the items of a run add**, and that the references in them are declared at its end. -/
theorem checkItems_adds : ∀ {items : List Item} {Γ Δ : Context} {typed : List Typed.Item},
    Γ.Owned → (checkItems options Γ items).Yields (typed, Δ) →
      Context.Adds options Γ Δ (typed.flatMap Typed.Item.toplevels)
          (typed.flatMap Typed.Item.fields) ∧
        ∀ ref ∈ typed.flatMap Typed.Item.refs, Δ.module.Declares ref
  | [], Γ, Δ, typed, _, h => by
    simp only [checkItems, Report.yields_pure, Prod.mk.injEq] at h
    obtain ⟨rfl, rfl⟩ := h
    exact ⟨.refl, by simp⟩
  | item :: rest, Γ, Δ, typed, hΓ, h => by
    simp only [checkItems, Report.yields_bind, Report.yields_pure, Prod.mk.injEq] at h
    obtain ⟨_, -, ⟨t, Γ'⟩, ht, ⟨ts, Δ'⟩, hr, rfl, rfl⟩ := h
    obtain ⟨hfirst, hrefs⟩ := Item.check_adds hΓ ht
    obtain ⟨hrest, hrefs'⟩ := checkItems_adds (Item.check_owned hΓ ht).1 hr
    simp only [List.flatMap_append, List.forall_mem_append]
    exact ⟨hfirst.trans hrest, fun ref hmem => (hrefs ref hmem).mono hrest.grows, hrefs'⟩

end Source

/-- Where no builtin has an unknown type, no field has one. -/
theorem Source.exports_proper {builtins : Builtins} {items : List Source.Item}
    {typed : List Typed.Item} (hb : Known builtins.types)
    (h : (Source.checkItems options (.start builtins) items).Yields (typed, Δ)) :
    ∀ entry ∈ Δ.module.exports, entry.2.proper true = true := by
  obtain ⟨⟨hΔ, -⟩, -⟩ := checkItems_proper hb h
  intro entry hmem
  obtain ⟨declared, hd, rfl⟩ := List.mem_map.mp hmem
  exact hΔ.fields declared hd

/-! ### Programs -/

/-- The types of exported fields: functions, and scalars where they are allowed. -/
def Ty.Exported (scalars : Bool) (ty : Ty) : Prop :=
  (∃ params returns, ty = .function params returns) ∨
    scalars = true ∧ (ty = .boolean ∨ ty = .integer ∨ ty = .float ∨ ty = .string)

theorem Ty.exported_of_isModuleField {scalars : Bool} {ty : Ty}
    (h : ty.isModuleField scalars = true) : ty = .unknown ∨ ty.Exported scalars := by
  cases ty <;> simp_all [isModuleField, Exported]

namespace Source.Program

/-- **The summary of a checked module** agrees with its typed program. -/
theorem check_summary (builtins : Builtins) (options : Options) (program : Program)
    (checked : CheckedModule) (h : program.check builtins options = .ok checked) :
    checked.toplevel = checked.program.items.flatMap Typed.Item.toplevels ∧
    checked.toplevel.keys.Nodup ∧
    checked.exports = NameMap.firsts (checked.program.items.flatMap Typed.Item.fields) ∧
    (∀ entry ∈ checked.program.items.flatMap Typed.Item.fields,
      checked.exports.lookup entry.1 = some entry.2) ∧
    (∀ entry ∈ checked.exports, entry.2 = .unknown ∨ entry.2.Exported options.scalarFields) ∧
    (Known builtins.types →
      ∀ entry ∈ checked.exports, entry.2.Exported options.scalarFields) ∧
    ∀ ref ∈ checked.program.refs,
      ref.module = checked.name ∧ checked.exports.lookup ref.field = some ref.ty := by
  obtain ⟨items, Γ, name, hw, hname, rfl⟩ := walk_yields_of_check h
  have hitems := (walk_yields hw).1
  obtain ⟨hadds, hrefs⟩ := checkItems_adds (Context.start_owned builtins) hitems
  have hfields := hadds.allowed (by simp [ModuleDraft.exports, Context.start, NameMap.mapValues])
  have hdeclared : ∀ ref ∈ items.flatMap Typed.Item.refs,
      ref.module = name ∧ Γ.module.exports.lookup ref.field = some ref.ty := by
    intro ref hmem
    obtain ⟨hmodule, loc, hl⟩ := hrefs ref hmem
    rw [hname] at hmodule
    exact ⟨(Option.some.inj hmodule).symm, by
      rw [ModuleDraft.exports, NameMap.lookup_mapValues, hl]
      rfl⟩
  refine ⟨hadds.toplevel, ?_, hadds.exports [] rfl, fun entry hmem => ?_,
    fun entry hmem => Ty.exported_of_isModuleField (hfields entry hmem), fun hknown entry hmem => ?_,
    hdeclared⟩
  · have hnodup := hadds.nodup List.nodup_nil
    rwa [← NameMap.keys_mapValues (·.ty)] at hnodup
  · obtain ⟨item, hitem, hentry⟩ := List.mem_flatMap.mp hmem
    obtain ⟨ref, href, rfl⟩ := Typed.Item.ref_of_fields hentry
    exact (hdeclared ref (List.mem_flatMap.mpr ⟨item, hitem, href⟩)).2
  · refine (Ty.exported_of_isModuleField (hfields entry hmem)).resolve_left fun hunknown => ?_
    have hproper := exports_proper hknown hitems entry hmem
    rw [hunknown] at hproper
    cases hproper

/-- A module with a function, with scalar fields that are assigned to again in parentheses, and with
references to its fields at the toplevel and in a function. -/
def counts : Program :=
  let here := Location.nowhere
  let name (text : String) : Expr := .name text here
  let field (text : String) : Expr := .field (name "m") text here
  let step : Function :=
    ⟨.plain "step", [⟨"by", some .integer, here⟩], [.integer],
      [.assign [field "count"] [.binary (field "count") .add (name "by") here] here,
        .ret [.call (field "reset") [.integer 1 here] here] here], here⟩
  let reset : Function :=
    ⟨.member "m" "reset", [⟨"to", some .integer, here⟩], [.integer], [.ret [name "to"] here], here⟩
  .inModule [.assign [field "count", field "label"] [.integer 0 here, .string "n" here] here,
    .function reset,
    .var [⟨"start", none, here⟩] [field "count"] here,
    .function step,
    .assign [.field (.paren (name "m") here) "count" here, field "step"] [name "start", name "step"]
      here]

theorem counts_summary :
    ∃ checked, counts.check .standard .standard = .ok checked ∧
      (checked.program.items.flatMap Typed.Item.fields).map Prod.fst =
          ["count", "label", "reset", "count", "step"] ∧
        checked.exports = NameMap.firsts (checked.program.items.flatMap Typed.Item.fields) ∧
          checked.program.refs.map (·.field) =
              ["count", "label", "reset", "count", "count", "count", "reset", "count", "step"] ∧
            ∀ ref ∈ checked.program.refs,
              ref.module = checked.name ∧ checked.exports.lookup ref.field = some ref.ty := by
  obtain ⟨checked, hc⟩ := accepted_iff.mp
    (by decide +kernel : (counts.check .standard .standard).isOk = true)
  have hnames : (counts.check .standard .standard).toOption.map (fun checked =>
      ((checked.program.items.flatMap Typed.Item.fields).map Prod.fst,
        checked.program.refs.map (·.field))) =
      some (["count", "label", "reset", "count", "step"],
        ["count", "label", "reset", "count", "count", "count", "reset", "count", "step"]) := by
    decide +kernel
  rw [hc, Except.toOption, Option.map_some, Option.some.injEq, Prod.mk.injEq] at hnames
  obtain ⟨-, -, hexports, -, -, -, hrefs⟩ := check_summary .standard .standard counts checked hc
  exact ⟨checked, hc, hnames.1, hexports, hnames.2, hrefs⟩

/-- Exports a builtin. -/
def exportsBuiltin : Program :=
  let here := Location.nowhere
  .inModule [.assign [.field (.name "m" here) "x" here] [.name "u" here] here]

/-- A builtin of an unknown type can be exported, and the field has an unknown type then. -/
theorem unknown_builtin_exported :
    ∃ checked, exportsBuiltin.check (Builtins.empty.withFunction "u" .unknown) .standard =
        .ok checked ∧
      ∃ entry ∈ checked.exports, ¬entry.2.Exported Options.standard.scalarFields := by
  refine ⟨_, rfl, _, List.mem_cons_self, fun hexported => ?_⟩
  rcases hexported with ⟨_, _, heq⟩ | ⟨-, heq | heq | heq | heq⟩ <;> cases heq

end Source.Program

end LuaTyping
