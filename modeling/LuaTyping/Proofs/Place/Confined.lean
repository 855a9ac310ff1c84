import LuaTyping.Proofs.Place.Item
import LuaTyping.Proofs.Shape.Program

/-!
# The module value is confined

In an accepted program the module type stands at the declaration of the module variable and at its
initial value, and beyond these only at expressions that are the name of the module variable, alone
or in parentheses (`check_confined`).  It is never part of another type, and no variable, parameter,
field, result or target has it: the value of the module cannot be stored, passed on or replaced.

Confinement is a rule about places.  The context at the end of a run admits it, because one toplevel
name stands for the module variable there and all others do not, so every context before admits it.
-/

namespace LuaTyping

variable {module : String} {Γ Δ : Context} {options : Options}

namespace Typed

/-- The expression is the name of the module variable, in any number of parentheses. -/
inductive Expr.NamesModule (module : String) : Expr → Prop where
  | name (loc : Location) : NamesModule module ⟨.toplevel module, .module [], loc⟩
  | paren {expr : Expr} (loc : Location) (h : NamesModule module expr) :
    NamesModule module ⟨.paren expr, .module [], loc⟩

theorem Expr.NamesModule.ty_eq {expr : Expr} (h : expr.NamesModule module) :
    expr.ty = .module [] := by
  cases h <;> rfl

/-- The module type does not occur at the place, unless the place is a node that names the module
variable; and the module variable is not assigned to. -/
def Place.Confined (module : String) : Place → Prop
  | .node expr => expr.ty.proper false = true ∨ expr.NamesModule module
  | .target assigned => assigned.ty.proper false = true ∧ ∀ ty, assigned ≠ .toplevel module ty
  | place => place.ty.proper false = true

theorem Place.confined_of_proper {place : Place} (h : place.ty.proper false = true)
    (htarget : place.isToplevelTarget = false) : place.Confined module := by
  cases place with
  | node expr => exact Or.inl h
  | target assigned =>
    refine ⟨h, ?_⟩
    rintro ty rfl
    cases htarget
  | result | decl | signature | record => exact h

end Typed

namespace Context

/-! ### One toplevel name is the module variable -/

/-- Confinement is admitted where one toplevel name is reserved for the module variable. -/
theorem Proper.admits_confined (hΓ : Γ.Proper false)
    (h : ∀ name binding, Γ.scopes.toplevel.lookup name = some binding →
      (binding.kind = .module ↔ name = module)) :
    Γ.Admits false (Typed.Place.Confined module) where
  proper := hΓ
  ofProper := fun _ => Typed.Place.confined_of_proper
  paren := by
    intro expr loc hexpr
    rcases hexpr with hp | hm
    · exact Or.inl hp
    · right
      rw [hm.ty_eq]
      exact .paren loc hm
  moduleVar := by
    intro name binding loc hl hk
    right
    rw [(h name binding hl).mp hk]
    exact .name loc
  target := by
    intro name binding hl hk
    refine ⟨hΓ.ty_of_toplevel hl hk, ?_⟩
    rintro ty ⟨⟩
    -- the name would be that of the module variable
    have hmodule : binding.kind = .module := (h _ binding hl).mpr rfl
    rw [hk] at hmodule
    cases hmodule

/-- The module variable is among the toplevel variables. -/
def Registered (Γ : Context) : Prop :=
  ∀ name, Γ.module.name? = some name →
    ∃ binding, Γ.scopes.toplevel.lookup name = some binding ∧ binding.kind = .module

theorem start_registered (builtins : Builtins) : (start builtins).Registered := by
  intro name hname
  cases hname

/-- The name of the module variable is reserved for it. -/
theorem Proper.reserved (hΓ : Γ.Proper false) (hreg : Γ.Registered)
    (hname : Γ.module.name? = some module) (name : String) (binding : Binding)
    (hl : Γ.scopes.toplevel.lookup name = some binding) :
    binding.kind = .module ↔ name = module := by
  constructor
  · intro hk
    have hown := (hΓ.moduleVar_of_toplevel hl hk).2
    rw [hname] at hown
    exact (Option.some.inj hown).symm
  · rintro rfl
    obtain ⟨found, hfound, hk⟩ := hreg name hname
    rw [hfound] at hl
    cases hl
    exact hk

end Context

namespace Source

theorem Item.check_registered (hown : Γ.Owned) (hreg : Γ.Registered) {item : Item}
    {t : Option Typed.Item} (h : (item.check options Γ).Yields (t, Δ)) : Δ.Registered := by
  intro name hname
  obtain ⟨-, ⟨-, hvar⟩ | ⟨-, declared, nameLoc, initLoc, loc, rfl, hvar⟩⟩ :=
    Item.check_owned hown h
  · have hold : Γ.module.name? = some name := by
      rw [ModuleDraft.name?, ← hvar]
      exact hname
    obtain ⟨binding, hl, hk⟩ := hreg name hold
    exact ⟨binding, Item.check_keepsToplevel h name binding hl, hk⟩
  · have hdeclared : declared = name := by
      rw [ModuleDraft.name?, hvar] at hname
      exact Option.some.inj hname
    subst hdeclared
    simp only [Item.check, Context.moduleVar, Report.yields_bind, Report.yields_pure,
      Prod.mk.injEq] at h
    obtain ⟨⟨_, Δ'⟩, ⟨_, -, Δ', hd, -, rfl⟩, -, rfl⟩ := h
    rcases Context.declare_yields (Context.declareModule_yields hd).2 with
      ⟨layer, outer, hin, -⟩ | ⟨-, -, rfl⟩
    · have hnone : Γ.scopes.inner = [] := hown.toplevel
      rw [hnone] at hin
      cases hin
    · exact ⟨⟨.module [], nameLoc, .module⟩, by rw [NameMap.lookup_insert, if_pos rfl], rfl⟩

theorem checkItems_keepsToplevel {items : List Item} {typed : List Typed.Item}
    (h : (checkItems options Γ items).Yields (typed, Δ)) : Γ.KeepsToplevel Δ := by
  have hstep : ∀ {item : Item} {Γ' Δ' : Context} {t : Option Typed.Item},
      Γ.KeepsToplevel Γ' → (item.check options Γ').Yields (t, Δ') → Γ.KeepsToplevel Δ' :=
    fun hΓ' ht => hΓ'.trans (Item.check_keepsToplevel ht)
  exact (checkItems_invariant hstep (.of_eq rfl) h).1

/-! ### Runs -/

/-- At the end of a run the name of the module variable is reserved for it. -/
theorem checkItems_admits {builtins : Builtins} {items : List Item} {typed : List Typed.Item}
    (hb : ∀ ty ∈ builtins.types, ty.proper false = true)
    (h : (checkItems options (.start builtins) items).Yields (typed, Δ))
    (hname : Δ.module.name? = some module) :
    Δ.Admits false (Typed.Place.Confined module) ∧ Δ.Registered := by
  have hstep : ∀ {item : Item} {Γ' Δ' : Context} {t : Option Typed.Item},
      Γ'.Owned ∧ Γ'.Registered ∧ Γ'.Proper false → (item.check options Γ').Yields (t, Δ') →
        Δ'.Owned ∧ Δ'.Registered ∧ Δ'.Proper false := by
    rintro item Γ' Δ' t ⟨hown, hreg, hΓ'⟩ ht
    exact ⟨(Item.check_owned hown ht).1, Item.check_registered hown hreg ht,
      (Item.check_context_proper hΓ' hown.varKind_eq ht).1⟩
  obtain ⟨⟨-, hreg, hΔ⟩, -⟩ := checkItems_invariant hstep ⟨Context.start_owned builtins,
    Context.start_registered builtins, Context.start_proper hb⟩ h
  exact ⟨hΔ.admits_confined (hΔ.reserved hreg hname), hreg⟩

/-- **A run through items**: it declares the module variable at most once, and all places outside of
this declaration are confined. -/
theorem checkItems_confined {items : List Item} {Γ Δ : Context} {typed : List Typed.Item}
    (hown : Γ.Owned) (hΓ : Γ.Proper false) (hΔ : Δ.Admits false (Typed.Place.Confined module))
    (h : (checkItems options Γ items).Yields (typed, Δ)) :
    (Δ.module.var = Γ.module.var ∧
        ∀ place ∈ typed.flatMap Typed.Item.places, place.Confined module) ∨
      Γ.module.var = none ∧ ∃ before name nameLoc initLoc loc after,
        typed = before ++ .moduleDecl name nameLoc initLoc loc :: after ∧
          Δ.module.var = some (name, nameLoc) ∧
            ∀ place ∈ (before ++ after).flatMap Typed.Item.places, place.Confined module := by
  induction items generalizing Γ typed with
  | nil =>
    simp only [checkItems, Report.yields_pure, Prod.mk.injEq] at h
    obtain ⟨rfl, rfl⟩ := h
    exact Or.inl ⟨rfl, by simp⟩
  | cons item rest ih =>
    simp only [checkItems, Report.yields_bind, Report.yields_pure, Prod.mk.injEq] at h
    obtain ⟨_, -, ⟨t, Γ'⟩, ht, ⟨ts, Δ'⟩, hr, rfl, rfl⟩ := h
    obtain ⟨hown', hdecl⟩ := Item.check_owned hown ht
    have hΓ' := (Item.check_context_proper hΓ hown.varKind_eq ht).1
    -- the end of the run admits the rule, so both contexts of the item do
    have hadm' := hΔ.of_toplevel hΓ' (checkItems_keepsToplevel hr)
    have hadm := hadm'.of_toplevel hΓ (Item.check_keepsToplevel ht)
    have hrest := ih hown' hΓ' hr
    rcases hdecl with ⟨hitem, hvar⟩ | ⟨hnone, name, nameLoc, initLoc, loc, rfl, hvar⟩
    · have hplaces : ∀ place ∈ t.toList.flatMap Typed.Item.places, place.Confined module := by
        rw [List.forall_mem_flatMap]
        intro found hfound
        exact Item.check_places hadm hadm' hitem ht found (Option.mem_toList.mp hfound)
      rcases hrest with ⟨hvar', hall⟩ |
        ⟨hnone, before, name, nameLoc, initLoc, loc, after, rfl, hvar', hall⟩
      · refine Or.inl ⟨hvar'.trans hvar, ?_⟩
        rw [List.flatMap_append, List.forall_mem_append]
        exact ⟨hplaces, hall⟩
      · refine Or.inr ⟨hvar ▸ hnone, t.toList ++ before, name, nameLoc, initLoc, loc, after, ?_,
          hvar', ?_⟩
        · rw [List.append_assoc]
        · rw [List.append_assoc, List.flatMap_append, List.forall_mem_append]
          exact ⟨hplaces, hall⟩
    · rcases hrest with ⟨hvar', hall⟩ | ⟨hnone', -⟩
      · rw [Item.check_moduleDecl ht]
        exact Or.inr ⟨hnone, [], name, nameLoc, initLoc, loc, ts, rfl, hvar'.trans hvar, hall⟩
      · rw [hvar] at hnone'
        cases hnone'

namespace Program

/-- **The module value is confined.**  Let no builtin have an unknown type or the module type in its
types.  In an accepted program one item declares the module variable, and the module type occurs
there as the type of the variable and of its initial value.  Outside of this item it is the type of
expressions that name the module variable and occurs nowhere else; among the toplevel names it is
the type of the module variable alone, and in the exports it does not occur. -/
theorem check_confined (builtins : Builtins) (options : Options) (program : Program)
    (checked : CheckedModule) (hb : ∀ ty ∈ builtins.types, ty.proper false = true)
    (h : program.check builtins options = .ok checked) :
    (∃ before nameLoc initLoc loc after,
      checked.program.items =
          before ++ .moduleDecl checked.name nameLoc initLoc loc :: after ∧
        ∀ place ∈ (before ++ after).flatMap Typed.Item.places, place.Confined checked.name) ∧
      (checked.program.items.flatMap Typed.Item.places).map Typed.Place.ty =
        checked.program.types ∧
      (checked.name, .module []) ∈ checked.toplevel ∧
      (∀ entry ∈ checked.toplevel,
        entry.2.proper false = true ∨ entry = (checked.name, .module [])) ∧
      ∀ entry ∈ checked.exports, entry.2.proper false = true := by
  obtain ⟨items, Δ, module, hwalk, hname, rfl⟩ := walk_yields_of_check h
  have hitems := (walk_yields hwalk).1
  obtain ⟨hadm, hreg⟩ := checkItems_admits hb hitems hname
  refine ⟨?_, Typed.Program.map_ty_places _, ?_, ?_, ?_⟩
  · obtain ⟨hvar, -⟩ | ⟨-, before, name, nameLoc, initLoc, loc, after, hdecl, hvar, hall⟩ :=
      checkItems_confined (Context.start_owned builtins) (Context.start_proper hb) hadm hitems
    · -- a program without a module variable is not accepted
      rw [ModuleDraft.name?, hvar] at hname
      cases hname
    · have heq : name = module := by
        rw [ModuleDraft.name?, hvar] at hname
        exact Option.some.inj hname
      subst heq
      exact ⟨before, nameLoc, initLoc, loc, after, hdecl, hall⟩
  · obtain ⟨binding, hl, hk⟩ := hreg module hname
    rw [← (hadm.proper.moduleVar_of_toplevel hl hk).1]
    exact List.mem_map_of_mem (NameMap.mem_of_lookup hl)
  · intro entry hentry
    obtain ⟨⟨name, binding⟩, hmem, rfl⟩ := List.mem_map.mp hentry
    rcases hadm.proper.toplevel _ hmem with ⟨-, hp⟩ | ⟨-, hty, hown⟩
    · exact Or.inl hp
    · right
      rw [hname] at hown
      exact Prod.ext (Option.some.inj hown).symm hty
  · intro entry hentry
    obtain ⟨⟨field, declared⟩, hmem, rfl⟩ := List.mem_map.mp hentry
    exact hadm.proper.fields _ hmem

/-- A module that compares itself with itself, in parentheses, and passes itself on as `any`. -/
def mirror : Program :=
  let here := Location.nowhere
  let self : Expr := .name "m" here
  .inModule [.var [⟨"count", none, here⟩] [.integer 0 here] here,
    .function ⟨.member "m" "same", [⟨"other", some .any, here⟩], [.boolean],
      [.declare [⟨"copy", some .any, here⟩] [.paren self here] here,
        .call (.call (.name "print" here) [self] here) here,
        .assign [.name "count" here] [.binary (.name "count" here) .add (.integer 1 here) here]
          here,
        .ret [.binary (.paren self here) .eq self here] here], here⟩]

theorem mirror_confined :
    (∀ ty ∈ Builtins.standard.types, ty.proper false = true) ∧
      ∃ checked, mirror.check .standard .standard = .ok checked ∧
        (∃ before nameLoc initLoc loc after,
          checked.program.items =
              before ++ .moduleDecl checked.name nameLoc initLoc loc :: after ∧
            ∀ place ∈ (before ++ after).flatMap Typed.Item.places,
              place.Confined checked.name) ∧
          ∀ entry ∈ checked.toplevel,
            entry.2.proper false = true ∨ entry = (checked.name, .module []) := by
  have hbuiltins : ∀ ty ∈ Builtins.standard.types, ty.proper false = true := by decide
  obtain ⟨checked, h⟩ := accepted_iff.mp
    (by decide +kernel : (mirror.check .standard .standard).isOk = true)
  obtain ⟨hplaces, -, -, htoplevel, -⟩ :=
    check_confined .standard .standard mirror checked hbuiltins h
  exact ⟨hbuiltins, checked, h, hplaces, htoplevel⟩

end Program

end Source

end LuaTyping
