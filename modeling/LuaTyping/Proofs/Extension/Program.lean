import LuaTyping.Proofs.Extension.Stmt
import LuaTyping.Proofs.Proper.Item

/-!
# Programs over more builtins

New builtins break no program that is accepted: over a table that extends the one it was written
for, a program is accepted with the very same module (`check_of_extends`).  Every name of an accepted
program stands for something, so a new builtin can only be hidden by it.
-/

namespace LuaTyping

open Report (Keeps)

variable {Γ : Context} {builtins builtins' : Builtins} {options : Options} {loc : Location}

/-! ### Added builtins -/

namespace Builtins

variable {name : String}

theorem Extends.refl : builtins.Extends builtins :=
  fun _ _ h => h

theorem Extends.insert (h : builtins.Extends builtins') (hn : name ∉ builtins.names)
    (added : Builtin) : builtins.Extends ⟨builtins'.entries.insert name added⟩ := by
  intro other builtin hb
  have hne : other ≠ name := by
    rintro rfl
    exact hn (List.mem_map.mpr ⟨_, NameMap.mem_of_lookup hb, rfl⟩)
  rw [get?, NameMap.lookup_insert, if_neg hne]
  exact h other builtin hb

/-- A table can be extended by a function under a new name. -/
theorem Extends.withFunction (h : builtins.Extends builtins') (hn : name ∉ builtins.names)
    (ty : Ty) : builtins.Extends (builtins'.withFunction name ty) :=
  h.insert hn (.function ty)

/-- A table can be extended by a library under a new name. -/
theorem Extends.withLibrary (h : builtins.Extends builtins') (hn : name ∉ builtins.names)
    (members : List (String × Ty)) : builtins.Extends (builtins'.withLibrary name members) :=
  h.insert hn (.library (NameMap.ofEntries members))

end Builtins

namespace Context

/-! ### Declarations of items -/

theorem declareField_keeps {field : String} {ty : Ty} :
    (Γ.declareField options field ty loc).Keeps (rebase · builtins)
      ((Γ.rebase builtins).declareField options field ty loc) := by
  have hmodule : (Γ.rebase builtins).module = Γ.module := rfl
  unfold declareField
  rw [hmodule]
  refine .bind .refl fun _ _ => ?_
  cases Γ.module.declareField field ty loc with
  | ok module => exact .pure
  | error previous => exact .of_fault

theorem declareModule_keeps {name : String} {nameLoc : Location} :
    (Γ.declareModule name nameLoc loc).Keeps (rebase · builtins)
      ((Γ.rebase builtins).declareModule name nameLoc loc) := by
  intro Δ h
  obtain ⟨hvar, h⟩ := declareModule_yields h
  have hvar' : (Γ.rebase builtins).module.var = none := hvar
  unfold declareModule
  rw [hvar']
  exact declare_keeps (Γ := { Γ with module := { Γ.module with var := some (name, nameLoc) } }) Δ h

theorem declareType_keeps {name : String} {ty : Ty} :
    (Γ.declareType name ty loc).Keeps (rebase · builtins)
      ((Γ.rebase builtins).declareType name ty loc) := by
  intro Δ h
  obtain ⟨hl, rfl⟩ := declareType_yields h
  have hl' : (Γ.rebase builtins).scopes.types.lookup name = none := hl
  simp only [declareType, Scopes.declareType, hl']
  rfl

theorem isModuleVar_rebase (name : String) :
    (Γ.rebase builtins).isModuleVar name = Γ.isModuleVar name := by
  rw [Bool.eq_iff_iff, isModuleVar_iff_var, isModuleVar_iff_var]
  rfl

theorem declareFunction_keeps {name : Source.FunctionName} {ty : Ty} :
    (declareFunction options Γ name ty loc).Keeps (rebase · builtins)
      (declareFunction options (Γ.rebase builtins) name ty loc) := by
  intro Δ h
  obtain ⟨plain, rfl, h⟩ | ⟨module, field, rfl, hm, h⟩ := declareFunction_yields h
  · exact declare_keeps Δ h
  · rw [declareFunction, if_pos (isModuleVar_rebase module ▸ hm)]
    exact declareField_keeps Δ h

/-! ### Items -/

theorem recordFields_rebase {record : String} : ∀ {decls : List Source.Decl} {known : NameMap Ty},
    (Γ.rebase builtins).recordFields record decls known = Γ.recordFields record decls known
  | [], _ => rfl
  | _ :: _, _ => by simp only [recordFields, Source.Decl.stated_rebase, recordFields_rebase]

theorem declareFields_keeps : ∀ {targets : List ItemTarget} {types : List Ty} {Γ : Context},
    (declareFields options loc targets types Γ).Keeps (rebaseResult builtins)
      (declareFields options loc targets types (Γ.rebase builtins))
  | [], _, _ => .pure
  | .existing _ :: _, _, _ => .bind declareFields_keeps fun _ _ => .pure
  | .newField _ _ :: _, _, _ =>
    .bind declareField_keeps fun _ _ => .bind declareFields_keeps fun _ _ => .pure

section
variable (hext : Γ.scopes.builtins.Extends builtins)
include hext

theorem moduleVar_keeps {decl : Source.Decl} {values : List Source.Expr} :
    (Γ.moduleVar decl values loc).Keeps (rebaseResult builtins)
      ((Γ.rebase builtins).moduleVar decl values loc) := by
  have hinit : (Γ.moduleInit decl.name values loc).Keeps id
      ((Γ.rebase builtins).moduleInit decl.name values loc) := by
    unfold moduleInit
    split
    · exact Source.Expr.check_keeps hext _ _
    · exact .of_fault
  exact .bind hinit fun _ _ => .bind declareModule_keeps fun _ _ => .pure

theorem moduleReturn_keeps {values : List Source.Expr} :
    (Γ.moduleReturn values loc).Keeps id ((Γ.rebase builtins).moduleReturn values loc) :=
  .bind (.mapM fun value _ => Source.Expr.check_keeps hext value _) fun _ _ => .refl

theorem functionBody_keeps {params : List Typed.Decl} {returns : List Ty} {body : Source.Block} :
    (Γ.functionBody params returns body loc).Keeps id
      ((Γ.rebase builtins).functionBody params returns body loc) := by
  refine .bind (declareAll_keeps (Γ := Γ.enterFunction returns)) fun Δ h => ?_
  have hΔ : (Γ.enterFunction returns).SameButVars Δ := sameButVars_of_declareAll h
  exact .bind (Source.Stmt.checkBlock_keeps body (hΔ.scopes.builtins ▸ hext)) fun _ _ => .refl

theorem function_keeps {decl : Source.Function} :
    (function options Γ decl).Keeps (rebaseResult builtins)
      (function options (Γ.rebase builtins) decl) := by
  have hparam : (Γ.rebase builtins).param = Γ.param := by
    funext decl
    rw [param, param, Source.Decl.stated_rebase]
  unfold function
  rw [hparam, TypeExpr.resolveList_rebase]
  refine .bind .refl fun _ _ => .bind .refl fun _ _ => .bind declareFunction_keeps fun Δ h => ?_
  have hΔ : Γ.scopes.SameButVars Δ.scopes := h.value_eq ▸ scopes_declareFunction
  exact .bind (functionBody_keeps (hΔ.builtins ▸ hext)) fun _ _ => .pure

theorem itemTarget_keeps {expr : Source.Expr} :
    (Γ.itemTarget expr).Keeps id ((Γ.rebase builtins).itemTarget expr) := by
  have hfield : (Γ.rebase builtins).moduleField? expr = Γ.moduleField? expr := by
    unfold moduleField?
    split
    · rw [isModuleVar_rebase]
    · rfl
  unfold itemTarget
  rw [hfield]
  split
  · exact .refl
  · exact .bind (target_keeps hext expr) fun _ _ => .refl

theorem itemAssign_keeps {targets values : List Source.Expr} :
    (itemAssign options Γ targets values loc).Keeps (rebaseResult builtins)
      (itemAssign options (Γ.rebase builtins) targets values loc) :=
  .bind (.mapM fun _ _ => itemTarget_keeps hext) fun _ _ =>
    .bind (Source.Expr.checkValues_keeps hext _ values _ 0) fun _ _ => .bind .refl fun _ _ =>
      .bind declareFields_keeps fun _ _ => .pure

end

end Context

namespace Source

/-- **Items yield the same over more builtins.** -/
theorem Item.check_keeps (hext : Γ.scopes.builtins.Extends builtins) (item : Item) :
    (item.check options Γ).Keeps (rebaseResult builtins)
      (item.check options (Γ.rebase builtins)) := by
  unfold Item.check
  split
  · exact .bind (Context.moduleVar_keeps hext) fun _ _ => .pure
  · exact .bind (Context.declareVars_keeps hext) fun _ _ => .pure
  · exact .bind (Context.function_keeps hext) fun _ _ => .pure
  · exact .bind (Context.itemAssign_keeps hext) fun _ _ => .pure
  · rw [Context.recordFields_rebase]
    exact .bind .refl fun _ _ => .bind Context.declareType_keeps fun _ _ => .pure
  · rw [TypeExpr.resolve_rebase]
    exact .bind .refl fun _ _ => .bind Context.declareType_keeps fun _ _ => .pure
  · exact .bind (Context.moduleReturn_keeps hext) fun _ _ => .pure

theorem checkItems_keeps : ∀ {items : List Item} {Γ : Context},
    Γ.scopes.builtins.Extends builtins →
      (checkItems options Γ items).Keeps (rebaseResult builtins)
        (checkItems options (Γ.rebase builtins) items)
  | [], _, _ => .pure
  | item :: _, Γ, hext => by
    refine .bind .refl fun _ _ => .bind (Item.check_keeps hext item) fun result h => ?_
    have hΔ : result.2.scopes.builtins = Γ.scopes.builtins := h.value_eq ▸ Item.check_builtins
    exact .bind (checkItems_keeps (hΔ ▸ hext)) fun _ _ => .pure

namespace Program

/-- **Programs yield the same over more builtins.** -/
theorem walk_keeps (hext : builtins.Extends builtins') (program : Program) :
    (program.walk builtins options).Keeps (rebaseResult builtins')
      (program.walk builtins' options) := by
  unfold walk
  split
  · exact .of_fault
  · have hstart : Context.start builtins' = (Context.start builtins).rebase builtins' := rfl
    rw [hstart]
    exact .bind (checkItems_keeps hext) fun _ _ =>
      .bind .refl fun _ _ => .bind .refl fun _ _ => .pure

/-- **New builtins break no accepted program.** -/
theorem check_of_extends (builtins builtins' : Builtins) (options : Options) (program : Program)
    (checked : CheckedModule) (hext : builtins.Extends builtins')
    (h : program.check builtins options = .ok checked) :
    program.check builtins' options = .ok checked := by
  obtain ⟨items, Γ, name, hw, hname, rfl⟩ := walk_yields_of_check h
  have hw' : program.walk builtins' options = ⟨(items, Γ.rebase builtins'), []⟩ :=
    walk_keeps hext program _ hw
  have hname' : (Γ.rebase builtins').module.name? = some name := hname
  simp only [check, hw', hname']
  rfl

/-- A module with a function `total` and, in it, a parameter `table` and a variable `os`. -/
def totals : Program :=
  let here := Location.nowhere
  let name (text : String) : Expr := .name text here
  let total : Function :=
    ⟨.plain "total", [⟨"table", some (.table [⟨"n", .integer, here⟩] here), here⟩], [.integer],
      [.declare [⟨"os", some .integer, here⟩] [.field (name "table") "n" here] here,
        .ret [.binary (name "os") .add (.field (name "table") "n" here) here] here], here⟩
  let run : Function :=
    ⟨.member "m" "run", [], [.integer],
      [.ret [.call (name "total") [.init [.named "n" (.integer 1 here) here] here] here] here], here⟩
  .inModule [.function total, .function run]

/-- The standard builtins, with new ones that have the names of `totals`. -/
def crowded : Builtins :=
  Builtins.standard.withFunction "total" .unknown
    |>.withLibrary "table" [("n", .string)]
    |>.withLibrary "os" []

theorem totals_of_extends :
    Builtins.standard.Extends crowded ∧
      ∃ checked, totals.check .standard .standard = .ok checked ∧
        totals.check crowded .standard = .ok checked := by
  have hext : Builtins.standard.Extends crowded :=
    ((Builtins.Extends.refl.withFunction (by decide) _).withLibrary (by decide) _).withLibrary
      (by decide) _
  obtain ⟨checked, hc⟩ := accepted_iff.mp
    (by decide +kernel : (totals.check .standard .standard).isOk = true)
  exact ⟨hext, checked, hc, check_of_extends .standard crowded .standard totals checked hext hc⟩

end Program

end Source

end LuaTyping
