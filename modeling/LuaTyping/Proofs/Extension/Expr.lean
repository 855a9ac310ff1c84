import LuaTyping.Checking.Expr
import LuaTyping.Proofs.Proper.Context
import LuaTyping.Proofs.Typing.Inversion

/-!
# Expressions over more builtins

A table of builtins *extends* another if it gives every name of the other the same meaning.  Where a
check finds nothing wrong, each name that it looks up stands for something, and stands for the same
over an extended table.  So the check yields the same value there (`Expr.check_keeps`).

`first.Keeps f second` says that the second check yields `f a` where the first yields `a`.
-/

namespace LuaTyping

/-- The second table gives every name of the first the same meaning. -/
def Builtins.Extends (builtins builtins' : Builtins) : Prop :=
  ∀ name builtin, builtins.get? name = some builtin → builtins'.get? name = some builtin

/-! ### Checks that keep what others yield -/

namespace Report

variable {α β γ δ : Type} {f : α → β}

/-- Where the first check yields a value, the second yields its image. -/
def Keeps (f : α → β) (first : Report α) (second : Report β) : Prop :=
  ∀ a, first.Yields a → second.Yields (f a)

theorem Keeps.refl {report : Report α} : report.Keeps id report :=
  fun _ h => h

theorem Keeps.pure {a : α} : (Pure.pure a : Report α).Keeps f (Pure.pure (f a)) := by
  intro b h
  rw [yields_pure] at h ⊢
  rw [h]

theorem Keeps.bind {g : γ → δ} {first : Report α} {second : Report β} {next : α → Report γ}
    {next' : β → Report δ} (h : first.Keeps f second)
    (hnext : ∀ a, first.Yields a → (next a).Keeps g (next' (f a))) :
    (first >>= next).Keeps g (second >>= next') := by
  intro c hc
  obtain ⟨a, ha, hc⟩ := yields_bind.mp hc
  exact yields_bind.mpr ⟨f a, h a ha, hnext a ha c hc⟩

/-- A fault yields nothing. -/
theorem Keeps.of_fault {cause : Violation} {loc : Location} {next : Unit → Report α}
    {second : Report β} : (Report.fault cause loc >>= next).Keeps f second := by
  intro a h
  simp at h

theorem Keeps.mapM {check check' : γ → Report α} : ∀ {inputs : List γ},
    (∀ input ∈ inputs, (check input).Keeps id (check' input)) →
      (inputs.mapM check).Keeps id (inputs.mapM check')
  | [], _ => .refl
  | _ :: _, h => by
    rw [List.forall_mem_cons] at h
    simp only [List.mapM_cons]
    exact .bind h.1 fun _ _ => .bind (Keeps.mapM h.2) fun _ _ => .refl

end Report

open Report (Keeps)

namespace Context

variable {Γ : Context} {builtins : Builtins}

/-- The context over another table of builtins. -/
def rebase (Γ : Context) (builtins : Builtins) : Context :=
  { Γ with scopes := { Γ.scopes with builtins := builtins } }

/-! ### Names -/

theorem lookup_rebase (hext : Γ.scopes.builtins.Extends builtins) {name : String}
    {resolved : Resolved} (h : Γ.scopes.lookup name = some resolved) :
    (Γ.rebase builtins).scopes.lookup name = some resolved := by
  have hvar : (Γ.rebase builtins).scopes.var? name = Γ.scopes.var? name := rfl
  cases resolved with
  | var binding =>
    rw [Scopes.lookup_eq_var_iff] at h ⊢
    rwa [hvar]
  | builtin ty =>
    rw [Scopes.lookup_eq_builtin_iff] at h ⊢
    exact ⟨hvar.trans h.1, hext _ _ h.2⟩
  | library members =>
    rw [Scopes.lookup_eq_library_iff] at h ⊢
    exact ⟨hvar.trans h.1, hext _ _ h.2⟩

/-- A name that makes an expression stands for something. -/
theorem lookup_isSome_of_nameExpr {name : String} {loc : Location} {t : Typed.Expr}
    (h : (Γ.nameExpr name loc).Yields t) : ∃ resolved, Γ.scopes.lookup name = some resolved := by
  cases hl : Γ.scopes.lookup name with
  | none => simp [nameExpr, hl] at h
  | some resolved => exact ⟨resolved, rfl⟩

theorem nameExpr_keeps (hext : Γ.scopes.builtins.Extends builtins) {name : String}
    {loc : Location} : (Γ.nameExpr name loc).Keeps id ((Γ.rebase builtins).nameExpr name loc) := by
  intro t h
  obtain ⟨resolved, hl⟩ := lookup_isSome_of_nameExpr h
  simp only [nameExpr, hl, lookup_rebase hext hl] at h ⊢
  exact h

theorem library?_rebase_of_some (hext : Γ.scopes.builtins.Extends builtins) {expr : Source.Expr}
    {found : String × NameMap Ty} (h : Γ.library? expr = some found) :
    (Γ.rebase builtins).library? expr = some found := by
  obtain ⟨library, members⟩ := found
  rw [library?_eq_some_iff] at h ⊢
  exact ⟨h.1, lookup_rebase hext h.2⟩

/-- An expression with a value names no library over the new table either. -/
theorem library?_rebase_of_none (hext : Γ.scopes.builtins.Extends builtins) {expr : Source.Expr}
    {demand : Demand} {t : Typed.Expr} (h : Γ.library? expr = none)
    (hc : (expr.check Γ demand).Yields t) : (Γ.rebase builtins).library? expr = none := by
  cases expr with
  | name text loc =>
    simp only [Source.Expr.check, Report.yields_bind] at hc
    obtain ⟨_, hn, -⟩ := hc
    obtain ⟨resolved, hl⟩ := lookup_isSome_of_nameExpr hn
    simp only [library?, Source.Expr.name?, hl, lookup_rebase hext hl] at h ⊢
    exact h
  | _ => rfl

end Context

/-! ### Annotations -/

namespace TypeExpr

mutual

theorem resolve_congr {scopes scopes' : Scopes} (h : scopes'.types = scopes.types) :
    ∀ (type : TypeExpr) (site : Location), type.resolve scopes' site = type.resolve scopes site
  | .nil, _ | .boolean, _ | .integer, _ | .float, _ | .string, _ | .any, _ | .module, _ => by
    simp only [resolve]
  | .name text loc, _ => by simp only [resolve, Scopes.lookupType, h]
  | .array elem loc, _ => by simp only [resolve, resolve_congr h elem]
  | .table fields loc, _ => by simp only [resolve, resolveFields_congr h fields]
  | .function params returns loc, _ => by
    simp only [resolve, resolveList_congr h params, resolveList_congr h returns]

theorem resolveList_congr {scopes scopes' : Scopes} (h : scopes'.types = scopes.types) :
    ∀ (types : List TypeExpr) (site : Location),
      resolveList scopes' types site = resolveList scopes types site
  | [], _ => by simp only [resolveList]
  | type :: rest, _ => by
    simp only [resolveList, resolve_congr h type, resolveList_congr h rest]

theorem resolveFields_congr {scopes scopes' : Scopes} (h : scopes'.types = scopes.types) :
    ∀ (fields : List TypeField) (known : NameMap Ty),
      resolveFields scopes' fields known = resolveFields scopes fields known
  | [], _ => by simp only [resolveFields]
  | ⟨key, type, loc⟩ :: rest, _ => by
    simp only [resolveFields, resolve_congr h type, resolveFields_congr h rest]

end

theorem resolve_rebase (Γ : Context) (builtins : Builtins) (type : TypeExpr) (site : Location) :
    type.resolve (Γ.rebase builtins).scopes site = type.resolve Γ.scopes site :=
  have htypes : (Γ.rebase builtins).scopes.types = Γ.scopes.types := rfl
  resolve_congr htypes type site

theorem resolveList_rebase (Γ : Context) (builtins : Builtins) (types : List TypeExpr)
    (site : Location) :
    resolveList (Γ.rebase builtins).scopes types site = resolveList Γ.scopes types site :=
  have htypes : (Γ.rebase builtins).scopes.types = Γ.scopes.types := rfl
  resolveList_congr htypes types site

end TypeExpr

/-! ### Expressions -/

namespace Source.Expr

variable {Γ : Context} {builtins : Builtins}

mutual

/-- **Expressions yield the same over more builtins.** -/
theorem check_keeps (hext : Γ.scopes.builtins.Extends builtins) :
    ∀ (expr : Source.Expr) (demand : Demand),
      (check Γ expr demand).Keeps id (check (Γ.rebase builtins) expr demand)
  | .nil _, _ | .boolean _ _, _ | .integer _ _, _ | .float _ _, _ | .string _ _, _ => by
    simp only [check]
    exact .refl
  | .init entries loc, .ofType ⟨target, site⟩ => by
    cases target with
    | array elem =>
      simp only [check]
      exact .bind (checkItems_keeps hext elem entries) fun _ _ => .refl
    | table fields | record _ fields =>
      simp only [check]
      exact .bind (checkFields_keeps hext _ fields entries []) fun _ _ => .refl
    | _ =>
      simp only [check]
      exact .refl
  | .init entries loc, .value | .init entries loc, .results => by
    simp only [check]
    exact .of_fault
  | .name text loc, _ => by
    simp only [check]
    exact .bind (Context.nameExpr_keeps hext) fun _ _ => .refl
  | .index object key loc, _ => by
    simp only [check]
    exact .bind (check_keeps hext object .value) fun _ _ => .bind .refl fun _ _ =>
      .bind (check_keeps hext key _) fun _ _ => .refl
  | .field object key loc, demand => by
    simp only [check]
    cases hlib : Γ.library? object with
    | some found =>
      rw [Context.library?_rebase_of_some hext hlib]
      exact .refl
    | none =>
      intro t h
      obtain ⟨typed, ho, -⟩ := Report.yields_bind.mp h
      rw [Context.library?_rebase_of_none hext hlib ho]
      exact Keeps.bind (check_keeps hext object .value) (fun _ _ => .refl) t h
  | .call callee args loc, demand => by
    simp only [check]
    refine .bind (check_keeps hext callee .value) fun typed _ => ?_
    dsimp only [id]
    split
    · exact .bind (checkValues_keeps hext _ args _ 0) fun _ _ => .refl
    · exact .bind .refl fun _ _ => .bind (checkValues_keeps hext _ args _ 0) fun _ _ => .refl
  | .unary op operand loc, _ => by
    simp only [check]
    exact .bind (check_keeps hext operand .value) fun _ _ => .refl
  | .binary left op right loc, _ => by
    simp only [check]
    exact .bind (check_keeps hext left .value) fun _ _ =>
      .bind (check_keeps hext right .value) fun _ _ => .refl
  | .cast expr target loc, _ => by
    simp only [check]
    refine .bind (check_keeps hext expr .value) fun _ _ => ?_
    rw [TypeExpr.resolve_rebase]
    exact .refl
  | .paren expr loc, _ => by
    simp only [check]
    exact .bind (check_keeps hext expr .value) fun _ _ => .refl

theorem checkValues_keeps (hext : Γ.scopes.builtins.Extends builtins) (site : Nat → Site) :
    ∀ (exprs : List Source.Expr) (expected : List (Option Ty)) (position : Nat),
      (checkValues Γ site exprs expected position).Keeps id
        (checkValues (Γ.rebase builtins) site exprs expected position)
  | [], _, _ => by
    simp only [checkValues]
    exact .refl
  | expr :: rest, expected, position => by
    rw [checkValues, checkValues]
    split
    · exact .bind (check_keeps hext expr .results) fun _ _ => .refl
    · exact .bind (check_keeps hext expr _) fun _ _ =>
        .bind (checkValues_keeps hext site rest _ _) fun _ _ => .refl

theorem checkItems_keeps (hext : Γ.scopes.builtins.Extends builtins) (elem : Ty) :
    ∀ entries : List Entry,
      (checkItems Γ elem entries).Keeps id (checkItems (Γ.rebase builtins) elem entries)
  | [] => by
    simp only [checkItems]
    exact .refl
  | .positional value :: rest => by
    rw [checkItems, checkItems]
    exact .bind (check_keeps hext value _) fun _ _ =>
      .bind (checkItems_keeps hext elem rest) fun _ _ => .refl
  | .named key _ loc :: rest => by
    rw [checkItems]
    exact .of_fault

theorem checkFields_keeps (hext : Γ.scopes.builtins.Extends builtins) (target : Ty)
    (fields : List (String × Ty)) : ∀ (entries : List Entry) (seen : List String),
      (checkFields Γ target fields entries seen).Keeps id
        (checkFields (Γ.rebase builtins) target fields entries seen)
  | [], _ => by
    simp only [checkFields]
    exact .refl
  | .positional value :: rest, _ => by
    rw [checkFields]
    exact .of_fault
  | .named key value loc :: rest, seen => by
    rw [checkFields, checkFields]
    split
    · exact .of_fault
    · split
      · exact .bind (check_keeps hext value _) fun _ _ =>
          .bind (checkFields_keeps hext target fields rest _) fun _ _ => .refl
      · exact .of_fault

end

end Source.Expr

end LuaTyping
