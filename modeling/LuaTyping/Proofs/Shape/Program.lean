import LuaTyping.Proofs.Known.Types
import LuaTyping.Proofs.Shape.Stmt

/-!
# The shape of accepted programs

An accepted program declares its module variable once, with an empty constructor as its value, ends
with its only `return`, and defines member functions on the module variable alone.  A program that is
refused has something wrong with it.

Two more parts of the shape hold where no builtin has an `unknown` type: the program returns the
module variable, and no other annotation has the `module` type in it (`check_shape`).  A value of an
unknown type can be returned in place of the module, and a table constructor in a place of an unknown
type is not looked at (`unknown_builtins_hide_shape`).
-/

namespace LuaTyping

variable {Γ Δ : Context} {options : Options} {loc : Location}

/-! ### The returned value -/

theorem Typed.Expr.single_kind (expr : Typed.Expr) : expr.single.value.kind = expr.kind := by
  unfold single
  split <;> rfl

theorem Context.fieldExpr_kind_ne (object : Typed.Expr) (field name : String) :
    (Γ.fieldExpr object field loc).value.kind ≠ .toplevel name := by
  unfold fieldExpr
  split <;> exact fun h => by cases h

/-- Only a name is typed as a toplevel variable. -/
theorem Source.Expr.eq_name_of_toplevel {expr : Source.Expr} {t : Typed.Expr} {name : String}
    (h : (check Γ expr .value).Yields t) (hk : t.kind = .toplevel name) :
    ∃ site, expr = .name name site := by
  rw [← h.value_eq] at hk
  cases expr with
  | name text site =>
    simp only [check, Report.yields_bind] at h
    obtain ⟨found, hn, -⟩ := h
    simp only [check, Report.value_bind, Demand.settle, Typed.Expr.single_kind, hn.value_eq] at hk
    rcases Context.nameExpr_yields hn with ⟨_, _, _, rfl⟩ | ⟨_, _, _, _, _, rfl⟩ | ⟨_, _, rfl⟩ <;>
      cases hk
    exact ⟨site, rfl⟩
  | init entries loc => simp [check] at h
  | field object key loc =>
    simp only [check] at hk
    split at hk <;> simp only [Report.value_bind, Demand.settle, Typed.Expr.single_kind] at hk
    · cases hk
    · exact absurd hk (Context.fieldExpr_kind_ne _ _ _)
  | unary op operand loc =>
    simp only [check, Report.value_bind, Demand.settle, Typed.Expr.single_kind,
      Typed.Expr.unary_kind] at hk
    cases hk
  | binary left op right loc =>
    obtain ⟨_, _, hb, -⟩ := Typed.Expr.binary_kind op (check Γ left .value).value
      (check Γ right .value).value loc
    simp only [check, Report.value_bind, Demand.settle, Typed.Expr.single_kind, hb] at hk
    cases hk
  | call callee args loc =>
    simp only [check, Report.value_bind] at hk
    split at hk <;> simp only [Report.value_bind, Demand.settle, Typed.Expr.single_kind] at hk <;>
      cases hk
  | _ =>
    simp only [check, Report.value_bind, Demand.settle, Typed.Expr.single_kind] at hk
    cases hk

namespace Context

/-- A program returns one value. -/
theorem moduleReturn_single {values : List Source.Expr} {item : Option Typed.Item}
    (h : (Γ.moduleReturn values loc).Yields item) : ∃ value, values = [value] := by
  simp only [moduleReturn, Report.yields_bind, Report.yields_mapM] at h
  obtain ⟨typed, ht, h⟩ := h
  split at h
  · obtain ⟨value, _, -, hnil, rfl⟩ := List.forall₂_cons_right_iff.mp ht
    rw [List.forall₂_nil_right_iff] at hnil
    exact ⟨value, by rw [hnil]⟩
  · simp at h

/-- Where no type is unknown, the value is the module variable. -/
theorem moduleReturn_name {modules : Bool} (hΓ : Γ.Proper modules) {value : Source.Expr}
    {item : Option Typed.Item} (h : (Γ.moduleReturn [value] loc).Yields item) :
    ∃ name site, Γ.module.name? = some name ∧ value = .name name site := by
  obtain ⟨_, typed, name, ⟨⟩, hc, hkind, hname, -⟩ := moduleReturn_yields hΓ h
  obtain ⟨site, hexpr⟩ := Source.Expr.eq_name_of_toplevel hc hkind
  exact ⟨name, site, hname, hexpr⟩

end Context

/-! ### Runs through the items -/

namespace Source

/-- What items keep holds in front of every item and behind the last one. -/
theorem checkItems_invariant {P : Context → Prop}
    (hstep : ∀ {item : Item} {Γ Δ : Context} {t : Option Typed.Item}, P Γ →
      (item.check options Γ).Yields (t, Δ) → P Δ) :
    ∀ {items : List Item} {Γ Δ : Context} {typed : List Typed.Item}, P Γ →
      (checkItems options Γ items).Yields (typed, Δ) →
        P Δ ∧ ∀ item ∈ items, ∃ Γ' t Δ', P Γ' ∧ (item.check options Γ').Yields (t, Δ')
  | [], Γ, Δ, typed, hP, h => by
    simp only [checkItems, Report.yields_pure, Prod.mk.injEq] at h
    rw [h.2]
    exact ⟨hP, by simp⟩
  | item :: rest, Γ, Δ, typed, hP, h => by
    simp only [checkItems, Report.yields_bind, Report.yields_pure, Prod.mk.injEq] at h
    obtain ⟨_, -, ⟨t, Γ'⟩, ht, ⟨_, Δ'⟩, hr, -, rfl⟩ := h
    obtain ⟨hΔ, hrest⟩ := checkItems_invariant hstep (hstep hP ht) hr
    rw [List.forall_mem_cons]
    exact ⟨hΔ, ⟨Γ, t, Γ', hP, ht⟩, hrest⟩

/-- Only the last item is a `return`, and it is checked in such a context too. -/
theorem checkItems_last {P : Context → Prop}
    (hstep : ∀ {item : Item} {Γ Δ : Context} {t : Option Typed.Item}, P Γ →
      (item.check options Γ).Yields (t, Δ) → P Δ) {last : Item} :
    ∀ {front : List Item} {Γ Δ : Context} {typed : List Typed.Item}, P Γ →
      (checkItems options Γ (front ++ [last])).Yields (typed, Δ) →
        (∀ item ∈ front, item.isReturn = false) ∧
          ∃ Γ' t, P Γ' ∧ (last.check options Γ').Yields (t, Δ)
  | [], Γ, Δ, typed, hP, h => by
    simp only [List.nil_append, checkItems, Report.yields_bind, Report.yields_pure,
      Prod.mk.injEq] at h
    obtain ⟨_, -, ⟨t, Δ'⟩, ht, ⟨_, _⟩, ⟨-, rfl⟩, -, rfl⟩ := h
    exact ⟨by simp, Γ, t, hP, ht⟩
  | item :: front, Γ, Δ, typed, hP, h => by
    simp only [List.cons_append, checkItems, Report.yields_bind, Report.yields_require,
      Report.yields_pure, Prod.mk.injEq] at h
    obtain ⟨_, hret, ⟨t, Γ'⟩, ht, ⟨_, Δ'⟩, hr, -, rfl⟩ := h
    obtain ⟨hfront, hlast⟩ := checkItems_last hstep (hstep hP ht) hr
    rw [List.forall_mem_cons]
    exact ⟨⟨by simpa using hret, hfront⟩, hlast⟩

/-- **The module variable along a run**: it stays what it was, or one item declares it. -/
theorem checkItems_owned : ∀ {items : List Item} {Γ Δ : Context} {typed : List Typed.Item},
    Γ.Owned → (checkItems options Γ items).Yields (typed, Δ) →
      (Δ.module.var = Γ.module.var ∧ ∀ item ∈ items, item.moduleDecl? = none) ∨
        Γ.module.var = none ∧ ∃ before name nameLoc initLoc loc after,
          items = before ++
              .var [⟨name, some .module, nameLoc⟩] [.init [] initLoc] loc :: after ∧
            Δ.module.var = some (name, nameLoc) ∧
              ∀ item ∈ before ++ after, item.moduleDecl? = none
  | [], Γ, Δ, typed, _, h => by
    simp only [checkItems, Report.yields_pure, Prod.mk.injEq] at h
    exact Or.inl ⟨by rw [h.2], by simp⟩
  | item :: rest, Γ, Δ, typed, hΓ, h => by
    simp only [checkItems, Report.yields_bind, Report.yields_pure, Prod.mk.injEq] at h
    obtain ⟨_, -, ⟨t, Γ'⟩, ht, ⟨_, Δ'⟩, hr, -, rfl⟩ := h
    obtain ⟨hΓ', ⟨hitem, hvar⟩ | ⟨hnone, name, nameLoc, initLoc, loc, rfl, hvar⟩⟩ :=
      Item.check_owned hΓ ht
    · obtain ⟨hvar', hrest⟩ |
          ⟨hnone, before, name, nameLoc, initLoc, loc, after, rfl, hvar', hrest⟩ :=
        checkItems_owned hΓ' hr
      · exact Or.inl ⟨hvar'.trans hvar, List.forall_mem_cons.mpr ⟨hitem, hrest⟩⟩
      · refine Or.inr ⟨hvar ▸ hnone, item :: before, name, nameLoc, initLoc, loc, after, rfl, hvar',
          ?_⟩
        exact List.forall_mem_cons.mpr ⟨hitem, hrest⟩
    · obtain ⟨hvar', hrest⟩ | ⟨hnone', -⟩ := checkItems_owned hΓ' hr
      · exact Or.inr ⟨hnone, [], name, nameLoc, initLoc, loc, rest, rfl, hvar'.trans hvar, hrest⟩
      · rw [hvar] at hnone'
        cases hnone'

/-- A module variable stays the module variable. -/
theorem checkItems_name {items : List Item} {typed : List Typed.Item} {name : String}
    (hΓ : Γ.Owned) (hname : Γ.module.name? = some name)
    (h : (checkItems options Γ items).Yields (typed, Δ)) : Δ.module.name? = some name := by
  obtain ⟨hvar, -⟩ | ⟨hnone, -⟩ := checkItems_owned hΓ h
  · rw [ModuleDraft.name?, hvar]
    exact hname
  · simp [ModuleDraft.name?, hnone] at hname

/-- **Member functions** are members of the module variable. -/
theorem checkItems_members : ∀ {items : List Item} {Γ Δ : Context} {typed : List Typed.Item},
    Γ.Owned → (checkItems options Γ items).Yields (typed, Δ) →
      ∀ decl module field, .function decl ∈ items → decl.name = .member module field →
        Δ.module.name? = some module
  | [], _, _, _, _, _ => by simp
  | item :: rest, Γ, Δ, typed, hΓ, h => by
    simp only [checkItems, Report.yields_bind, Report.yields_pure, Prod.mk.injEq] at h
    obtain ⟨_, -, ⟨t, Γ'⟩, ht, ⟨_, Δ'⟩, hr, -, rfl⟩ := h
    have hΓ' := (Item.check_owned hΓ ht).1
    intro decl module field hmem hname
    rcases List.mem_cons.mp hmem with rfl | hmem
    · simp only [Item.check, Context.function, Report.yields_bind, Report.yields_pure,
        Prod.mk.injEq] at ht
      obtain ⟨_, ⟨_, -, _, -, Γ'', hd, _, -, rfl⟩, -, rfl⟩ := ht
      obtain ⟨-, hvar, hmember⟩ := hΓ.declareFunction hd
      refine checkItems_name hΓ' ?_ hr
      rw [ModuleDraft.name?, hvar]
      exact hmember module field hname
    · exact checkItems_members hΓ' hr decl module field hmem hname

/-- Where no builtin has an unknown type, items are checked in proper contexts. -/
theorem checkItems_proper {builtins : Builtins} {items : List Item} {typed : List Typed.Item}
    (hb : Known builtins.types)
    (h : (checkItems options (.start builtins) items).Yields (typed, Δ)) :
    (Δ.Proper true ∧ Δ.varKind = .toplevel) ∧ ∀ item ∈ items, ∃ Γ' t Δ',
      (Γ'.Proper true ∧ Γ'.varKind = .toplevel) ∧ (item.check options Γ').Yields (t, Δ') :=
  checkItems_invariant (P := fun Γ => Γ.Proper true ∧ Γ.varKind = .toplevel)
    (fun hP ht => Item.check_context_proper hP.1 hP.2 ht) ⟨Context.start_proper hb, rfl⟩ h

/-- Only the declaration of the module variable has the `module` type in an annotation then. -/
theorem checkItems_moduleFree {builtins : Builtins} {items : List Item} {typed : List Typed.Item}
    (hb : Known builtins.types)
    (h : (checkItems options (.start builtins) items).Yields (typed, Δ)) :
    ∀ item ∈ items, item.moduleDecl? = none → ModuleFree item.annotations := by
  intro item hmem hnone
  obtain ⟨Γ, t, Δ, ⟨hΓ, hk⟩, ht⟩ := (checkItems_proper hb h).2 item hmem
  exact Item.check_moduleFree hΓ hk hnone ht

/-- The last item is the only `return`, of one value.  Where no builtin has an unknown type, the
value is the module variable. -/
theorem checkItems_return {builtins : Builtins} {items : List Item} {typed : List Typed.Item}
    {last : Item} (hlast : items.getLast? = some last) (hret : last.isReturn = true)
    (h : (checkItems options (.start builtins) items).Yields (typed, Δ)) :
    ∃ front value loc, items = front ++ [.ret [value] loc] ∧
      (∀ item ∈ front, item.isReturn = false) ∧
        (Known builtins.types → ∃ name site, Δ.module.name? = some name ∧
          value = .name name site) := by
  obtain ⟨front, rfl⟩ : ∃ front, items = front ++ [last] :=
    ⟨_, (List.dropLast_append_getLast? last hlast).symm⟩
  obtain ⟨hfront, Γ, t, hΓ, ht⟩ :=
    checkItems_last (P := fun Γ => Known builtins.types → Γ.Proper true ∧ Γ.varKind = .toplevel)
      (fun hP ht hb => Item.check_context_proper (hP hb).1 (hP hb).2 ht)
      (fun hb => ⟨Context.start_proper hb, rfl⟩) h
  cases last with
  | ret values loc =>
    simp only [Item.check, Report.yields_bind, Report.yields_pure, Prod.mk.injEq] at ht
    obtain ⟨_, hr, -, rfl⟩ := ht
    obtain ⟨value, rfl⟩ := Context.moduleReturn_single hr
    exact ⟨front, value, loc, rfl, hfront, fun hb => Context.moduleReturn_name (hΓ hb).1 hr⟩
  | _ => cases hret

namespace Program

/-! ### Programs -/

/-- A refused program has something wrong with it. -/
theorem check_error_ne_nil {builtins : Builtins} {program : Program}
    {diagnostics : List Diagnostic} (h : program.check builtins options = .error diagnostics) :
    diagnostics ≠ [] := by
  rintro rfl
  have hfaults := List.map_eq_nil_iff.mp (check_error h).symm
  obtain ⟨-, hsome, -⟩ := walk_yields (Report.yields_value hfaults)
  obtain ⟨⟨name, _⟩, hvar⟩ := Option.isSome_iff_exists.mp hsome
  have hname : (program.walk builtins options).value.2.module.name? = some name := by
    rw [ModuleDraft.name?, hvar]
    rfl
  simp only [check, hfaults, hname] at h
  cases h

/-- **The shape of a program.**  A refused program has something wrong with it.  An accepted one
declares the module variable in one item, with an empty constructor; its last item is its only
`return` and returns one value; and its member functions are members of the module variable.  If no
type of a builtin is unknown, it returns the module variable and has the `module` type in no other
annotation. -/
theorem check_shape (builtins : Builtins) (options : Options) (program : Program) :
    (∀ diagnostics, program.check builtins options = .error diagnostics → diagnostics ≠ []) ∧
    ∀ checked, program.check builtins options = .ok checked →
      (∃ before nameLoc initLoc loc after,
        program.items = before ++
            .var [⟨checked.name, some .module, nameLoc⟩] [.init [] initLoc] loc :: after ∧
          (∀ item ∈ before ++ after, item.moduleDecl? = none) ∧
            (Known builtins.types → ∀ item ∈ before ++ after, ModuleFree item.annotations)) ∧
      (∃ front value loc, program.items = front ++ [.ret [value] loc] ∧
        (∀ item ∈ front, item.isReturn = false) ∧
          (Known builtins.types → ∃ site, value = .name checked.name site)) ∧
      ∀ decl module field, .function decl ∈ program.items → decl.name = .member module field →
        module = checked.name := by
  refine ⟨fun diagnostics h => check_error_ne_nil h, fun checked h => ?_⟩
  obtain ⟨typed, Γ, name, hw, hname, rfl⟩ := walk_yields_of_check h
  obtain ⟨hitems, -, last, hlast, hret⟩ := walk_yields hw
  have hstart := Context.start_owned builtins
  refine ⟨?_, ?_, fun decl module field hmem hmember => ?_⟩
  · obtain ⟨hvar, -⟩ | ⟨-, before, name', nameLoc, initLoc, loc, after, heq, hvar, hothers⟩ :=
      checkItems_owned hstart hitems
    · simp [ModuleDraft.name?, hvar, Context.start] at hname
    · obtain rfl : name' = name := by simpa [ModuleDraft.name?, hvar] using hname
      refine ⟨before, nameLoc, initLoc, loc, after, heq, hothers, fun hknown item hmem => ?_⟩
      refine checkItems_moduleFree hknown hitems item ?_ (hothers item hmem)
      rw [heq]
      exact List.mem_append.mpr ((List.mem_append.mp hmem).imp_right (List.mem_cons_of_mem _))
  · obtain ⟨front, value, loc, heq, hfront, hvalue⟩ := checkItems_return hlast hret hitems
    refine ⟨front, value, loc, heq, hfront, fun hknown => ?_⟩
    obtain ⟨name', site, hname', rfl⟩ := hvalue hknown
    rw [hname] at hname'
    cases hname'
    exact ⟨site, rfl⟩
  · have hmodule := checkItems_members hstart hitems decl module field hmem hmember
    rw [hname] at hmodule
    exact (Option.some.inj hmodule).symm

/-- Greets guests. -/
def greeting : Program :=
  let here := Location.nowhere
  .inModule [.record "Guest" [⟨"name", some .string, here⟩] here,
    .function ⟨.member "m" "greet", [⟨"guest", some (.name "Guest" here), here⟩], [.string],
      [.ret [.binary (.string "Hello " here) .concat (.field (.name "guest" here) "name" here) here]
        here], here⟩]

theorem greeting_shape :
    Known Builtins.standard.types ∧
      ∃ checked, greeting.check .standard .standard = .ok checked ∧ "m" = checked.name ∧
        ∃ front site loc, greeting.items = front ++ [.ret [.name checked.name site] loc] ∧
          ∀ item ∈ front, item.isReturn = false := by
  have hknown : Known Builtins.standard.types := by
    unfold Known
    decide
  obtain ⟨checked, hc⟩ := accepted_iff.mp
    (by decide +kernel : (greeting.check .standard .standard).isOk = true)
  obtain ⟨-, ⟨front, value, loc, heq, hfront, hreturned⟩, hmember⟩ :=
    (check_shape .standard .standard greeting).2 checked hc
  obtain ⟨site, rfl⟩ := hreturned hknown
  have hgreet := hmember _ "m" "greet"
    (List.mem_cons_of_mem _ (List.mem_cons_of_mem _ List.mem_cons_self)) rfl
  exact ⟨hknown, checked, hc, hgreet, front, site, loc, heq, hfront⟩

/-- Returns a builtin. -/
def returnsBuiltin : Program :=
  let here := Location.nowhere
  ⟨[.var [⟨"m", some .module, here⟩] [.init [] here] here, .ret [.name "u" here] here], [], []⟩

/-- Calls a builtin with a table constructor, and in it with a cast to the `module` type. -/
def hidesCast : Program :=
  let here := Location.nowhere
  .inModule [.function ⟨.plain "f", [], [],
    [.call (.call (.name "show" here)
      [.init [.positional (.cast (.integer 1 here) .module here)] here] here) here], here⟩]

/-- With builtins of unknown types, an accepted program can return something else than the module
variable, and can have the `module` type in an annotation of its own. -/
theorem unknown_builtins_hide_shape :
    (∃ checked, returnsBuiltin.check (Builtins.empty.withFunction "u" .unknown) .standard =
        .ok checked ∧
      ¬∃ front site loc, returnsBuiltin.items = front ++ [.ret [.name checked.name site] loc]) ∧
    ∃ checked, hidesCast.check (Builtins.empty.withFunction "show" (.function [.unknown] []))
        .standard = .ok checked ∧
      ∃ item ∈ hidesCast.items, item.moduleDecl? = none ∧ ¬ModuleFree item.annotations := by
  refine ⟨⟨_, rfl, ?_⟩, _, rfl, ?_⟩
  · rintro ⟨front, site, loc, heq⟩
    have hlast := congrArg List.getLast? heq
    rw [List.getLast?_append, List.getLast?_singleton] at hlast
    exact absurd hlast (by simp [returnsBuiltin, assemble])
  · refine ⟨_, List.mem_cons_of_mem _ List.mem_cons_self, rfl, fun hfree => ?_⟩
    exact absurd (hfree .module List.mem_cons_self) (by simp [TypeExpr.hasModule])

end Program

end Source

end LuaTyping
