import LuaTyping.Proofs.Shape.Module

/-!
# References to module fields

A typed tree refers to a field of the module where it reads it, where it assigns to it, and where it
defines it as a member function.  Wherever a check of an expression finds nothing wrong, its
references name the module variable and a field that has been declared, with the type of the field
(`Expr.check_refs`).  This needs nothing of the types of the builtins.
-/

namespace LuaTyping

variable {Γ : Context} {loc : Location}

/-! ### The references in a typed program -/

namespace Typed

/-- A reference to a field of a module, with the type that the field has there. -/
structure FieldRef where
  module : String
  field : String
  ty : Ty

mutual

/-- The references in an expression. -/
def Expr.refs : Expr → List FieldRef
  | ⟨kind, ty, _⟩ => kind.refs ty

/-- The references in an expression of the given type. -/
def ExprKind.refs : ExprKind → Ty → List FieldRef
  | .moduleField module field, ty => [⟨module, field, ty⟩]
  | .arrayInit items, _ => Expr.listRefs items
  | .tableInit items, _ => Expr.entryRefs items
  | .index array key, _ => array.refs ++ key.refs
  | .field object _, _ => object.refs
  | .call callee args _, _ => callee.refs ++ Expr.listRefs args
  | .unary _ operand, _ => operand.refs
  | .binary _ left right, _ => left.refs ++ right.refs
  | .cast expr _, _ | .toFloat expr, _ | .paren expr, _ => expr.refs
  | .expand call values, _ => call.refs ++ Expr.listRefs values
  | _, _ => []

/-- The references in the expressions of a list. -/
def Expr.listRefs : List Expr → List FieldRef
  | [] => []
  | expr :: rest => expr.refs ++ Expr.listRefs rest

/-- The references in the values of named entries. -/
def Expr.entryRefs : List (String × Expr) → List FieldRef
  | [] => []
  | (_, expr) :: rest => expr.refs ++ Expr.entryRefs rest

end

/-- The references in a target. -/
def Target.refs : Target → List FieldRef
  | .moduleField module key ty => [⟨module, key, ty⟩]
  | .index array key _ => array.refs ++ key.refs
  | .field object _ _ => object.refs
  | .innerVar .. | .toplevel .. => []

/-- The references in what a loop goes through. -/
def Iteration.refs : Iteration → List FieldRef
  | .ipairs array => array.refs
  | .generic values => Expr.listRefs values

mutual

/-- The references in a statement. -/
def Stmt.refs : Stmt → List FieldRef
  | .declare _ values _ => Expr.listRefs values
  | .assign targets values _ => targets.flatMap Target.refs ++ Expr.listRefs values
  | .call expr _ => expr.refs
  | .block body _ => Stmt.listRefs body
  | .whileDo condition body _ => condition.refs ++ Stmt.listRefs body
  | .repeatUntil body condition _ => Stmt.listRefs body ++ condition.refs
  | .branch condition thenBlock elseBlock _ =>
    condition.refs ++ Stmt.listRefs thenBlock ++ Stmt.listRefs elseBlock
  | .numericFor _ start limit step body _ =>
    start.refs ++ limit.refs ++ step.refs ++ Stmt.listRefs body
  | .genericFor _ iteration body _ => iteration.refs ++ Stmt.listRefs body
  | .ret values _ => Expr.listRefs values
  | .brk _ => []

/-- The references in the statements of a block. -/
def Stmt.listRefs : List Stmt → List FieldRef
  | [] => []
  | stmt :: rest => stmt.refs ++ Stmt.listRefs rest

end

/-- The reference that the name of a function of the given type makes. -/
def nameRefs (name : Source.FunctionName) (ty : Ty) : List FieldRef :=
  match name with
  | .plain _ => []
  | .member module field => [⟨module, field, ty⟩]

/-- The references in an item. -/
def Item.refs : Item → List FieldRef
  | .var _ values _ => Expr.listRefs values
  | .function decl => nameRefs decl.name decl.ty ++ Stmt.listRefs decl.body
  | .assign targets values _ => targets.flatMap Target.refs ++ Expr.listRefs values
  | .record .. => []
  | .ret value _ => value.refs

/-- The references in a program. -/
def Program.refs (program : Program) : List FieldRef :=
  program.items.flatMap Item.refs

end Typed

/-- The reference names the module variable and a field that has been declared with its type. -/
def ModuleDraft.Declares (draft : ModuleDraft) (ref : Typed.FieldRef) : Prop :=
  draft.name? = some ref.module ∧ ∃ loc, draft.fields.lookup ref.field = some ⟨ref.ty, loc⟩

/-! ### Conversions make no references -/

namespace Typed.Expr

theorem refs_eq (expr : Expr) : expr.refs = expr.kind.refs expr.ty := by
  obtain ⟨kind, ty, loc⟩ := expr
  rw [refs]

theorem Floated.refs_eq {expr t : Expr} (h : Floated expr t) : t.refs = expr.refs := by
  rcases h with rfl | ⟨-, rfl⟩
  · rfl
  · simp only [refs, ExprKind.refs]

theorem coerce?_refs {expr t : Expr} {want : Option Want} (h : (expr.coerce? want).Yields t) :
    t.refs = expr.refs := by
  cases want with
  | none =>
    rw [coerce?, Report.yields_pure] at h
    rw [h]
  | some want =>
    rw [coerce?, coerce_yields_iff] at h
    cases h with
    | fits _ => rfl
    | cast _ _ => simp only [refs, ExprKind.refs]

theorem results_refs {want : Nat → Option Want} : ∀ {tys : List Ty} {position : Nat}
    {values : List Expr}, (results loc want position tys).Yields values → listRefs values = []
  | [], _, values, h => by
    rw [results, Report.yields_pure] at h
    rw [h, listRefs]
  | ty :: rest, position, values, h => by
    simp only [results, Report.yields_bind, Report.yields_pure] at h
    obtain ⟨value, hv, values, hvs, rfl⟩ := h
    rw [listRefs, coerce?_refs hv, results_refs hvs]
    simp [refs, ExprKind.refs]

theorem spread_refs {call t : Expr} {want : Nat → Option Want} (h : (call.spread want).Yields t) :
    t.refs = call.refs := by
  simp only [spread, Report.yields_bind, Report.yields_pure] at h
  obtain ⟨values, hr, rfl⟩ := h
  rw [refs, ExprKind.refs, results_refs hr, List.append_nil]

end Typed.Expr

theorem Demand.Settles.refs_eq {demand : Demand} {found t : Typed.Expr}
    (h : demand.Settles found t) : t.refs = found.refs := by
  rcases h.eq_or_cast with rfl | ⟨want, -, rfl⟩
  · rfl
  · simp only [Typed.Expr.refs, Typed.ExprKind.refs]

theorem Values.ofCall_refs {call : Typed.Expr} {expected : List (Option Ty)} {site : Nat → Site}
    {position : Nat} {values : Values}
    (h : (Values.ofCall call expected site position).Yields values) :
    Typed.Expr.listRefs values.exprs = call.refs := by
  unfold Values.ofCall at h
  split at h
  · split_ifs at h
    · simp at h
    · rw [Report.yields_pure] at h
      simp [h, Typed.Expr.listRefs]
  · simp only [Report.yields_bind, Report.yields_pure] at h
    obtain ⟨value, hv, rfl⟩ := h
    simp [Typed.Expr.listRefs, Typed.Expr.coerce?_refs hv]
  · simp only [Report.yields_bind, Report.yields_pure] at h
    obtain ⟨value, hv, rfl⟩ := h
    simp [Typed.Expr.listRefs, Typed.Expr.spread_refs hv]

/-! ### Expressions -/

theorem Context.nameExpr_refs {name : String} {t : Typed.Expr}
    (h : (Γ.nameExpr name loc).Yields t) : t.refs = [] := by
  rcases nameExpr_yields h with ⟨_, _, _, rfl⟩ | ⟨_, _, _, _, _, rfl⟩ | ⟨_, _, rfl⟩ <;>
    simp [Typed.Expr.refs, Typed.ExprKind.refs]

/-- A field refers to what its object refers to, or is itself a field of the module. -/
theorem Context.fieldExpr_refs (hΓ : Γ.module.Named) {object t : Typed.Expr} {field : String}
    (h : (Γ.fieldExpr object field loc).Yields t) :
    ∀ ref ∈ t.refs, ref ∈ object.refs ∨ Γ.module.Declares ref := by
  unfold fieldExpr at h
  split at h
  · simp only [Report.yields_bind, Report.yields_pure] at h
    obtain ⟨_, -, rfl⟩ := h
    simp +contextual [Typed.Expr.refs, Typed.ExprKind.refs]
  · simp only [Report.yields_bind, Report.yields_pure] at h
    obtain ⟨_, -, rfl⟩ := h
    simp +contextual [Typed.Expr.refs, Typed.ExprKind.refs]
  · simp only [Report.yields_bind, Report.yields_orUnknown, Report.yields_pure,
      Option.map_eq_some_iff] at h
    obtain ⟨_, ⟨declared, hl, rfl⟩, rfl⟩ := h
    obtain ⟨module, hname⟩ := hΓ field declared hl
    intro ref hmem
    simp only [Typed.Expr.refs, Typed.ExprKind.refs, List.mem_singleton] at hmem
    rw [hmem]
    exact Or.inr ⟨by simp [hname], declared.loc, hl⟩
  · rw [Report.yields_pure] at h
    rw [h]
    simp +contextual [Typed.Expr.refs, Typed.ExprKind.refs]
  · simp at h

namespace Source.Expr

mutual

/-- **The references of an expression** are declared. -/
theorem check_refs (hΓ : Γ.module.Named) : ∀ {expr : Source.Expr} {demand : Demand}
    {t : Typed.Expr}, (check Γ expr demand).Yields t → ∀ ref ∈ t.refs, Γ.module.Declares ref
  | .nil _, _, t, h | .boolean _ _, _, t, h | .integer _ _, _, t, h | .float _ _, _, t, h
  | .string _ _, _, t, h => by
    rw [check, Demand.settle_yields_iff] at h
    rw [h.refs_eq]
    simp [Typed.Expr.refs, Typed.ExprKind.refs]
  | .init entries loc, .value, t, h | .init entries loc, .results, t, h => by simp [check] at h
  | .init entries loc, .ofType ⟨target, site⟩, t, h => by
    simp only [check] at h
    split at h
    · simp only [Report.yields_bind, Report.yields_pure] at h
      obtain ⟨items, hi, rfl⟩ := h
      exact checkItems_refs hΓ hi
    · simp only [Report.yields_bind, Report.yields_pure] at h
      obtain ⟨items, hi, _, -, rfl⟩ := h
      exact checkFields_refs hΓ hi
    · simp only [Report.yields_bind, Report.yields_pure] at h
      obtain ⟨items, hi, _, -, rfl⟩ := h
      exact checkFields_refs hΓ hi
    · simp only [Report.yields_bind, Report.yields_pure] at h
      obtain ⟨_, -, rfl⟩ := h
      simp [Typed.Expr.refs, Typed.ExprKind.refs]
    · rw [Report.yields_pure] at h
      simp [h, Typed.Expr.refs, Typed.ExprKind.refs, Typed.Expr.listRefs]
    · simp at h
  | .name text loc, demand, t, h => by
    simp only [check, Report.yields_bind, Demand.settle_yields_iff] at h
    obtain ⟨found, hn, hs⟩ := h
    rw [hs.refs_eq, Context.nameExpr_refs hn]
    simp
  | .index object key loc, demand, t, h => by
    simp only [check, Report.yields_bind, Demand.settle_yields_iff] at h
    obtain ⟨array, ha, _, -, key', hk, hs⟩ := h
    rw [hs.refs_eq, Typed.Expr.refs, Typed.ExprKind.refs, List.forall_mem_append]
    exact ⟨check_refs hΓ ha, check_refs hΓ hk⟩
  | .field object key loc, demand, t, h => by
    simp only [check] at h
    split at h
    · simp only [Typed.Expr.ofMember, Report.yields_bind, Report.yields_pure,
        Demand.settle_yields_iff] at h
      obtain ⟨_, ⟨_, -, rfl⟩, hs⟩ := h
      rw [hs.refs_eq]
      simp [Typed.Expr.refs, Typed.ExprKind.refs]
    · simp only [Report.yields_bind, Demand.settle_yields_iff] at h
      obtain ⟨object', ho, found, hf, hs⟩ := h
      rw [hs.refs_eq]
      intro ref hmem
      rcases Context.fieldExpr_refs hΓ hf ref hmem with hmem | hdecl
      · exact check_refs hΓ ho ref hmem
      · exact hdecl
  | .call callee args loc, demand, t, h => by
    simp only [check, Report.yields_bind] at h
    obtain ⟨callee', hc, h⟩ := h
    split at h
    · simp only [Report.yields_bind, Demand.settle_yields_iff] at h
      obtain ⟨values, hv, _, -, hs⟩ := h
      rw [hs.refs_eq, Typed.Expr.refs, Typed.ExprKind.refs, List.forall_mem_append]
      exact ⟨check_refs hΓ hc, checkValues_refs hΓ hv⟩
    · simp only [Report.yields_bind, Demand.settle_yields_iff] at h
      obtain ⟨_, -, values, hv, hs⟩ := h
      rw [hs.refs_eq, Typed.Expr.refs, Typed.ExprKind.refs, List.forall_mem_append]
      exact ⟨check_refs hΓ hc, checkValues_refs hΓ hv⟩
  | .unary op operand loc, demand, t, h => by
    simp only [check, Report.yields_bind, Demand.settle_yields_iff] at h
    obtain ⟨operand', ho, found, hu, hs⟩ := h
    have hkind := Typed.Expr.unary_kind op operand' loc
    rw [hu.value_eq] at hkind
    rw [hs.refs_eq, Typed.Expr.refs_eq, hkind, Typed.ExprKind.refs]
    exact check_refs hΓ ho
  | .binary left op right loc, demand, t, h => by
    simp only [check, Report.yields_bind, Demand.settle_yields_iff] at h
    obtain ⟨left', hl, right', hr, found, hb, hs⟩ := h
    obtain ⟨_, _, hkind, hfl, hfr⟩ := Typed.Expr.binary_kind op left' right' loc
    rw [hb.value_eq] at hkind
    rw [hs.refs_eq, Typed.Expr.refs_eq, hkind, Typed.ExprKind.refs, hfl.refs_eq, hfr.refs_eq,
      List.forall_mem_append]
    exact ⟨check_refs hΓ hl, check_refs hΓ hr⟩
  | .cast expr target loc, demand, t, h => by
    simp only [check, Report.yields_bind, Demand.settle_yields_iff] at h
    obtain ⟨expr', he, _, -, _, -, hs⟩ := h
    rw [hs.refs_eq, Typed.Expr.refs, Typed.ExprKind.refs]
    exact check_refs hΓ he
  | .paren expr loc, demand, t, h => by
    simp only [check, Report.yields_bind, Demand.settle_yields_iff] at h
    obtain ⟨expr', he, hs⟩ := h
    rw [hs.refs_eq, Typed.Expr.refs, Typed.ExprKind.refs]
    exact check_refs hΓ he

theorem checkValues_refs (hΓ : Γ.module.Named) {site : Nat → Site} : ∀ {exprs : List Source.Expr}
    {expected : List (Option Ty)} {position : Nat} {values : Values},
      (checkValues Γ site exprs expected position).Yields values →
        ∀ ref ∈ Typed.Expr.listRefs values.exprs, Γ.module.Declares ref
  | [], _, _, values, h => by
    rw [checkValues, Report.yields_pure] at h
    simp [h, Values.empty, Typed.Expr.listRefs]
  | expr :: rest, expected, position, values, h => by
    rw [checkValues] at h
    split_ifs at h with hlast
    · rw [Report.yields_bind] at h
      obtain ⟨call, hc, hv⟩ := h
      rw [Values.ofCall_refs hv]
      exact check_refs hΓ hc
    · simp only [Report.yields_bind, Report.yields_pure] at h
      obtain ⟨value, hv, values, hvs, rfl⟩ := h
      rw [Values.cons, Typed.Expr.listRefs, List.forall_mem_append]
      exact ⟨check_refs hΓ hv, checkValues_refs hΓ hvs⟩

theorem checkItems_refs (hΓ : Γ.module.Named) {elem : Ty} : ∀ {entries : List Entry}
    {items : List Typed.Expr}, (checkItems Γ elem entries).Yields items →
      ∀ ref ∈ Typed.Expr.listRefs items, Γ.module.Declares ref
  | [], items, h => by
    rw [checkItems, Report.yields_pure] at h
    simp [h, Typed.Expr.listRefs]
  | .positional value :: rest, items, h => by
    simp only [checkItems, Report.yields_bind, Report.yields_pure] at h
    obtain ⟨value', hv, values, hvs, rfl⟩ := h
    rw [Typed.Expr.listRefs, List.forall_mem_append]
    exact ⟨check_refs hΓ hv, checkItems_refs hΓ hvs⟩
  | .named _ _ _ :: rest, items, h => by simp [checkItems] at h

theorem checkFields_refs (hΓ : Γ.module.Named) {target : Ty} {fields : NameMap Ty} :
    ∀ {entries : List Entry} {seen : List String} {items : List (String × Typed.Expr)},
      (checkFields Γ target fields entries seen).Yields items →
        ∀ ref ∈ Typed.Expr.entryRefs items, Γ.module.Declares ref
  | [], _, items, h => by
    rw [checkFields, Report.yields_pure] at h
    simp [h, Typed.Expr.entryRefs]
  | .positional _ :: rest, seen, items, h => by simp [checkFields] at h
  | .named key value loc :: rest, seen, items, h => by
    rw [checkFields] at h
    split_ifs at h
    · simp at h
    · split at h
      · simp only [Report.yields_bind, Report.yields_pure] at h
        obtain ⟨value', hv, values, hvs, rfl⟩ := h
        rw [Typed.Expr.entryRefs, List.forall_mem_append]
        exact ⟨check_refs hΓ hv, checkFields_refs hΓ hvs⟩
      · simp at h

end

end Source.Expr

end LuaTyping
