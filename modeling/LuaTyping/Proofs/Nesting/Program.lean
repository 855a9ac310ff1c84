import LuaTyping.Proofs.Frame.Declare
import LuaTyping.Proofs.Nesting.Stmt
import LuaTyping.Proofs.Proper.Item
import Mathlib.Data.List.Forall2

/-!
# Programs in nested form

`Program.nest` writes every `elseif` in the function bodies of a program as a nested `if`.  The two
programs define the same module or are refused with the same diagnostics, up to the word `elseif`
(`Program.check_elseif`).
-/

namespace LuaTyping

open Report (Restates)

/-! ### Nested form -/

namespace Source

/-- The item with its body in nested form. -/
def Item.nest : Item → Item
  | .function decl => .function { decl with body := Block.nest decl.body }
  | item => item

/-- The program with all function bodies in nested form. -/
def Program.nest (program : Program) : Program :=
  { program with items := program.items.map Item.nest }

theorem Item.isReturn_nest (item : Item) : item.nest.isReturn = item.isReturn := by
  cases item <;> rfl

theorem Item.loc_nest (item : Item) : item.nest.loc = item.loc := by
  cases item <;> rfl

theorem Item.getLastD_nest (first : Item) (rest : List Item) :
    (rest.map Item.nest).getLastD first.nest = (rest.getLastD first).nest := by
  rw [List.getLastD_eq_getLast?, List.getLastD_eq_getLast?, List.getLast?_map]
  cases rest.getLast? <;> rfl

end Source

/-! ### Items -/

namespace Context

variable {Γ : Context} {options : Options} {loc : Location}

theorem declare_restates (name : String) (binding : Binding) :
    (Γ.declare name binding).Restates Eq (Γ.declare name binding) := by
  unfold declare
  split
  · exact .pure rfl
  · exact .andThen (.fault rfl) fun _ => .pure rfl

theorem declareAll_restates (kind : VarKind) (decls : List Typed.Decl) :
    (declareAll kind decls Γ).Restates Eq (declareAll kind decls Γ) := by
  induction decls generalizing Γ with
  | nil => exact .pure rfl
  | cons decl rest ih => exact .andThen (declare_restates _ _) fun _ => ih

theorem declareField_restates (field : String) (ty : Ty) :
    (Γ.declareField options field ty loc).Restates Eq (Γ.declareField options field ty loc) := by
  unfold declareField
  refine .andThen (.require rfl) fun _ => ?_
  split
  · exact .pure rfl
  · exact .andThen (.fault rfl) fun _ => .pure rfl

theorem moduleVar_restates (decl : Source.Decl) (values : List Source.Expr) :
    (Γ.moduleVar decl values loc).Restates Eq (Γ.moduleVar decl values loc) := by
  have hinit : (Γ.moduleInit decl.name values loc).Restates Eq
      (Γ.moduleInit decl.name values loc) := by
    unfold moduleInit
    split
    · exact Source.Expr.check_restates .refl _ (.ofType ⟨.module [], .declaration decl.name⟩)
    · exact .andThen (.fault rfl) fun _ => .pure rfl
  have hdeclare : (Γ.declareModule decl.name decl.loc loc).Restates Eq
      (Γ.declareModule decl.name decl.loc loc) := by
    unfold declareModule
    split
    · exact .andThen (.fault rfl) fun _ => .pure rfl
    · exact declare_restates _ _
  exact .andThen hinit fun _ => .andThen hdeclare fun _ => .pure rfl

theorem moduleReturn_restates (values : List Source.Expr) :
    (Γ.moduleReturn values loc).Restates Eq (Γ.moduleReturn values loc) := by
  unfold moduleReturn
  refine .andThen (.mapM fun value => Source.Expr.check_restates .refl value .value) fun typed => ?_
  split
  · exact .andThen (.require rfl) fun _ => .pure rfl
  · exact .andThen (.fault rfl) fun _ => .pure rfl

theorem param_restates (decl : Source.Decl) : (Γ.param decl).Restates Eq (Γ.param decl) :=
  .andThen (decl.stated_restates .refl) fun _ => .andThen (.require rfl) fun _ => .pure rfl

theorem declareFunction_restates (name : Source.FunctionName) (ty : Ty) :
    (declareFunction options Γ name ty loc).Restates Eq
      (declareFunction options Γ name ty loc) := by
  cases name with
  | plain name => exact declare_restates _ _
  | member module field =>
    simp only [declareFunction]
    split
    · exact declareField_restates _ _
    · split
      · exact .andThen (.fault rfl) fun _ => .pure rfl
      · exact .andThen (.fault rfl) fun _ => .pure rfl

/-- **A function and its nested form are checked alike**, a missing `return` included. -/
theorem function_nest (decl : Source.Function) :
    (function options Γ decl).Restates Eq
      (function options Γ { decl with body := Source.Block.nest decl.body }) := by
  unfold function
  refine .andThen (.mapM param_restates) fun params =>
    .andThen (TypeExpr.resolveList_restates decl.returns decl.loc) fun returns =>
      .andThen (declareFunction_restates _ _) fun Δ => .andThen ?_ fun _ => .pure rfl
  have hinner : (Δ.enterFunction returns).scopes.inner ≠ [] := List.cons_ne_nil _ _
  have hinside : (Δ.enterFunction returns).AlikeInside (Δ.enterFunction returns) :=
    ⟨.refl, hinner, hinner⟩
  unfold functionBody
  rw [Source.Block.returns_nest]
  refine .bind (hinside.declareAll_restates .inner params) fun _ _ hctx =>
    .bind (Source.Stmt.checkBlock_nest decl.body hctx) ?_
  rintro ⟨_, _⟩ ⟨_, _⟩ ⟨rfl, -⟩
  exact .andThen (.require rfl) fun _ => .pure rfl

theorem itemTarget_restates (expr : Source.Expr) :
    (Γ.itemTarget expr).Restates Eq (Γ.itemTarget expr) := by
  unfold itemTarget
  split
  · split
    · exact .andThen (.fault rfl) fun _ => .pure rfl
    · exact .pure rfl
  · exact .andThen (Alike.refl.target_restates expr) fun _ => .pure rfl

theorem declareFields_restates (targets : List ItemTarget) (types : List Ty) :
    (declareFields options loc targets types Γ).Restates Eq
      (declareFields options loc targets types Γ) := by
  induction targets generalizing types Γ with
  | nil => exact .pure rfl
  | cons target rest ih =>
    cases target with
    | existing target => exact .andThen (ih types.tail) fun _ => .pure rfl
    | newField module field =>
      exact .andThen (declareField_restates _ _) fun _ =>
        .andThen (ih types.tail) fun _ => .pure rfl

theorem itemAssign_restates (targets values : List Source.Expr) :
    (itemAssign options Γ targets values loc).Restates Eq
      (itemAssign options Γ targets values loc) := by
  unfold itemAssign
  exact .andThen (.mapM itemTarget_restates) fun _ =>
    .andThen (Source.Expr.checkValues_restates .refl _ values _ 0) fun _ =>
      .andThen (.require rfl) fun _ => .andThen (declareFields_restates _ _) fun _ => .pure rfl

theorem declareType_restates (name : String) (ty : Ty) :
    (Γ.declareType name ty loc).Restates Eq (Γ.declareType name ty loc) := by
  unfold declareType
  split
  · exact .pure rfl
  · exact .andThen (.fault rfl) fun _ => .pure rfl

theorem recordFields_restates (record : String) (decls : List Source.Decl) (known : NameMap Ty) :
    (Γ.recordFields record decls known).Restates Eq (Γ.recordFields record decls known) := by
  induction decls generalizing known with
  | nil => exact .pure rfl
  | cons decl rest ih =>
    refine .andThen (decl.stated_restates .refl) fun _ => .andThen (.require rfl) fun _ => ?_
    split
    · exact .andThen (.fault rfl) fun _ => ih known
    · exact ih _

end Context

namespace Source

variable {options : Options}

/-- **An item and its nested form are checked alike.** -/
theorem Item.check_nest (Γ : Context) (item : Item) :
    (item.check options Γ).Restates Eq (item.nest.check options Γ) := by
  cases item with
  | var decls values loc =>
    simp only [Item.nest]
    by_cases hmodule : ∃ name nameLoc, decls = [⟨name, some .module, nameLoc⟩]
    · obtain ⟨name, nameLoc, rfl⟩ := hmodule
      exact .andThen (Context.moduleVar_restates _ _) fun _ => .pure rfl
    · rw [Item.check_var fun name nameLoc heq => hmodule ⟨name, nameLoc, heq⟩]
      refine .bind (Context.Alike.refl.declareVars_restates (Context.declareAll_restates _) decls
        values loc) ?_
      rintro ⟨_, _⟩ ⟨_, _⟩ ⟨rfl, rfl⟩
      exact .pure rfl
  | function decl => exact .andThen (Context.function_nest decl) fun _ => .pure rfl
  | assign targets values loc =>
    exact .andThen (Context.itemAssign_restates targets values) fun _ => .pure rfl
  | record name fields loc =>
    exact .andThen (Context.recordFields_restates name fields []) fun _ =>
      .andThen (Context.declareType_restates _ _) fun _ => .pure rfl
  | «alias» name type loc =>
    exact .andThen (TypeExpr.resolve_restates type loc) fun _ =>
      .andThen (Context.declareType_restates _ _) fun _ => .pure rfl
  | ret values loc => exact .andThen (Context.moduleReturn_restates values) fun _ => .pure rfl

theorem checkItems_nest (Γ : Context) (items : List Item) :
    (checkItems options Γ items).Restates Eq (checkItems options Γ (items.map Item.nest)) := by
  induction items generalizing Γ with
  | nil => exact .pure rfl
  | cons item rest ih =>
    simp only [List.map_cons, checkItems, Item.isReturn_nest, Item.loc_nest, List.isEmpty_map]
    exact .andThen (.require rfl) fun _ => .andThen (item.check_nest Γ) fun _ =>
      .andThen (ih _) fun _ => .pure rfl

namespace Program

theorem walk_nest (options : Options) (builtins : Builtins) (program : Program) :
    (program.walk builtins options).Restates Eq (program.nest.walk builtins options) := by
  obtain ⟨items, typeRegions, commentRegions⟩ := program
  cases items with
  | nil => exact .andThen (.fault rfl) fun _ => .pure rfl
  | cons first rest =>
    simp only [walk, nest, List.map_cons, Item.getLastD_nest, Item.isReturn_nest, Item.loc_nest]
    exact .andThen (checkItems_nest (.start builtins) (first :: rest)) fun _ =>
      .andThen (.require rfl) fun _ => .andThen (.require rfl) fun _ => .pure rfl

end Program

end Source

/-! ### Diagnostics -/

/-- The second diagnostic says of the condition of an `if` what the first says of the condition of
an `elseif`, and else they are the same. -/
inductive Diagnostic.Restates (filename : String) : Diagnostic → Diagnostic → Prop
  | same {fault : Fault} :
      (∀ expected found, fault.cause ≠ .typeMismatch expected found (.condition "elseif")) →
        Restates filename (fault.diagnostic filename) (fault.diagnostic filename)
  | condition (front : String) (loc : Location) :
      Restates filename ⟨.typeMismatch, front ++ "elseif condition", loc, filename, none⟩
        ⟨.typeMismatch, front ++ "if condition", loc, filename, none⟩

theorem Violation.asIf_eq_self {cause : Violation}
    (h : ∀ expected found, cause ≠ .typeMismatch expected found (.condition "elseif")) :
    cause.asIf = cause := by
  unfold Violation.asIf
  split
  · next expected found site =>
    unfold Site.asIf
    split
    · next keyword =>
      rw [if_neg]
      rintro rfl
      exact h expected found rfl
    · rfl
  · rfl

theorem Fault.diagnostic_asIf (filename : String) (fault : Fault) :
    Diagnostic.Restates filename (fault.diagnostic filename) (fault.asIf.diagnostic filename) := by
  obtain ⟨cause, loc⟩ := fault
  by_cases h : ∃ expected found, cause = .typeMismatch expected found (.condition "elseif")
  · obtain ⟨expected, found, rfl⟩ := h
    exact .condition
      ("expected " ++ expected.display ++ " but found " ++ found.display ++ " in ") loc
  · have hcause : cause.asIf = cause :=
      Violation.asIf_eq_self fun expected found heq => h ⟨expected, found, heq⟩
    rw [Fault.asIf, hcause]
    exact .same fun expected found heq => h ⟨expected, found, heq⟩

namespace Source.Program

/-- **An `elseif` is a nested `if`.**  A program and its nested form are both accepted and define the
same module, or both refused with diagnostics that agree one by one, up to the word `elseif`.  A body
returns on every path exactly if its nested form does. -/
theorem check_elseif (builtins : Builtins) (options : Options) (program : Program) :
    ((∃ checked, program.check builtins options = .ok checked ∧
        program.nest.check builtins options = .ok checked) ∨
      ∃ found found', program.check builtins options = .error found ∧
        program.nest.check builtins options = .error found' ∧
          List.Forall₂ (Diagnostic.Restates options.filename) found found') ∧
    ∀ body, Block.returns (Block.nest body) = Block.returns body := by
  refine ⟨?_, Block.returns_nest⟩
  obtain ⟨hvalue, hfaults⟩ := walk_nest options builtins program
  have hdiagnostics : ∀ faults : List Fault,
      List.Forall₂ (Diagnostic.Restates options.filename)
        (faults.map (Fault.diagnostic options.filename))
        ((faults.map Fault.asIf).map (Fault.diagnostic options.filename)) := by
    intro faults
    rw [List.map_map, List.forall₂_map_left_iff, List.forall₂_map_right_iff, List.forall₂_same]
    exact fun fault _ => fault.diagnostic_asIf options.filename
  simp only [check, ← hvalue, hfaults]
  cases hf : (program.walk builtins options).faults with
  | cons fault rest => exact Or.inr ⟨_, _, rfl, rfl, hdiagnostics (fault :: rest)⟩
  | nil =>
    cases (program.walk builtins options).value.2.module.name? with
    | none => exact Or.inr ⟨_, _, rfl, rfl, hdiagnostics []⟩
    | some name => exact Or.inl ⟨_, rfl, rfl⟩

end Source.Program

end LuaTyping
