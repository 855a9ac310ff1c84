import LuaTyping.Proofs.Frame.Stmt

/-!
# What function bodies report

Some violations are about toplevel items only: about the module and its fields, about toplevel
names, type names and parameters, and about the program as a whole (`Violation.itemOnly`).  No check
inside a function body reports one of them (`Stmt.check_avoids`), whatever else it finds.  A layer
above the toplevel is open there, and that is all that it needs to know of its context.

`report.Avoids p` says that no fault in the report is of the kind `p`.  Checks that neither look a
name up nor see an item avoid every kind that only names and items fall under
(`Violation.Foreign`).
-/

namespace LuaTyping

/-- Whether only toplevel items break the rule. -/
def Violation.itemOnly : Violation → Bool
  | .duplicateToplevel .. | .duplicateType .. | .duplicateRecordField .. | .duplicateModuleField ..
  | .missingParamType .. | .moduleFieldType .. | .notModuleVariable .. | .emptyProgram
  | .noModuleVariable
  | .multipleModuleVariables .. | .missingModuleReturn | .moduleReturnArity ..
  | .moduleReturnType .. | .returnNotLast | .missingReturn => true
  | _ => false

namespace Report

variable {α β : Type} {p : Violation → Bool}

theorem value_mapM (check : α → Report β) (inputs : List α) :
    (inputs.mapM check).value = inputs.map fun input => (check input).value := by
  induction inputs with
  | nil => rfl
  | cons input rest ih => simp only [List.mapM_cons, value_bind, value_pure, ih, List.map_cons]

/-- No fault is of the kind. -/
def Avoids (p : Violation → Bool) (report : Report α) : Prop :=
  ∀ fault ∈ report.faults, p fault.cause = false

theorem Avoids.pure {a : α} : (Pure.pure a : Report α).Avoids p :=
  fun _ h => absurd h List.not_mem_nil

theorem Avoids.bind_value {first : Report α} {next : α → Report β} (h : first.Avoids p)
    (hnext : (next first.value).Avoids p) : (first >>= next).Avoids p := by
  intro fault hfault
  rw [faults_bind, List.mem_append] at hfault
  exact hfault.elim (h fault) (hnext fault)

theorem Avoids.bind {first : Report α} {next : α → Report β} (h : first.Avoids p)
    (hnext : ∀ a, (next a).Avoids p) : (first >>= next).Avoids p :=
  .bind_value h (hnext _)

theorem Avoids.fault {cause : Violation} {loc : Location} (h : p cause = false) :
    (Report.fault cause loc).Avoids p := by
  intro fault hfault
  rw [faults_fault, List.mem_singleton] at hfault
  rw [hfault, h]

theorem Avoids.require {condition : Bool} {cause : Violation} {loc : Location}
    (h : p cause = false) : (Report.require condition cause loc).Avoids p := by
  unfold Report.require
  split
  · exact .pure
  · exact .fault h

theorem Avoids.orUnknown {found : Option Ty} {cause : Violation} {loc : Location}
    (h : p cause = false) : (Report.orUnknown found cause loc).Avoids p := by
  cases found with
  | some ty => exact .pure
  | none => exact .bind (.fault h) fun _ => .pure

theorem Avoids.mapM {check : α → Report β} {inputs : List α}
    (h : ∀ input, (check input).Avoids p) : (inputs.mapM check).Avoids p := by
  induction inputs with
  | nil => exact .pure
  | cons input rest ih =>
    rw [List.mapM_cons]
    exact .bind (h input) fun _ => .bind ih fun _ => .pure

theorem Avoids.mono {q : Violation → Bool} {report : Report α} (h : report.Avoids p)
    (hq : ∀ cause, q cause = true → p cause = true) : report.Avoids q := by
  intro fault hfault
  have hcause := h fault hfault
  cases hkind : q fault.cause with
  | false => rfl
  | true => rw [hq _ hkind] at hcause; exact hcause

end Report

namespace Violation

/-- Whether only names and toplevel items break the rule. -/
def nameOrItem : Violation → Bool
  | .undeclaredName _ => true
  | cause => cause.itemOnly

/-- A kind of violations that only names and toplevel items break.  Coercions, operators,
annotations and loop headers report none of them on their own. -/
class Foreign (q : Violation → Bool) : Prop where
  nameOrItem : ∀ cause, q cause = true → cause.nameOrItem = true

instance : Foreign itemOnly where
  nameOrItem cause h := by
    unfold Violation.nameOrItem
    split
    · rfl
    · exact h

theorem spared {q : Violation → Bool} [Foreign q] {cause : Violation}
    (h : cause.nameOrItem = false) : q cause = false := by
  cases hcause : q cause with
  | false => rfl
  | true => rw [Foreign.nameOrItem cause hcause] at h; exact h

end Violation

open Report (Avoids)
open Violation (Foreign itemOnly spared)

variable {q : Violation → Bool} [Foreign q]

/-! ### Coercion and operators -/

namespace Typed.Expr

theorem single_avoids (expr : Expr) : expr.single.Avoids q := by
  unfold single
  split
  · exact .bind (.fault (spared rfl)) fun _ => .pure
  · exact .pure

theorem coerce_avoids (expr : Expr) (want : Want) : (expr.coerce want).Avoids q := by
  unfold coerce
  split
  · exact .pure
  · split
    · exact .pure
    · exact .bind (.fault (spared rfl)) fun _ => .pure

theorem coerce?_avoids (expr : Expr) (want : Option Want) :
    (expr.coerce? want).Avoids q := by
  cases want with
  | none => exact .pure
  | some want => exact coerce_avoids expr want

theorem results_avoids (loc : Location) (want : Nat → Option Want) (position : Nat)
    (tys : List Ty) : (results loc want position tys).Avoids q := by
  induction tys generalizing position with
  | nil => exact .pure
  | cons ty rest ih =>
    exact .bind (coerce?_avoids _ _) fun _ => .bind (ih (position + 1)) fun _ => .pure

theorem spread_avoids (call : Expr) (want : Nat → Option Want) :
    (call.spread want).Avoids q :=
  .bind (results_avoids _ want 0 _) fun _ => .pure

theorem unary_avoids (op : UnaryOp) (operand : Expr) (loc : Location) :
    (unary op operand loc).Avoids q := by
  unfold unary
  split
  · exact .pure
  · exact .bind (.fault (spared rfl)) fun _ => .pure

theorem comparison_avoids (op : BinaryOp) (left right : Expr) (loc : Location) :
    (comparison op left right loc).Avoids q := by
  refine .bind (.require (spared rfl)) fun _ => ?_
  split <;> exact .pure

theorem binary_avoids (op : BinaryOp) (left right : Expr) (loc : Location) :
    (binary op left right loc).Avoids q := by
  refine .bind (.require (spared rfl)) fun _ => .bind (.require (spared rfl)) fun _ => ?_
  split
  · exact comparison_avoids op left right loc
  · split <;> exact .pure

end Typed.Expr

theorem Demand.settle_avoids (demand : Demand) (expr : Typed.Expr) :
    (demand.settle expr).Avoids q := by
  cases demand with
  | results => exact .pure
  | value => exact expr.single_avoids
  | ofType want => exact .bind (expr.single_avoids) fun value => value.coerce_avoids want

theorem Values.ofCall_avoids (call : Typed.Expr) (expected : List (Option Ty)) (site : Nat → Site)
    (position : Nat) : (ofCall call expected site position).Avoids q := by
  unfold ofCall
  split
  · split
    · exact .bind (.fault (spared rfl)) fun _ => .pure
    · exact .pure
  · exact .bind (call.coerce?_avoids _) fun _ => .pure
  · exact .bind (call.spread_avoids _) fun _ => .pure

/-! ### Expressions -/

theorem Typed.Expr.ofMember_avoids (library : String) (members : NameMap Ty) (field : String)
    (loc : Location) : (ofMember library members field loc).Avoids q :=
  .bind (.orUnknown (spared rfl)) fun _ => .pure

namespace Context

theorem nameExpr_avoids (Γ : Context) (name : String) (loc : Location) :
    (Γ.nameExpr name loc).Avoids itemOnly := by
  unfold nameExpr
  split
  · exact .pure
  · exact .pure
  · exact .pure
  · exact .bind (.fault rfl) fun _ => .pure
  · exact .bind (.fault rfl) fun _ => .pure

theorem fieldExpr_avoids (Γ : Context) (object : Typed.Expr) (field : String) (loc : Location) :
    (Γ.fieldExpr object field loc).Avoids q := by
  unfold fieldExpr
  split
  · exact .bind (.orUnknown (spared rfl)) fun _ => .pure
  · exact .bind (.orUnknown (spared rfl)) fun _ => .pure
  · exact .bind (.orUnknown (spared rfl)) fun _ => .pure
  · exact .pure
  · exact .bind (.fault (spared rfl)) fun _ => .pure

end Context

theorem Ty.element_avoids (ty : Ty) (loc : Location) : (ty.element loc).Avoids q := by
  unfold element
  split
  · exact .pure
  · exact .pure
  · exact .bind (.fault (spared rfl)) fun _ => .pure

namespace TypeExpr

mutual

theorem resolve_avoids {q : Violation → Bool} [Foreign q] (scopes : Scopes) :
    ∀ (type : TypeExpr) (site : Location), (type.resolve scopes site).Avoids q
  | .nil, _ | .boolean, _ | .integer, _ | .float, _ | .string, _ | .any, _ => by
    rw [resolve]
    exact .pure
  | .module, _ => by
    rw [resolve]
    exact .bind (.fault (spared rfl)) fun _ => .pure
  | .name text loc, _ => by
    rw [resolve]
    exact .orUnknown (spared rfl)
  | .array elem loc, _ => by
    rw [resolve]
    exact .bind (resolve_avoids scopes elem loc) fun _ => .pure
  | .table fields loc, _ => by
    rw [resolve]
    exact .bind (resolveFields_avoids scopes fields []) fun _ => .pure
  | .function params returns loc, _ => by
    rw [resolve]
    exact .bind (resolveList_avoids scopes params loc) fun _ =>
      .bind (resolveList_avoids scopes returns loc) fun _ => .pure

theorem resolveList_avoids {q : Violation → Bool} [Foreign q] (scopes : Scopes) :
    ∀ (types : List TypeExpr) (site : Location), (resolveList scopes types site).Avoids q
  | [], _ => by
    rw [resolveList]
    exact .pure
  | type :: rest, site => by
    rw [resolveList]
    exact .bind (resolve_avoids scopes type site) fun _ =>
      .bind (resolveList_avoids scopes rest site) fun _ => .pure

theorem resolveFields_avoids {q : Violation → Bool} [Foreign q] (scopes : Scopes) :
    ∀ (fields : List TypeField) (known : NameMap Ty),
      (resolveFields scopes fields known).Avoids q
  | [], _ => by
    rw [resolveFields]
    exact .pure
  | ⟨key, type, loc⟩ :: rest, known => by
    rw [resolveFields]
    refine .bind (resolve_avoids scopes type loc) fun _ => ?_
    split
    · exact .bind (.fault (spared rfl)) fun _ => resolveFields_avoids scopes rest known
    · exact resolveFields_avoids scopes rest _

end

end TypeExpr

theorem requireFields_avoids (target : Ty) (loc : Location) (given : List String)
    (fields : List (String × Ty)) : (requireFields target loc given fields).Avoids q := by
  induction fields with
  | nil => exact .pure
  | cons entry rest ih => exact .bind (.require (spared rfl)) fun _ => ih

namespace Source.Expr

mutual

/-- **Expressions report nothing about items.** -/
theorem check_avoids (Γ : Context) : ∀ (expr : Source.Expr) (demand : Demand),
    (check Γ expr demand).Avoids itemOnly
  | .nil _, demand | .boolean _ _, demand | .integer _ _, demand | .float _ _, demand
  | .string _ _, demand => by
    simp only [check]
    exact demand.settle_avoids _
  | .init entries loc, .ofType ⟨target, site⟩ => by
    cases target with
    | array elem =>
      simp only [check]
      exact .bind (checkItems_avoids Γ elem entries) fun _ => .pure
    | table fields | record _ fields =>
      simp only [check]
      exact .bind (checkFields_avoids Γ _ fields entries []) fun _ =>
        .bind (requireFields_avoids _ loc _ fields) fun _ => .pure
    | module fields =>
      simp only [check]
      exact .bind (.require rfl) fun _ => .pure
    | unknown =>
      simp only [check]
      exact .pure
    | _ =>
      simp only [check]
      exact .bind (.fault rfl) fun _ => .pure
  | .init entries loc, .value | .init entries loc, .results => by
    simp only [check]
    exact .bind (.fault rfl) fun _ => .bind (checkUntyped_avoids Γ entries) fun _ => .pure
  | .name text loc, demand => by
    simp only [check]
    exact .bind (Γ.nameExpr_avoids text loc) fun _ => demand.settle_avoids _
  | .index object key loc, demand => by
    simp only [check]
    exact .bind (check_avoids Γ object _) fun array => .bind (array.ty.element_avoids loc) fun _ =>
      .bind (check_avoids Γ key _) fun _ => demand.settle_avoids _
  | .field object key loc, demand => by
    simp only [check]
    split
    · exact .bind (Typed.Expr.ofMember_avoids _ _ key loc) fun _ => demand.settle_avoids _
    · exact .bind (check_avoids Γ object _) fun object =>
        .bind (Γ.fieldExpr_avoids object key loc) fun _ => demand.settle_avoids _
  | .call callee args loc, demand => by
    simp only [check]
    refine .bind (check_avoids Γ callee _) fun callee => ?_
    split
    · exact .bind (checkValues_avoids Γ _ args _ 0) fun _ => .bind (.require rfl) fun _ =>
        demand.settle_avoids _
    · exact .bind (.require rfl) fun _ => .bind (checkValues_avoids Γ _ args _ 0) fun _ =>
        demand.settle_avoids _
  | .unary op operand loc, demand => by
    simp only [check]
    exact .bind (check_avoids Γ operand _) fun operand =>
      .bind (operand.unary_avoids op loc) fun _ => demand.settle_avoids _
  | .binary left op right loc, demand => by
    simp only [check]
    exact .bind (check_avoids Γ left _) fun left => .bind (check_avoids Γ right _) fun right =>
      .bind (left.binary_avoids op right loc) fun _ => demand.settle_avoids _
  | .cast expr target loc, demand => by
    simp only [check]
    exact .bind (check_avoids Γ expr _) fun _ =>
      .bind (target.resolve_avoids Γ.scopes loc) fun _ =>
      .bind (.require rfl) fun _ => demand.settle_avoids _
  | .paren expr loc, demand => by
    simp only [check]
    exact .bind (check_avoids Γ expr _) fun _ => demand.settle_avoids _

theorem checkValues_avoids (Γ : Context) (site : Nat → Site) :
    ∀ (exprs : List Source.Expr) (expected : List (Option Ty)) (position : Nat),
      (checkValues Γ site exprs expected position).Avoids itemOnly
  | [], _, _ => by
    simp only [checkValues]
    exact .pure
  | expr :: rest, expected, position => by
    rw [checkValues]
    split
    · exact .bind (check_avoids Γ expr _) fun call =>
        Values.ofCall_avoids call expected site position
    · exact .bind (check_avoids Γ expr _) fun _ =>
        .bind (checkValues_avoids Γ site rest _ _) fun _ => .pure

theorem checkItems_avoids (Γ : Context) (elem : Ty) : ∀ entries : List Entry,
    (checkItems Γ elem entries).Avoids itemOnly
  | [] => by
    simp only [checkItems]
    exact .pure
  | .positional value :: rest => by
    rw [checkItems]
    exact .bind (check_avoids Γ value _) fun _ =>
      .bind (checkItems_avoids Γ elem rest) fun _ => .pure
  | .named key _ loc :: rest => by
    rw [checkItems]
    exact .bind (.fault rfl) fun _ => checkItems_avoids Γ elem rest

theorem checkFields_avoids (Γ : Context) (target : Ty) (fields : List (String × Ty)) :
    ∀ (entries : List Entry) (seen : List String),
      (checkFields Γ target fields entries seen).Avoids itemOnly
  | [], _ => by
    simp only [checkFields]
    exact .pure
  | .positional value :: rest, seen => by
    rw [checkFields]
    exact .bind (.fault rfl) fun _ => checkFields_avoids Γ target fields rest seen
  | .named key value loc :: rest, seen => by
    rw [checkFields]
    split
    · exact .bind (.fault rfl) fun _ => checkFields_avoids Γ target fields rest seen
    · split
      · exact .bind (check_avoids Γ value _) fun _ =>
          .bind (checkFields_avoids Γ target fields rest _) fun _ => .pure
      · exact .bind (.fault rfl) fun _ => checkFields_avoids Γ target fields rest _

theorem checkUntyped_avoids (Γ : Context) : ∀ entries : List Entry,
    (checkUntyped Γ entries).Avoids itemOnly
  | [] => by
    simp only [checkUntyped]
    exact .pure
  | .positional value :: rest | .named _ value _ :: rest => by
    rw [checkUntyped]
    split
    · exact checkUntyped_avoids Γ rest
    · exact .bind (check_avoids Γ value _) fun _ => checkUntyped_avoids Γ rest

end

end Source.Expr

/-! ### Declarations and assignments -/

namespace Context

variable {p : Violation → Bool}

/-- Only the toplevel refuses a variable. -/
theorem declare_avoids (Γ : Context) (name : String) (binding : Binding)
    (h : Γ.scopes.inner = [] → ∀ previous, p (.duplicateToplevel name previous) = false) :
    (Γ.declare name binding).Avoids p := by
  unfold declare Scopes.declare
  cases hinner : Γ.scopes.inner with
  | cons layer outer => exact .pure
  | nil =>
    cases Γ.scopes.toplevel.lookup name with
    | none => exact .pure
    | some previous => exact .bind (.fault (h hinner previous.loc)) fun _ => .pure

theorem declareAll_avoids (kind : VarKind) (decls : List Typed.Decl) (Γ : Context)
    (h : Γ.scopes.inner = [] → ∀ name previous, p (.duplicateToplevel name previous) = false) :
    (declareAll kind decls Γ).Avoids p := by
  induction decls generalizing Γ with
  | nil => exact .pure
  | cons decl rest ih =>
    refine .bind_value (Γ.declare_avoids _ _ fun hΓ => h hΓ _) (ih _ fun hΔ => h ?_)
    by_contra hΓ
    exact (declare_frames hΓ).inner_ne_nil hΔ

end Context

namespace Source.Decl

theorem stated_avoids (Γ : Context) (decl : Decl) : (decl.stated Γ).Avoids q := by
  unfold stated
  split
  · exact .bind (TypeExpr.resolve_avoids _ _ _) fun _ => .pure
  · exact .pure

theorem typed_avoids (decl : Decl) (stated value : Option Ty) :
    (decl.typed stated value).Avoids q := by
  unfold typed
  split
  · exact .pure
  · exact .bind (.fault (spared rfl)) fun _ => .pure
  · exact .pure
  · exact .pure

theorem typedAll_avoids (decls : List (Decl × Option Ty)) (tys : List Ty) :
    (typedAll decls tys).Avoids q := by
  induction decls generalizing tys with
  | nil => exact .pure
  | cons entry rest ih =>
    exact .bind (entry.1.typed_avoids _ _) fun _ => .bind (ih tys.tail) fun _ => .pure

theorem requireStated_avoids (decls : List (Decl × Option Ty)) :
    (requireStated decls).Avoids q := by
  induction decls with
  | nil => exact .pure
  | cons entry rest ih => exact .bind (.require (spared rfl)) fun _ => ih

end Source.Decl

namespace Context

theorem declaredValues_avoids (Γ : Context) (decls : List (Source.Decl × Option Ty))
    (values : List Source.Expr) (loc : Location) :
    (Γ.declaredValues decls values loc).Avoids itemOnly := by
  unfold declaredValues
  split
  · exact .bind (Source.Decl.requireStated_avoids _) fun _ => .pure
  · exact .bind (Source.Expr.checkValues_avoids Γ _ values _ 0) fun _ =>
      .bind (.require rfl) fun _ => .pure

theorem declareVars_avoids {p : Violation → Bool}
    (hp : ∀ cause, p cause = true → cause.itemOnly = true) (Γ : Context)
    (decls : List Source.Decl) (values : List Source.Expr) (loc : Location)
    (h : Γ.scopes.inner = [] → ∀ name previous, p (.duplicateToplevel name previous) = false) :
    (Γ.declareVars decls values loc).Avoids p :=
  .bind (.mapM fun decl => (decl.stated_avoids Γ).mono hp) fun _ =>
    .bind ((Γ.declaredValues_avoids _ values loc).mono hp) fun list =>
    .bind ((Source.Decl.typedAll_avoids _ list.types).mono hp) fun typed =>
    .bind (declareAll_avoids Γ.varKind typed Γ h) fun _ => .pure

theorem nameTarget_avoids (Γ : Context) (name : String) (loc : Location) :
    (Γ.nameTarget name loc).Avoids itemOnly := by
  unfold nameTarget
  split
  · exact .pure
  · exact .pure
  all_goals exact .bind (.fault rfl) fun _ => .pure

theorem target_avoids (Γ : Context) (expr : Source.Expr) : (Γ.target expr).Avoids itemOnly := by
  unfold target
  split
  · exact Γ.nameTarget_avoids _ _
  · split
    · exact .bind (.fault rfl) fun _ => .pure
    · exact .bind (Source.Expr.check_avoids Γ _ _) fun _ => .pure
  · exact .bind (Source.Expr.check_avoids Γ _ _) fun _ => .pure
  · exact .bind (.fault rfl) fun _ => .pure

theorem assign_avoids (Γ : Context) (targets values : List Source.Expr) (loc : Location) :
    (Γ.assign targets values loc).Avoids itemOnly :=
  .bind (.mapM (Γ.target_avoids)) fun _ =>
    .bind (Source.Expr.checkValues_avoids Γ _ values _ 0) fun _ =>
    .bind (.require rfl) fun _ => .pure

end Context

/-! ### Loop headers -/

theorem Ty.control_avoids (ty : Ty) (name : String) (loc : Location) :
    (ty.control name loc).Avoids q := by
  unfold control
  split
  · exact .pure
  · exact .bind (.fault (spared rfl)) fun _ => .pure

theorem Typed.Expr.ipairsTypes_avoids (array : Typed.Expr) : array.ipairsTypes.Avoids q := by
  unfold ipairsTypes
  split
  · exact .pure
  · exact .pure
  · exact .bind (.fault (spared rfl)) fun _ => .pure

namespace LoopValues

theorem requireThree_avoids (count : Nat) (loc : Location) :
    (requireThree count loc).Avoids q := by
  unfold requireThree
  split
  · exact .fault (spared rfl)
  · exact .fault (spared rfl)
  · exact .fault (spared rfl)
  · exact .pure
  · exact .fault (spared rfl)

theorem coerce_avoids (want : Nat → Option Want) (position : Nat) (values : List Typed.Expr) :
    (coerce want position values).Avoids q := by
  induction values generalizing position with
  | nil => exact .pure
  | cons expr rest ih =>
    cases rest with
    | nil =>
      rw [coerce]
      split
      · exact .pure
      · exact .bind (expr.coerce?_avoids _) fun _ => .pure
      · exact .bind (expr.spread_avoids _) fun _ => .pure
    | cons next rest =>
      exact .bind (expr.coerce?_avoids _) fun _ => .bind (ih (position + 1)) fun _ => .pure

end LoopValues

namespace Context

theorem numericHeader_avoids (Γ : Context) (decl : Source.Decl) (start limit : Source.Expr)
    (step : Option Source.Expr) (loc : Location) :
    (Γ.numericHeader decl start limit step loc).Avoids itemOnly := by
  have hstart : (Γ.numericStart decl start).Avoids itemOnly := by
    refine .bind (decl.stated_avoids Γ) fun stated => ?_
    cases stated <;> exact .bind (start.check_avoids Γ _) fun _ => .pure
  have hstep : ∀ ty, (Γ.numericStep ty step loc).Avoids itemOnly := by
    intro ty
    cases step with
    | none => exact .pure
    | some step => exact step.check_avoids Γ _
  exact .bind hstart fun header => .bind (header.2.control_avoids _ _) fun ty =>
    .bind (limit.check_avoids Γ _) fun _ => .bind (hstep ty) fun _ => .pure

theorem ipairsLoop_avoids (Γ : Context) (args : List Source.Expr) (loc : Location) :
    (Γ.ipairsLoop args loc).Avoids itemOnly := by
  refine .bind (.mapM fun arg => arg.check_avoids Γ _) fun values =>
    .bind (.require rfl) fun _ => ?_
  cases values with
  | nil => exact .pure
  | cons array rest => exact .bind (array.ipairsTypes_avoids) fun _ => .pure

theorem loopValues_avoids (Γ : Context) (exprs : List Source.Expr) :
    (Γ.loopValues exprs).Avoids itemOnly := by
  induction exprs with
  | nil => exact .pure
  | cons expr rest ih => exact .bind (expr.check_avoids Γ _) fun _ => .bind ih fun _ => .pure

theorem iteratorLoop_avoids (Γ : Context) (exprs : List Source.Expr) (loc : Location) :
    (Γ.iteratorLoop exprs loc).Avoids itemOnly := by
  refine .bind (Γ.loopValues_avoids exprs) fun values => ?_
  dsimp only
  split
  · have hvalues : ∀ want, (LoopValues.coerce want 0 values).Avoids itemOnly :=
      fun want => LoopValues.coerce_avoids want 0 values
    split
    · exact .bind (hvalues _) fun _ => .pure
    · exact .bind (LoopValues.requireThree_avoids _ loc) fun _ => .bind (hvalues _) fun _ => .pure
  · exact .bind (.fault rfl) fun _ => .pure
  · exact .pure
  · exact .bind (.fault rfl) fun _ => .pure

theorem iterate_avoids (Γ : Context) (exprs : List Source.Expr) (loc : Location) :
    (Γ.iterate exprs loc).Avoids itemOnly := by
  unfold iterate
  split
  · exact Γ.ipairsLoop_avoids _ _
  · exact Γ.iteratorLoop_avoids exprs loc

theorem loopVar_avoids (Γ : Context) (decl : Source.Decl) (found : Ty) :
    (Γ.loopVar decl found).Avoids q := by
  refine .bind (decl.stated_avoids Γ) fun stated => ?_
  cases stated with
  | none => exact .pure
  | some ty =>
    dsimp only
    split
    · exact .pure
    · split
      · exact .pure
      · exact .bind (.fault (spared rfl)) fun _ => .pure

theorem loopVars_avoids (Γ : Context) (decls : List Source.Decl) (produced : Option (List Ty))
    (loc : Location) : (Γ.loopVars decls produced loc).Avoids q := by
  have hlist : ∀ tys, (Γ.loopVarList decls tys).Avoids q := by
    intro tys
    induction decls generalizing tys with
    | nil => exact .pure
    | cons decl rest ih =>
      exact .bind (Γ.loopVar_avoids decl _) fun _ => .bind (ih tys.tail) fun _ => .pure
  cases produced with
  | none => exact hlist []
  | some tys => exact .bind (.require (spared rfl)) fun _ => hlist tys

end Context

/-! ### Statements -/

theorem Context.declareVars_avoids_inner (Γ : Context) (decls : List Source.Decl)
    (values : List Source.Expr) (loc : Location) (h : Γ.scopes.inner ≠ []) :
    (Γ.declareVars decls values loc).Avoids itemOnly :=
  declareVars_avoids (fun _ hcause => hcause) Γ decls values loc fun hnil => absurd hnil h

/-- A body that sees names of its own. -/
theorem Context.body_avoids {α β : Type} {Γ : Context} {kind : VarKind} {decls : List Typed.Decl}
    {check : Context → Report α} {next : α → Report β} (h : Γ.scopes.inner ≠ [])
    (hcheck : ∀ Δ : Context, Δ.scopes.inner ≠ [] → (check Δ).Avoids itemOnly)
    (hnext : ∀ a, (next a).Avoids itemOnly) :
    (declareAll kind decls Γ >>= fun Δ => check Δ >>= next).Avoids itemOnly :=
  .bind_value (declareAll_avoids kind decls Γ fun hnil => absurd hnil h)
    (.bind (hcheck _ (declareAll_frames h).inner_ne_nil) hnext)

namespace Source.Stmt

open Context (enter_inner_ne_nil enterLoop_inner_ne_nil)

mutual

/-- **Statements report nothing about items.** -/
theorem check_avoids : ∀ (stmt : Source.Stmt) (Γ : Context), Γ.scopes.inner ≠ [] →
    (check Γ stmt).Avoids itemOnly
  | .declare decls values loc, Γ, h => by
    simp only [check]
    exact .bind (Γ.declareVars_avoids_inner decls values loc h) fun _ => .pure
  | .assign targets values loc, Γ, _ => by
    simp only [check]
    exact .bind (Γ.assign_avoids targets values loc) fun _ => .pure
  | .call expr loc, Γ, _ => by
    simp only [check]
    exact .bind (expr.check_avoids Γ _) fun _ => .pure
  | .block body loc, Γ, _ => by
    simp only [check]
    exact .bind (checkBlock_avoids body _ enter_inner_ne_nil) fun _ => .pure
  | .whileDo condition body loc, Γ, _ => by
    simp only [check]
    exact .bind (condition.check_avoids Γ _) fun _ =>
      .bind (checkBlock_avoids body _ enterLoop_inner_ne_nil) fun _ => .pure
  | .repeatUntil body condition loc, Γ, _ => by
    simp only [check]
    exact .bind (checkBlock_avoids body _ enterLoop_inner_ne_nil) fun _ =>
      .bind (condition.check_avoids _ _) fun _ => .pure
  | .branch condition thenBlock arms elseBlock loc, Γ, _ => by
    simp only [check]
    exact .bind (condition.check_avoids Γ _) fun _ =>
      .bind (checkBlock_avoids thenBlock _ enter_inner_ne_nil) fun _ =>
      .bind (checkArms_avoids arms Γ) fun _ => .bind (checkElse_avoids elseBlock Γ) fun _ => .pure
  | .numericFor decl start limit step body loc, Γ, _ => by
    simp only [check]
    exact .bind (Γ.numericHeader_avoids decl start limit step loc) fun _ =>
      Context.body_avoids enterLoop_inner_ne_nil (checkBlock_avoids body) fun _ => .pure
  | .genericFor decls values body loc, Γ, _ => by
    simp only [check]
    exact .bind (Γ.iterate_avoids values loc) fun iterated =>
      .bind (Γ.loopVars_avoids decls iterated.produced loc) fun _ =>
      Context.body_avoids enterLoop_inner_ne_nil (checkBlock_avoids body) fun _ => .pure
  | .ret values loc, Γ, _ => by
    simp only [check]
    exact .bind (Expr.checkValues_avoids Γ _ values _ 0) fun _ =>
      .bind (.require rfl) fun _ => .pure
  | .brk loc, Γ, _ => by
    simp only [check]
    exact .bind (.require rfl) fun _ => .pure

theorem checkBlock_avoids : ∀ (stmts : List Source.Stmt) (Γ : Context), Γ.scopes.inner ≠ [] →
    (checkBlock Γ stmts).Avoids itemOnly
  | [], Γ, _ => by
    simp only [checkBlock]
    exact .pure
  | stmt :: rest, Γ, h => by
    rw [checkBlock]
    exact .bind_value (check_avoids stmt Γ h)
      (.bind (checkBlock_avoids rest _ (check_frames h).inner_ne_nil) fun _ => .pure)

theorem checkArms_avoids : ∀ (arms : List Arm) (Γ : Context), (checkArms Γ arms).Avoids itemOnly
  | [], Γ => by
    simp only [checkArms]
    exact .pure
  | ⟨condition, body⟩ :: rest, Γ => by
    rw [checkArms]
    exact .bind (condition.check_avoids Γ _) fun _ =>
      .bind (checkBlock_avoids body _ enter_inner_ne_nil) fun _ =>
      .bind (checkArms_avoids rest Γ) fun _ => .pure

theorem checkElse_avoids : ∀ (body : Option (List Source.Stmt)) (Γ : Context),
    (checkElse Γ body).Avoids itemOnly
  | none, Γ => by
    simp only [checkElse]
    exact .pure
  | some body, Γ => by
    rw [checkElse]
    exact .bind (checkBlock_avoids body _ enter_inner_ne_nil) fun _ => .pure

end

end Source.Stmt

/-! ### Parts of items -/

namespace Context

variable {p : Violation → Bool}

theorem param_avoids (hp : ∀ cause, p cause = true → cause.itemOnly = true)
    (hparam : ∀ name, p (.missingParamType name) = false) (Γ : Context) (decl : Source.Decl) :
    (Γ.param decl).Avoids p :=
  .bind ((decl.stated_avoids Γ).mono hp) fun _ => .bind (.require (hparam _)) fun _ => .pure

theorem functionBody_avoids (hp : ∀ cause, p cause = true → cause.itemOnly = true)
    (hreturn : p .missingReturn = false) (Γ : Context) (params : List Typed.Decl)
    (returns : List Ty) (body : Source.Block) (loc : Location) :
    (Γ.functionBody params returns body loc).Avoids p := by
  have hinner : (Γ.enterFunction returns).scopes.inner ≠ [] := List.cons_ne_nil _ _
  have hparams : (Γ.enterFunction returns).Frames
      (declareAll .inner params (Γ.enterFunction returns)).value := declareAll_frames hinner
  have hbody := Source.Stmt.checkBlock_avoids body _ hparams.inner_ne_nil
  exact .bind_value (declareAll_avoids _ _ _ fun hnil => absurd hnil hinner)
    (.bind (hbody.mono hp) fun _ => .bind (.require hreturn) fun _ => .pure)

theorem moduleInit_avoids (Γ : Context) (name : String) (values : List Source.Expr)
    (loc : Location) : (Γ.moduleInit name values loc).Avoids itemOnly := by
  unfold moduleInit
  split
  · exact Source.Expr.check_avoids Γ _ _
  · exact .bind (.fault rfl) fun _ => .pure

theorem moduleReturn_avoids (hp : ∀ cause, p cause = true → cause.itemOnly = true)
    (hty : ∀ ty, p (.moduleReturnType ty) = false)
    (harity : ∀ found, p (.moduleReturnArity found) = false) (Γ : Context)
    (values : List Source.Expr) (loc : Location) : (Γ.moduleReturn values loc).Avoids p := by
  refine .bind (.mapM fun value => (value.check_avoids Γ _).mono hp) fun values => ?_
  split
  · exact .bind (.require (hty _)) fun _ => .pure
  · exact .bind (.fault (harity _)) fun _ => .pure

theorem recordFields_avoids (hp : ∀ cause, p cause = true → cause.itemOnly = true)
    (hmissing : ∀ name, p (.missingVarType name) = false)
    (hfield : ∀ record field, p (.duplicateRecordField record field) = false) (Γ : Context)
    (record : String) (decls : List Source.Decl) (known : NameMap Ty) :
    (Γ.recordFields record decls known).Avoids p := by
  induction decls generalizing known with
  | nil => exact .pure
  | cons decl rest ih =>
    rw [recordFields]
    refine .bind ((decl.stated_avoids Γ).mono hp) fun stated =>
      .bind (.require (hmissing _)) fun _ => ?_
    split
    · exact .bind (.fault (hfield _ _)) fun _ => ih known
    · exact ih _

end Context

end LuaTyping
