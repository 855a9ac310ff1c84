import LuaTyping.Checking.Expr
import LuaTyping.Proofs.Extension.Expr

/-!
# Checks told in other words

Where an `elseif` is written as an `if` of its own, its condition is checked as that of an `if`.
`first.Restates R second` says of two checks that their values are related by `R` and that the second
finds the same faults in the same order, except that it speaks of the condition of an `if` where the
first speaks of that of an `elseif`.

An expression looks at the names that a context gives a meaning to and not at the layers that they
live in, so it is checked alike in contexts that give the same names the same meaning
(`Expr.check_restates`).
-/

namespace LuaTyping

/-! ### Other words -/

/-- The place with an `if` for an `elseif`. -/
def Site.asIf : Site → Site
  | .condition keyword => .condition (if keyword = "elseif" then "if" else keyword)
  | site => site

/-- The violation with an `if` for an `elseif`. -/
def Violation.asIf : Violation → Violation
  | .typeMismatch expected found site => .typeMismatch expected found site.asIf
  | cause => cause

/-- The fault with an `if` for an `elseif`. -/
def Fault.asIf (fault : Fault) : Fault :=
  ⟨fault.cause.asIf, fault.loc⟩

/-- What is wanted, with an `if` for an `elseif`. -/
def Want.asIf (want : Want) : Want :=
  ⟨want.ty, want.site.asIf⟩

/-- The demand with an `if` for an `elseif`. -/
def Demand.asIf : Demand → Demand
  | .ofType want => .ofType want.asIf
  | demand => demand

namespace Report

variable {α β γ δ : Type} {R : α → β → Prop} {S : γ → δ → Prop}

/-- The values are related, and the second report tells the faults of the first in other words. -/
def Restates (R : α → β → Prop) (first : Report α) (second : Report β) : Prop :=
  R first.value second.value ∧ second.faults = first.faults.map Fault.asIf

namespace Restates

theorem pure {a : α} {b : β} (h : R a b) : (Pure.pure a : Report α).Restates R (Pure.pure b) :=
  ⟨h, rfl⟩

theorem bind {first : Report α} {second : Report β} {next : α → Report γ} {next' : β → Report δ}
    (h : first.Restates R second) (hnext : ∀ a b, R a b → (next a).Restates S (next' b)) :
    (first >>= next).Restates S (second >>= next') := by
  obtain ⟨hvalue, hfaults⟩ := hnext _ _ h.1
  refine ⟨hvalue, ?_⟩
  rw [faults_bind, faults_bind, h.2, hfaults, List.map_append]

/-- One check after another that gives the same value. -/
theorem andThen {first second : Report α} {next : α → Report γ} {next' : α → Report δ}
    (h : first.Restates Eq second) (hnext : ∀ a, (next a).Restates S (next' a)) :
    (first >>= next).Restates S (second >>= next') :=
  h.bind fun a _ hab => hab ▸ hnext a

theorem fault {cause cause' : Violation} {loc : Location} (h : cause' = cause.asIf) :
    (Report.fault cause loc).Restates Eq (Report.fault cause' loc) := by
  rw [h]
  exact ⟨rfl, rfl⟩

theorem require {condition : Bool} {cause : Violation} {loc : Location} (h : cause = cause.asIf) :
    (Report.require condition cause loc).Restates Eq (Report.require condition cause loc) := by
  unfold Report.require
  split
  · exact .pure rfl
  · exact .fault h

theorem orUnknown {found : Option Ty} {cause : Violation} {loc : Location}
    (h : cause = cause.asIf) :
    (Report.orUnknown found cause loc).Restates Eq (Report.orUnknown found cause loc) := by
  cases found with
  | some ty => exact .pure rfl
  | none => exact .andThen (.fault h) fun _ => .pure rfl

theorem mapM {check check' : γ → Report α} {inputs : List γ}
    (h : ∀ input, (check input).Restates Eq (check' input)) :
    (inputs.mapM check).Restates Eq (inputs.mapM check') := by
  induction inputs with
  | nil => exact .pure rfl
  | cons input rest ih =>
    rw [List.mapM_cons, List.mapM_cons]
    exact .andThen (h input) fun _ => .andThen ih fun _ => .pure rfl

end Restates

end Report

open Report (Restates)

/-! ### Coercion and operators -/

namespace Typed.Expr

theorem single_restates (expr : Expr) : expr.single.Restates Eq expr.single := by
  unfold single
  split
  · exact .andThen (.fault rfl) fun _ => .pure rfl
  · exact .pure rfl

theorem coerce_restates (expr : Expr) (want : Want) :
    (expr.coerce want).Restates Eq (expr.coerce want.asIf) := by
  unfold coerce Want.asIf
  split_ifs
  · exact .pure rfl
  · exact .pure rfl
  · exact .andThen (.fault rfl) fun _ => .pure rfl

theorem coerce?_restates (expr : Expr) (want : Option Want) :
    (expr.coerce? want).Restates Eq (expr.coerce? (want.map Want.asIf)) := by
  cases want with
  | none => exact .pure rfl
  | some want => exact expr.coerce_restates want

theorem results_restates (loc : Location) (want : Nat → Option Want) (position : Nat)
    (tys : List Ty) :
    (results loc want position tys).Restates Eq
      (results loc (fun j => (want j).map Want.asIf) position tys) := by
  induction tys generalizing position with
  | nil => exact .pure rfl
  | cons ty rest ih =>
    exact .andThen (coerce?_restates _ _) fun _ => .andThen (ih (position + 1)) fun _ => .pure rfl

theorem spread_restates (call : Expr) (want : Nat → Option Want) :
    (call.spread want).Restates Eq (call.spread fun j => (want j).map Want.asIf) :=
  .andThen (results_restates _ want 0 _) fun _ => .pure rfl

theorem unary_restates (op : UnaryOp) (operand : Expr) (loc : Location) :
    (unary op operand loc).Restates Eq (unary op operand loc) := by
  unfold unary
  split
  · exact .pure rfl
  · exact .andThen (.fault rfl) fun _ => .pure rfl

theorem binary_restates (op : BinaryOp) (left right : Expr) (loc : Location) :
    (binary op left right loc).Restates Eq (binary op left right loc) := by
  refine .andThen (.require rfl) fun _ => .andThen (.require rfl) fun _ => ?_
  split
  · refine .andThen (.require rfl) fun _ => ?_
    split <;> exact .pure rfl
  · split <;> exact .pure rfl

end Typed.Expr

theorem Demand.settle_restates (demand : Demand) (expr : Typed.Expr) :
    (demand.settle expr).Restates Eq (demand.asIf.settle expr) := by
  cases demand with
  | results => exact .pure rfl
  | value => exact expr.single_restates
  | ofType want => exact .andThen expr.single_restates fun value => value.coerce_restates want

theorem Want.at?_asIf (expected : List (Option Ty)) (site : Nat → Site) (position j : Nat) :
    Want.at? expected (fun i => (site i).asIf) position j =
      (Want.at? expected site position j).map Want.asIf := by
  rw [Want.at?, Want.at?, Option.map_map]
  rfl

theorem Demand.ofWant_asIf (want : Option Want) :
    Demand.ofWant (want.map Want.asIf) = (Demand.ofWant want).asIf := by
  cases want <;> rfl

theorem Values.ofCall_restates (call : Typed.Expr) (expected : List (Option Ty))
    (site : Nat → Site) (position : Nat) :
    (ofCall call expected site position).Restates Eq
      (ofCall call expected (fun i => (site i).asIf) position) := by
  unfold ofCall
  split
  · split
    · exact .andThen (.fault rfl) fun _ => .pure rfl
    · exact .pure rfl
  · rw [Want.at?_asIf]
    exact .andThen (call.coerce?_restates _) fun _ => .pure rfl
  · simp only [funext (Want.at?_asIf expected site position)]
    exact .andThen (call.spread_restates _) fun _ => .pure rfl

/-! ### Annotations -/

namespace TypeExpr

variable {scopes : Scopes}

mutual

theorem resolve_restates : ∀ (type : TypeExpr) (site : Location),
    (type.resolve scopes site).Restates Eq (type.resolve scopes site)
  | .nil, _ | .boolean, _ | .integer, _ | .float, _ | .string, _ | .any, _ => .pure rfl
  | .module, _ => .andThen (.fault rfl) fun _ => .pure rfl
  | .name _ _, _ => .orUnknown rfl
  | .array elem loc, _ => .andThen (resolve_restates elem loc) fun _ => .pure rfl
  | .table fields _, _ => .andThen (resolveFields_restates fields []) fun _ => .pure rfl
  | .function params returns loc, _ =>
    .andThen (resolveList_restates params loc) fun _ =>
      .andThen (resolveList_restates returns loc) fun _ => .pure rfl

theorem resolveList_restates : ∀ (types : List TypeExpr) (site : Location),
    (resolveList scopes types site).Restates Eq (resolveList scopes types site)
  | [], _ => .pure rfl
  | type :: rest, site =>
    .andThen (resolve_restates type site) fun _ =>
      .andThen (resolveList_restates rest site) fun _ => .pure rfl

theorem resolveFields_restates : ∀ (fields : List TypeField) (known : NameMap Ty),
    (resolveFields scopes fields known).Restates Eq (resolveFields scopes fields known)
  | [], _ => .pure rfl
  | ⟨key, type, loc⟩ :: rest, known => by
    refine .andThen (resolve_restates type loc) fun ty => ?_
    split
    · exact .andThen (.fault rfl) fun _ => resolveFields_restates rest known
    · exact resolveFields_restates rest _

end

end TypeExpr

/-! ### Contexts in which names have the same meaning -/

/-- The contexts differ at most in how their variables are distributed over layers. -/
structure Context.Alike (Γ Δ : Context) : Prop where
  var?_eq : ∀ name, Δ.scopes.var? name = Γ.scopes.var? name
  builtins_eq : Δ.scopes.builtins = Γ.scopes.builtins
  types_eq : Δ.scopes.types = Γ.scopes.types
  module_eq : Δ.module = Γ.module
  returns_eq : Δ.returns = Γ.returns
  inLoop_eq : Δ.inLoop = Γ.inLoop

namespace Context

variable {Γ Δ : Context}

theorem Alike.refl : Γ.Alike Γ :=
  ⟨fun _ => rfl, rfl, rfl, rfl, rfl, rfl⟩

theorem Alike.lookup_eq (h : Γ.Alike Δ) (name : String) :
    Δ.scopes.lookup name = Γ.scopes.lookup name := by
  rw [Scopes.lookup, Scopes.lookup, h.var?_eq, h.builtins_eq]

theorem Alike.library?_eq (h : Γ.Alike Δ) (expr : Source.Expr) :
    Δ.library? expr = Γ.library? expr := by
  unfold library?
  cases expr.name? with
  | none => rfl
  | some name => simp only [h.lookup_eq]

theorem Alike.resolve_restates (h : Γ.Alike Δ) (type : TypeExpr) (site : Location) :
    (type.resolve Γ.scopes site).Restates Eq (type.resolve Δ.scopes site) := by
  rw [TypeExpr.resolve_congr h.types_eq]
  exact TypeExpr.resolve_restates type site

theorem Alike.nameExpr_restates (h : Γ.Alike Δ) (name : String) (loc : Location) :
    (Γ.nameExpr name loc).Restates Eq (Δ.nameExpr name loc) := by
  unfold nameExpr
  rw [h.lookup_eq]
  split
  · exact .pure rfl
  · exact .pure rfl
  · exact .pure rfl
  · exact .andThen (.fault rfl) fun _ => .pure rfl
  · exact .andThen (.fault rfl) fun _ => .pure rfl

theorem Alike.fieldExpr_restates (h : Γ.Alike Δ) (object : Typed.Expr) (field : String)
    (loc : Location) :
    (Γ.fieldExpr object field loc).Restates Eq (Δ.fieldExpr object field loc) := by
  unfold fieldExpr
  rw [h.module_eq]
  split
  · exact .andThen (.orUnknown rfl) fun _ => .pure rfl
  · exact .andThen (.orUnknown rfl) fun _ => .pure rfl
  · exact .andThen (.orUnknown rfl) fun _ => .pure rfl
  · exact .pure rfl
  · exact .andThen (.fault rfl) fun _ => .pure rfl

end Context

theorem Ty.element_restates (ty : Ty) (loc : Location) :
    (ty.element loc).Restates Eq (ty.element loc) := by
  unfold Ty.element
  split
  · exact .pure rfl
  · exact .pure rfl
  · exact .andThen (.fault rfl) fun _ => .pure rfl

theorem requireFields_restates (target : Ty) (loc : Location) (given : List String)
    (fields : List (String × Ty)) :
    (requireFields target loc given fields).Restates Eq (requireFields target loc given fields) := by
  induction fields with
  | nil => exact .pure rfl
  | cons field rest ih => exact .andThen (.require rfl) fun _ => ih

/-! ### Expressions -/

namespace Source.Expr

variable {Γ Δ : Context}

mutual

/-- **Expressions are checked alike** where names have the same meaning. -/
theorem check_restates (h : Γ.Alike Δ) : ∀ (expr : Source.Expr) (demand : Demand),
    (check Γ expr demand).Restates Eq (check Δ expr demand.asIf)
  | .nil _, demand | .boolean _ _, demand | .integer _ _, demand | .float _ _, demand
  | .string _ _, demand => by
    simp only [check]
    exact demand.settle_restates _
  | .init entries loc, .ofType ⟨target, site⟩ => by
    simp only [check, Demand.asIf, Want.asIf]
    split
    · exact .andThen (checkItems_restates h _ entries) fun _ => .pure rfl
    · exact .andThen (checkFields_restates h _ _ entries []) fun _ =>
        .andThen (requireFields_restates _ _ _ _) fun _ => .pure rfl
    · exact .andThen (checkFields_restates h _ _ entries []) fun _ =>
        .andThen (requireFields_restates _ _ _ _) fun _ => .pure rfl
    · exact .andThen (.require rfl) fun _ => .pure rfl
    · exact .pure rfl
    · exact .andThen (.fault rfl) fun _ => .pure rfl
  | .init entries loc, .results | .init entries loc, .value => by
    simp only [check, Demand.asIf]
    exact .andThen (.fault rfl) fun _ => .andThen (checkUntyped_restates h entries) fun _ =>
      .pure rfl
  | .name text loc, demand => by
    simp only [check]
    exact .andThen (h.nameExpr_restates text loc) fun expr => demand.settle_restates expr
  | .index object key loc, demand => by
    simp only [check]
    exact .andThen (check_restates h object .value) fun array =>
      .andThen (array.ty.element_restates loc) fun _ =>
        .andThen (check_restates h key (.ofType ⟨.integer, .arrayIndex⟩)) fun _ =>
          demand.settle_restates _
  | .field object key loc, demand => by
    simp only [check, h.library?_eq]
    split
    · exact .andThen (.andThen (.orUnknown rfl) fun _ => .pure rfl) fun _ =>
        demand.settle_restates _
    · exact .andThen (check_restates h object .value) fun object =>
        .andThen (h.fieldExpr_restates object key loc) fun _ => demand.settle_restates _
  | .call callee args loc, demand => by
    simp only [check]
    refine .andThen (check_restates h callee .value) fun callee => ?_
    split
    · exact .andThen (checkValues_restates h _ args _ 0) fun _ => .andThen (.require rfl) fun _ =>
        demand.settle_restates _
    · exact .andThen (.require rfl) fun _ => .andThen (checkValues_restates h _ args _ 0) fun _ =>
        demand.settle_restates _
  | .unary op operand loc, demand => by
    simp only [check]
    exact .andThen (check_restates h operand .value) fun operand =>
      .andThen (operand.unary_restates op loc) fun _ => demand.settle_restates _
  | .binary left op right loc, demand => by
    simp only [check]
    exact .andThen (check_restates h left .value) fun left =>
      .andThen (check_restates h right .value) fun right =>
        .andThen (left.binary_restates op right loc) fun _ => demand.settle_restates _
  | .cast expr target loc, demand => by
    simp only [check]
    exact .andThen (check_restates h expr .value) fun _ =>
      .andThen (h.resolve_restates target loc) fun _ => .andThen (.require rfl) fun _ =>
        demand.settle_restates _
  | .paren expr loc, demand => by
    simp only [check]
    exact .andThen (check_restates h expr .value) fun _ => demand.settle_restates _

theorem checkValues_restates (h : Γ.Alike Δ) (site : Nat → Site) : ∀ (exprs : List Source.Expr)
    (expected : List (Option Ty)) (position : Nat),
      (checkValues Γ site exprs expected position).Restates Eq
        (checkValues Δ (fun i => (site i).asIf) exprs expected position)
  | [], _, _ => by
    simp only [checkValues]
    exact .pure rfl
  | expr :: rest, expected, position => by
    simp only [checkValues]
    split
    · exact .andThen (check_restates h expr .results) fun call =>
        Values.ofCall_restates call expected site position
    · rw [Want.at?_asIf, Demand.ofWant_asIf]
      exact .andThen (check_restates h expr _) fun _ =>
        .andThen (checkValues_restates h site rest _ _) fun _ => .pure rfl

theorem checkItems_restates (h : Γ.Alike Δ) (elem : Ty) : ∀ (entries : List Entry),
    (checkItems Γ elem entries).Restates Eq (checkItems Δ elem entries)
  | [] => by
    simp only [checkItems]
    exact .pure rfl
  | .positional value :: rest => by
    simp only [checkItems]
    exact .andThen (check_restates h value (.ofType ⟨elem, .arrayInitializer⟩)) fun _ =>
      .andThen (checkItems_restates h elem rest) fun _ => .pure rfl
  | .named key value loc :: rest => by
    simp only [checkItems]
    exact .andThen (.fault rfl) fun _ => checkItems_restates h elem rest

theorem checkFields_restates (h : Γ.Alike Δ) (target : Ty) (fields : List (String × Ty)) :
    ∀ (entries : List Entry) (seen : List String),
      (checkFields Γ target fields entries seen).Restates Eq
        (checkFields Δ target fields entries seen)
  | [], _ => by
    simp only [checkFields]
    exact .pure rfl
  | .positional value :: rest, seen => by
    simp only [checkFields]
    exact .andThen (.fault rfl) fun _ => checkFields_restates h target fields rest seen
  | .named key value loc :: rest, seen => by
    simp only [checkFields]
    split
    · exact .andThen (.fault rfl) fun _ => checkFields_restates h target fields rest seen
    · split
      · exact .andThen (check_restates h value (.ofType ⟨_, .initializerField key⟩)) fun _ =>
          .andThen (checkFields_restates h target fields rest _) fun _ => .pure rfl
      · exact .andThen (.fault rfl) fun _ => checkFields_restates h target fields rest _

theorem checkUntyped_restates (h : Γ.Alike Δ) : ∀ (entries : List Entry),
    (checkUntyped Γ entries).Restates Eq (checkUntyped Δ entries)
  | [] => by
    simp only [checkUntyped]
    exact .pure rfl
  | .positional value :: rest | .named _ value _ :: rest => by
    simp only [checkUntyped]
    split
    · exact checkUntyped_restates h rest
    · exact .andThen (check_restates h value .value) fun _ => checkUntyped_restates h rest

end

end Source.Expr

/-! ### Locations -/

theorem Demand.loc_settle (demand : Demand) (expr : Typed.Expr) :
    (demand.settle expr).value.loc = expr.loc := by
  have hsingle : expr.single.value.loc = expr.loc := by
    unfold Typed.Expr.single
    split <;> rfl
  cases demand with
  | results => rfl
  | value => exact hsingle
  | ofType want =>
    simp only [settle, Report.value_bind, Typed.Expr.coerce]
    split_ifs <;> exact hsingle

namespace Context

theorem loc_nameExpr (Γ : Context) (name : String) (loc : Location) :
    (Γ.nameExpr name loc).value.loc = loc := by
  unfold nameExpr
  split <;> rfl

theorem loc_fieldExpr (Γ : Context) (object : Typed.Expr) (field : String) (loc : Location) :
    (Γ.fieldExpr object field loc).value.loc = loc := by
  unfold fieldExpr
  split <;> rfl

end Context

namespace Typed.Expr

theorem loc_unary (op : UnaryOp) (operand : Expr) (loc : Location) :
    (unary op operand loc).value.loc = loc := by
  unfold unary
  split <;> rfl

theorem loc_operation (op : BinaryOp) (left right : Expr) (loc : Location) :
    (operation op left right loc).loc = loc := by
  unfold operation
  split
  · split_ifs <;> rfl
  all_goals rfl

theorem loc_binary (op : BinaryOp) (left right : Expr) (loc : Location) :
    (binary op left right loc).value.loc = loc := by
  simp only [binary, comparison, Report.value_bind]
  split_ifs
  · rfl
  · rfl
  · exact loc_operation op left right loc
  · rfl

end Typed.Expr

/-- A typed expression stands where its source stands. -/
theorem Source.Expr.loc_check (Γ : Context) (expr : Source.Expr) (demand : Demand) :
    (check Γ expr demand).value.loc = expr.loc := by
  cases expr with
  | init entries loc =>
    cases demand with
    | ofType want =>
      simp only [check]
      split <;> rfl
    | _ => simp only [check, Report.value_bind, Report.value_pure, Expr.loc]
  | field object key loc =>
    simp only [check]
    split <;> simp only [Report.value_bind, Demand.loc_settle, Context.loc_fieldExpr] <;> rfl
  | call callee args loc =>
    simp only [check, Report.value_bind]
    split <;> simp only [Report.value_bind, Demand.loc_settle] <;> rfl
  | _ =>
    simp only [check, Report.value_bind, Demand.loc_settle, Context.loc_nameExpr,
      Typed.Expr.loc_unary, Typed.Expr.loc_binary, Expr.loc]

end LuaTyping
