import LuaTyping.Proofs.Scalar.Body
import Mathlib.Data.List.Flatten

/-!
# Where expressions look a name up

`uses all n` lists the places where an expression uses the name `n`, those in table constructors
only if `all` are asked for.  `looks Γ n` lists the places where the check looks the name up.  It
goes through the same subexpressions, except that not every entry of a constructor is looked at:
`Entry.taken` says which ones are.

For a name that is not in sight, the check reports it as undeclared exactly where it looks it up
(`check_reports`), whatever else it reports.
-/

namespace LuaTyping

variable {α β : Type}

/-! ### Reports on an undeclared name -/

/-- Whether the violation is a use of the name, which is not declared. -/
def Violation.isUndeclared (n : String) : Violation → Bool
  | .undeclaredName name => name = n
  | _ => false

open Violation (Foreign isUndeclared)
open Report (Avoids)

instance {n : String} : Foreign (isUndeclared n) where
  nameOrItem cause h := by
    cases cause with
    | undeclaredName name => rfl
    | _ => cases h

namespace Report

variable {n : String}

/-- The places at which the name is reported as undeclared. -/
def undeclared (n : String) (report : Report α) : List Location :=
  (report.faults.filter (·.cause.isUndeclared n)).map (·.loc)

theorem mem_undeclared {report : Report α} {loc : Location} :
    loc ∈ report.undeclared n ↔ ⟨.undeclaredName n, loc⟩ ∈ report.faults := by
  simp only [undeclared, List.mem_map, List.mem_filter]
  constructor
  · rintro ⟨⟨cause, place⟩, ⟨hmem, hcause⟩, rfl⟩
    cases cause with
    | undeclaredName name =>
      rw [show name = n from of_decide_eq_true hcause] at hmem
      exact hmem
    | _ => cases hcause
  · intro hmem
    exact ⟨_, ⟨hmem, decide_eq_true rfl⟩, rfl⟩

@[simp]
theorem undeclared_pure (value : α) : (pure value : Report α).undeclared n = [] :=
  rfl

@[simp]
theorem undeclared_bind (first : Report α) (next : α → Report β) :
    (first >>= next).undeclared n = first.undeclared n ++ (next first.value).undeclared n := by
  simp [undeclared]

@[simp]
theorem undeclared_map (f : α → β) (report : Report α) :
    (f <$> report).undeclared n = report.undeclared n := by
  rw [undeclared, faults_map, undeclared]

theorem Avoids.undeclared {report : Report α} (h : report.Avoids (isUndeclared n)) :
    report.undeclared n = [] := by
  rw [Report.undeclared, List.filter_eq_nil_iff.mpr, List.map_nil]
  intro fault hfault
  simp [h fault hfault]

@[simp]
theorem undeclared_fault (cause : Violation) (loc : Location) :
    (fault cause loc).undeclared n = if cause.isUndeclared n then [loc] else [] := by
  unfold undeclared
  split <;> simp_all

@[simp]
theorem undeclared_require (condition : Bool) (cause : Violation) (loc : Location) :
    (require condition cause loc).undeclared n =
      if condition then [] else if cause.isUndeclared n then [loc] else [] := by
  cases condition
  · exact undeclared_fault cause loc
  · rfl

theorem undeclared_mapM (check : α → Report β) (inputs : List α) :
    (inputs.mapM check).undeclared n = inputs.flatMap fun input => (check input).undeclared n := by
  induction inputs with
  | nil => rfl
  | cons input rest ih =>
    rw [List.mapM_cons, undeclared_bind, undeclared_bind, ih, undeclared_pure, List.append_nil,
      List.flatMap_cons]

end Report

/-- The type that is asked for, if one is. -/
def Demand.type? : Demand → Option Ty
  | .ofType want => some want.ty
  | .results | .value => none

theorem Demand.type?_at (expected : List (Option Ty)) (site : Nat → Site) (position : Nat) :
    (Demand.ofWant (Want.at? expected site position 0)).type? = expected.head?.join := by
  unfold Want.at?
  cases expected with
  | nil => rfl
  | cons first rest => cases first <;> rfl

/-- A name that stands for nothing. -/
def Context.Lacks (Γ : Context) (n : String) : Prop :=
  Γ.scopes.lookup n = none

/-! ### Uses in the text -/

namespace Source.Expr

mutual

/-- The places where the expression uses the name, those in constructors only if `all` are asked
for. -/
def uses (all : Bool) (n : String) : Expr → List Location
  | .nil _ | .boolean .. | .integer .. | .float .. | .string .. => []
  | .name text loc => if text = n then [loc] else []
  | .init entries _ => if all then entryUses all n entries else []
  | .index object key _ => uses all n object ++ uses all n key
  | .field object _ _ => uses all n object
  | .call callee args _ => uses all n callee ++ listUses all n args
  | .unary _ operand _ => uses all n operand
  | .binary left _ right _ => uses all n left ++ uses all n right
  | .cast expr _ _ | .paren expr _ => uses all n expr

/-- The places where the expressions use the name. -/
def listUses (all : Bool) (n : String) : List Expr → List Location
  | [] => []
  | expr :: rest => uses all n expr ++ listUses all n rest

/-- The places where the entries of a constructor use the name. -/
def entryUses (all : Bool) (n : String) : List Entry → List Location
  | [] => []
  | .positional value :: rest | .named _ value _ :: rest => uses all n value ++ entryUses all n rest

end

end Source.Expr

/-! ### Look-ups -/

/-- What is expected of the arguments of something of this type, if it can be called. -/
def Ty.expectedArgs : Ty → List (Option Ty)
  | .function params _ => params.map some
  | _ => []

theorem Ty.expectedArgs_eq_nil {ty : Ty} (h : ∀ params returns, ty ≠ .function params returns) :
    ty.expectedArgs = [] := by
  cases ty with
  | function params returns => exact absurd rfl (h params returns)
  | _ => rfl

/-- What is expected of the value of an entry, if the check looks at it.  An array takes positional
entries and a table or record the first entry for each of its fields; without a type, every entry is
looked at that is not a constructor itself. -/
def Source.Entry.taken (expected : Option Ty) (seen : List String) :
    Source.Entry → Option (Option Ty)
  | .positional value =>
    match expected with
    | none => if value.isInit then none else some none
    | some (.array elem) => some (some elem)
    | some _ => none
  | .named key value _ =>
    match expected with
    | none => if value.isInit then none else some none
    | some target =>
      if key ∈ seen then none else (target.fields?.bind (·.lookup key)).map some

namespace Source.Expr

mutual

/-- The places where the check of an expression looks the name up, if a type is expected or none. -/
def looks (Γ : Context) (n : String) : Expr → Option Ty → List Location
  | .nil _, _ | .boolean .., _ | .integer .., _ | .float .., _ | .string .., _ => []
  | .name text loc, _ => if text = n then [loc] else []
  | .init entries _, expected => entryLooks Γ n expected entries []
  | .index object key _, _ => looks Γ n object none ++ looks Γ n key (some .integer)
  | .field object _ _, _ => looks Γ n object none
  | .call callee args _, _ =>
    looks Γ n callee none ++ listLooks Γ n args (check Γ callee .value).value.ty.expectedArgs
  | .unary _ operand _, _ => looks Γ n operand none
  | .binary left _ right _, _ => looks Γ n left none ++ looks Γ n right none
  | .cast expr _ _, _ | .paren expr _, _ => looks Γ n expr none

/-- The look-ups in a list of expressions. -/
def listLooks (Γ : Context) (n : String) : List Expr → List (Option Ty) → List Location
  | [], _ => []
  | expr :: rest, expected =>
    looks Γ n expr expected.head?.join ++ listLooks Γ n rest expected.tail

/-- The look-ups in the entries of a constructor; `seen` lists the names of the entries before. -/
def entryLooks (Γ : Context) (n : String) (expected : Option Ty) :
    List Entry → List String → List Location
  | [], _ => []
  | .positional value :: rest, seen =>
    ((Entry.positional value).taken expected seen).elim [] (looks Γ n value) ++
      entryLooks Γ n expected rest seen
  | .named key value loc :: rest, seen =>
    ((Entry.named key value loc).taken expected seen).elim [] (looks Γ n value) ++
      entryLooks Γ n expected rest (seen.insert key)

end

end Source.Expr

/-! ### Look-ups and uses -/

/-- The list has all places of `least` and no places but those of `most`, in their order. -/
structure Between (least places most : List Location) : Prop where
  least : least.Sublist places
  most : places.Sublist most

namespace Between

variable {least places most least' places' most' : List Location}

theorem refl : Between places places places :=
  ⟨.refl _, .refl _⟩

theorem append (h : Between least places most) (h' : Between least' places' most') :
    Between (least ++ least') (places ++ places') (most ++ most') :=
  ⟨h.least.append h'.least, h.most.append h'.most⟩

theorem flatMap {inputs : List α} {f g h : α → List Location}
    (hinputs : ∀ input, Between (f input) (g input) (h input)) :
    Between (inputs.flatMap f) (inputs.flatMap g) (inputs.flatMap h) :=
  ⟨.flatMap_right inputs fun input _ => (hinputs input).least,
    .flatMap_right inputs fun input _ => (hinputs input).most⟩

end Between

namespace Source.Expr

section Between

variable {Γ : Context} {n : String}

mutual

/-- **Names in plain sight are looked up**, and every look-up is a use. -/
theorem looks_between : ∀ (expr : Source.Expr) (expected : Option Ty),
    Between (uses false n expr) (looks Γ n expr expected) (uses true n expr)
  | .nil _, _ | .boolean _ _, _ | .integer _ _, _ | .float _ _, _ | .string _ _, _
  | .name _ _, _ => by
    simp only [uses, looks]
    exact .refl
  | .init entries loc, _ => by
    simp only [uses, looks, if_true]
    exact ⟨List.nil_sublist _, entryLooks_sublist entries _ _⟩
  | .index object key loc, _ => by
    simp only [uses, looks]
    exact (looks_between object _).append (looks_between key _)
  | .field object key loc, _ => by
    simp only [uses, looks]
    exact looks_between object _
  | .call callee args loc, _ => by
    simp only [uses, looks]
    exact (looks_between callee _).append (listLooks_between args _)
  | .unary op operand loc, _ => by
    simp only [uses, looks]
    exact looks_between operand _
  | .binary left op right loc, _ => by
    simp only [uses, looks]
    exact (looks_between left _).append (looks_between right _)
  | .cast expr target loc, _ => by
    simp only [uses, looks]
    exact looks_between expr _
  | .paren expr loc, _ => by
    simp only [uses, looks]
    exact looks_between expr _

theorem listLooks_between : ∀ (exprs : List Source.Expr) (expected : List (Option Ty)),
    Between (listUses false n exprs) (listLooks Γ n exprs expected) (listUses true n exprs)
  | [], _ => by
    simp only [listUses, listLooks]
    exact .refl
  | expr :: rest, _ => by
    simp only [listUses, listLooks]
    exact (looks_between expr _).append (listLooks_between rest _)

theorem entryLooks_sublist : ∀ (entries : List Entry) (expected : Option Ty) (seen : List String),
    (entryLooks Γ n expected entries seen).Sublist (entryUses true n entries)
  | [], _, _ => by
    simp only [entryLooks]
    exact List.nil_sublist _
  | .positional value :: rest, expected, seen => by
    simp only [entryUses, entryLooks]
    refine .append ?_ (entryLooks_sublist rest _ _)
    cases (Entry.positional value).taken expected seen with
    | none => exact List.nil_sublist _
    | some wanted => exact (looks_between value wanted).most
  | .named key value loc :: rest, expected, seen => by
    simp only [entryUses, entryLooks]
    refine .append ?_ (entryLooks_sublist rest _ _)
    cases (Entry.named key value loc).taken expected seen with
    | none => exact List.nil_sublist _
    | some wanted => exact (looks_between value wanted).most

end

end Between

/-- Nothing is looked up in a constructor whose entries are all passed over. -/
theorem entryLooks_eq_nil {Γ : Context} {n : String} {expected : Option Ty}
    (h : ∀ (entry : Entry) (seen : List String), entry.taken expected seen = none)
    (entries : List Entry) (seen : List String) : entryLooks Γ n expected entries seen = [] := by
  induction entries generalizing seen with
  | nil => simp only [entryLooks]
  | cons entry rest ih =>
    cases entry <;> simp only [entryLooks, h, ih, Option.elim, List.append_nil]

end Source.Expr

/-! ### Reports on expressions -/

section Reports

variable {Γ : Context} {n : String}

@[simp]
theorem Demand.undeclared_settle (demand : Demand) (expr : Typed.Expr) :
    (demand.settle expr).undeclared n = [] :=
  (demand.settle_avoids expr).undeclared

namespace Context

theorem Lacks.ne_of_lookup (h : Γ.Lacks n) {name : String} {found : Resolved}
    (hname : Γ.scopes.lookup name = some found) : name ≠ n := by
  rintro rfl
  rw [h] at hname
  cases hname

theorem undeclared_nameExpr (h : Γ.Lacks n) (name : String) (loc : Location) :
    (Γ.nameExpr name loc).undeclared n = if name = n then [loc] else [] := by
  unfold nameExpr
  split
  case h_5 hname =>
    simp [isUndeclared]
  all_goals
    rename_i hname
    simp [isUndeclared, h.ne_of_lookup hname]

/-- A library is in sight. -/
theorem Lacks.looks_of_library? (h : Γ.Lacks n) {object : Source.Expr}
    {library : String × NameMap Ty} (hlib : Γ.library? object = some library) :
    object.looks Γ n none = [] := by
  cases object with
  | name text loc =>
    have hne : text ≠ n := by
      rintro rfl
      simp [library?, Source.Expr.name?, show Γ.scopes.lookup text = none from h] at hlib
    simp only [Source.Expr.looks, if_neg hne]
  | _ => cases hlib

end Context

namespace Source.Expr

mutual

/-- **An undeclared name is reported where it is looked up**, and nowhere else. -/
theorem check_reports (h : Γ.Lacks n) : ∀ (expr : Source.Expr) (demand : Demand),
    (check Γ expr demand).undeclared n = looks Γ n expr demand.type?
  | .nil _, demand | .boolean _ _, demand | .integer _ _, demand | .float _ _, demand
  | .string _ _, demand => by
    simp only [check, looks, Demand.undeclared_settle]
  | .init entries loc, .ofType ⟨target, site⟩ => by
    simp only [looks, Demand.type?]
    cases target with
    | array elem =>
      simp only [check, Report.undeclared_bind, Report.undeclared_pure, List.append_nil,
        checkItems_reports h elem entries []]
    | table fields | record _ fields =>
      simp only [check, Report.undeclared_bind, Report.undeclared_pure, List.append_nil,
        (requireFields_avoids _ _ _ _).undeclared]
      exact checkFields_reports h rfl entries []
    | module fields =>
      rw [entryLooks_eq_nil fun entry seen => by cases entry <;> simp [Entry.taken, Ty.fields?]]
      simp [check, isUndeclared]
    | _ =>
      rw [entryLooks_eq_nil fun entry seen => by cases entry <;> simp [Entry.taken, Ty.fields?]]
      simp [check, isUndeclared]
  | .init entries loc, .value | .init entries loc, .results => by
    simp [check, looks, Demand.type?, isUndeclared, checkUntyped_reports h entries []]
  | .name text loc, demand => by
    simp [check, looks, Context.undeclared_nameExpr h]
  | .index object key loc, demand => by
    simp only [check, looks, Report.undeclared_bind, check_reports h object,
      check_reports h key, (Ty.element_avoids _ _).undeclared, Demand.undeclared_settle,
      Demand.type?, List.nil_append, List.append_nil]
  | .field object key loc, demand => by
    simp only [check, looks]
    split
    · next library members hlib =>
      simp only [Report.undeclared_bind, (Typed.Expr.ofMember_avoids _ _ _ _).undeclared,
        Demand.undeclared_settle, h.looks_of_library? hlib, List.append_nil]
    · simp only [Report.undeclared_bind, check_reports h object,
        (Γ.fieldExpr_avoids _ _ _).undeclared, Demand.undeclared_settle, Demand.type?,
        List.append_nil]
  | .call callee args loc, demand => by
    simp only [check, looks, Report.undeclared_bind, check_reports h callee, Demand.type?]
    congr 1
    split
    · next params returns hty =>
      simp [hty, Ty.expectedArgs, checkValues_reports h _ args, isUndeclared]
    · next hty =>
      rw [Ty.expectedArgs_eq_nil hty]
      simp [checkValues_reports h _ args, isUndeclared]
  | .unary op operand loc, demand => by
    simp only [check, looks, Report.undeclared_bind, check_reports h operand,
      (Typed.Expr.unary_avoids _ _ _).undeclared, Demand.undeclared_settle, Demand.type?,
      List.append_nil]
  | .binary left op right loc, demand => by
    simp only [check, looks, Report.undeclared_bind, check_reports h left,
      check_reports h right, (Typed.Expr.binary_avoids _ _ _ _).undeclared,
      Demand.undeclared_settle, Demand.type?, List.append_nil]
  | .cast expr target loc, demand => by
    simp [check, looks, check_reports h expr, (TypeExpr.resolve_avoids _ _ _).undeclared,
      Demand.type?, isUndeclared]
  | .paren expr loc, demand => by
    simp only [check, looks, Report.undeclared_bind, check_reports h expr,
      Demand.undeclared_settle, Demand.type?, List.append_nil]

theorem checkValues_reports (h : Γ.Lacks n) (site : Nat → Site) :
    ∀ (exprs : List Source.Expr) (expected : List (Option Ty)) (position : Nat),
      (checkValues Γ site exprs expected position).undeclared n = listLooks Γ n exprs expected
  | [], _, _ => by
    simp only [checkValues, listLooks, Report.undeclared_pure]
  | expr :: rest, expected, position => by
    rw [checkValues, listLooks]
    split
    · next hlast =>
      -- What is expected of the first result of a call is settled behind the call.
      obtain ⟨hrest, hcall⟩ := Bool.and_eq_true_iff.mp hlast
      rw [List.isEmpty_iff.mp hrest, listLooks, List.append_nil, Report.undeclared_bind,
        check_reports h expr, (Values.ofCall_avoids _ _ _ _).undeclared, List.append_nil]
      cases expr with
      | call callee args loc => simp only [looks]
      | _ => cases hcall
    · rw [Report.undeclared_bind, Report.undeclared_bind, Report.undeclared_pure, List.append_nil,
        check_reports h expr, Demand.type?_at, checkValues_reports h site rest]

theorem checkItems_reports (h : Γ.Lacks n) (elem : Ty) :
    ∀ (entries : List Entry) (seen : List String), (checkItems Γ elem entries).undeclared n =
      entryLooks Γ n (some (.array elem)) entries seen
  | [], _ => by
    simp only [checkItems, entryLooks, Report.undeclared_pure]
  | .positional value :: rest, seen => by
    simp only [checkItems, entryLooks, Report.undeclared_bind, Report.undeclared_pure,
      check_reports h value, checkItems_reports h elem rest seen, Entry.taken, Option.elim,
      Demand.type?, List.append_nil]
  | .named key value loc :: rest, seen => by
    simp [checkItems, entryLooks, Entry.taken, Ty.fields?, isUndeclared,
      checkItems_reports h elem rest (seen.insert key)]

theorem checkFields_reports (h : Γ.Lacks n) {target : Ty} {fields : List (String × Ty)}
    (ht : target.fields? = some fields) : ∀ (entries : List Entry) (seen : List String),
      (checkFields Γ target fields entries seen).undeclared n =
        entryLooks Γ n (some target) entries seen
  | [], _ => by
    simp only [checkFields, entryLooks, Report.undeclared_pure]
  | .positional value :: rest, seen => by
    have htaken : (Entry.positional value).taken (some target) seen = none := by
      cases target <;> first | rfl | cases ht
    simp [checkFields, entryLooks, htaken, isUndeclared, checkFields_reports h ht rest seen]
  | .named key value loc :: rest, seen => by
    rw [checkFields, entryLooks]
    by_cases hseen : key ∈ seen
    · simp [hseen, Entry.taken, isUndeclared, checkFields_reports h ht rest seen]
    · cases hl : fields.lookup key with
      | none =>
        simp [hseen, hl, ht, Entry.taken, isUndeclared,
          checkFields_reports h ht rest (key :: seen)]
      | some ty =>
        simp [hseen, hl, ht, Entry.taken, check_reports h value, Demand.type?,
          checkFields_reports h ht rest (key :: seen)]

theorem checkUntyped_reports (h : Γ.Lacks n) : ∀ (entries : List Entry) (seen : List String),
    (checkUntyped Γ entries).undeclared n = entryLooks Γ n none entries seen
  | [], _ => by
    simp only [checkUntyped, entryLooks, Report.undeclared_pure]
  | .positional value :: rest, seen => by
    rw [checkUntyped, entryLooks]
    cases hinit : value.isInit with
    | true => simp [hinit, Entry.taken, checkUntyped_reports h rest seen]
    | false =>
      simp [hinit, Entry.taken, check_reports h value, Demand.type?,
        checkUntyped_reports h rest seen]
  | .named key value loc :: rest, seen => by
    rw [checkUntyped, entryLooks]
    cases hinit : value.isInit with
    | true => simp [hinit, Entry.taken, checkUntyped_reports h rest (seen.insert key)]
    | false =>
      simp [hinit, Entry.taken, check_reports h value, Demand.type?,
        checkUntyped_reports h rest (seen.insert key)]

end

end Source.Expr

end Reports

end LuaTyping
