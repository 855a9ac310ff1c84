import LuaTyping.Proofs.Proper.Item

/-!
# Annotations

The annotations of a program, in the order of the text: those of declared names, parameters, results
and record fields, type aliases, and the targets of casts.  An annotation with the `module` type in
it does not resolve (`TypeExpr.hasModule_of_resolve`), and where no type is unknown every annotation
is resolved.  So checked expressions and statements are free of the `module` type.
-/

namespace LuaTyping

variable {modules : Bool} {Γ Δ : Context} {loc : Location}

/-! ### The annotations of a program -/

namespace TypeExpr

mutual

/-- Whether the `module` type occurs in the annotation, at any depth. -/
def hasModule : TypeExpr → Bool
  | .module => true
  | .array elem _ => elem.hasModule
  | .table fields _ => fieldsHaveModule fields
  | .function params returns _ => listHasModule params || listHasModule returns
  | _ => false

/-- Whether the `module` type occurs in annotations of a list. -/
def listHasModule : List TypeExpr → Bool
  | [] => false
  | type :: rest => type.hasModule || listHasModule rest

/-- Whether the `module` type occurs in the types of fields. -/
def fieldsHaveModule : List TypeField → Bool
  | [] => false
  | ⟨_, type, _⟩ :: rest => type.hasModule || fieldsHaveModule rest

end

end TypeExpr

namespace Source

mutual

/-- The annotations in an expression. -/
def Expr.annotations : Expr → List TypeExpr
  | .init entries _ => Entry.annotations entries
  | .index object key _ => object.annotations ++ key.annotations
  | .field object _ _ => object.annotations
  | .call callee args _ => callee.annotations ++ Expr.listAnnotations args
  | .unary _ operand _ => operand.annotations
  | .binary left _ right _ => left.annotations ++ right.annotations
  | .cast expr target _ => expr.annotations ++ [target]
  | .paren expr _ => expr.annotations
  | _ => []

/-- The annotations in the expressions of a list. -/
def Expr.listAnnotations : List Expr → List TypeExpr
  | [] => []
  | expr :: rest => expr.annotations ++ Expr.listAnnotations rest

/-- The annotations in the entries of a table constructor. -/
def Entry.annotations : List Entry → List TypeExpr
  | [] => []
  | .positional value :: rest => value.annotations ++ Entry.annotations rest
  | .named _ value _ :: rest => value.annotations ++ Entry.annotations rest

end

/-- The annotations of declared names. -/
def Decl.annotations (decls : List Decl) : List TypeExpr :=
  decls.flatMap (·.type.toList)

mutual

/-- The annotations in a statement. -/
def Stmt.annotations : Stmt → List TypeExpr
  | .declare decls values _ => Decl.annotations decls ++ Expr.listAnnotations values
  | .assign targets values _ => Expr.listAnnotations targets ++ Expr.listAnnotations values
  | .call expr _ => expr.annotations
  | .block body _ => Stmt.listAnnotations body
  | .whileDo condition body _ => condition.annotations ++ Stmt.listAnnotations body
  | .repeatUntil body condition _ => Stmt.listAnnotations body ++ condition.annotations
  | .branch condition thenBlock arms elseBlock _ =>
    condition.annotations ++ Stmt.listAnnotations thenBlock ++ Arm.annotations arms ++
      Stmt.elseAnnotations elseBlock
  | .numericFor decl start limit step body _ =>
    Decl.annotations [decl] ++ start.annotations ++ limit.annotations ++
      Expr.listAnnotations step.toList ++ Stmt.listAnnotations body
  | .genericFor decls values body _ =>
    Decl.annotations decls ++ Expr.listAnnotations values ++ Stmt.listAnnotations body
  | .ret values _ => Expr.listAnnotations values
  | .brk _ => []

/-- The annotations in the statements of a block. -/
def Stmt.listAnnotations : List Stmt → List TypeExpr
  | [] => []
  | stmt :: rest => stmt.annotations ++ Stmt.listAnnotations rest

/-- The annotations in `elseif`s. -/
def Arm.annotations : List Arm → List TypeExpr
  | [] => []
  | ⟨condition, body⟩ :: rest =>
    condition.annotations ++ Stmt.listAnnotations body ++ Arm.annotations rest

/-- The annotations in the block of an `else`. -/
def Stmt.elseAnnotations : Option (List Stmt) → List TypeExpr
  | none => []
  | some body => Stmt.listAnnotations body

end

/-- The annotations in an item. -/
def Item.annotations : Item → List TypeExpr
  | .var decls values _ => Decl.annotations decls ++ Expr.listAnnotations values
  | .function decl =>
    Decl.annotations decl.params ++ decl.returns ++ Stmt.listAnnotations decl.body
  | .assign targets values _ => Expr.listAnnotations targets ++ Expr.listAnnotations values
  | .record _ fields _ => Decl.annotations fields
  | .alias _ type _ => [type]
  | .ret values _ => Expr.listAnnotations values

end Source

/-- Whether the `module` type occurs in none of the annotations. -/
def ModuleFree (types : List TypeExpr) : Prop :=
  ∀ type ∈ types, type.hasModule = false

namespace ModuleFree

variable {type : TypeExpr} {types types' : List TypeExpr}

@[simp]
theorem nil_iff : ModuleFree [] ↔ True := by simp [ModuleFree]

@[simp]
theorem cons_iff : ModuleFree (type :: types) ↔ type.hasModule = false ∧ ModuleFree types := by
  simp [ModuleFree]

@[simp]
theorem append_iff : ModuleFree (types ++ types') ↔ ModuleFree types ∧ ModuleFree types' := by
  simp only [ModuleFree, List.mem_append, or_imp, forall_and]

theorem listAnnotations_iff {exprs : List Source.Expr} :
    ModuleFree (Source.Expr.listAnnotations exprs) ↔
      ∀ expr ∈ exprs, ModuleFree expr.annotations := by
  induction exprs with
  | nil => simp [Source.Expr.listAnnotations]
  | cons expr rest ih => simp [Source.Expr.listAnnotations, ih]

theorem declAnnotations_iff {decls : List Source.Decl} :
    ModuleFree (Source.Decl.annotations decls) ↔
      ∀ decl ∈ decls, ∀ type, decl.type = some type → type.hasModule = false := by
  simp only [ModuleFree, Source.Decl.annotations, List.mem_flatMap, Option.mem_toList]
  exact ⟨fun h decl hd type ht => h type ⟨decl, hd, ht⟩,
    fun h type ⟨decl, hd, ht⟩ => h decl hd type ht⟩

end ModuleFree

/-! ### Resolved annotations -/

namespace TypeExpr

variable {scopes : Scopes}

mutual

/-- **An annotation that resolves** has no `module` type in it. -/
theorem hasModule_of_resolve : ∀ {type : TypeExpr} {site : Location} {ty : Ty},
    (type.resolve scopes site).Yields ty → type.hasModule = false
  | .nil, _, _, _ | .boolean, _, _, _ | .integer, _, _, _ | .float, _, _, _ | .string, _, _, _
  | .any, _, _, _ | .name _ _, _, _, _ => by simp only [hasModule]
  | .module, _, _, h => by simp [resolve] at h
  | .array elem loc, _, _, h => by
    simp only [resolve, Report.yields_bind] at h
    obtain ⟨_, he, -⟩ := h
    rw [hasModule]
    exact hasModule_of_resolve he
  | .table fields loc, _, _, h => by
    simp only [resolve, Report.yields_bind] at h
    obtain ⟨_, hf, -⟩ := h
    rw [hasModule]
    exact fieldsHaveModule_of_resolve hf
  | .function params returns loc, _, _, h => by
    simp only [resolve, Report.yields_bind] at h
    obtain ⟨_, hp, _, hr, -⟩ := h
    rw [hasModule, listHasModule_of_resolve hp, listHasModule_of_resolve hr]
    rfl

theorem listHasModule_of_resolve : ∀ {types : List TypeExpr} {site : Location} {tys : List Ty},
    (resolveList scopes types site).Yields tys → listHasModule types = false
  | [], _, _, _ => by rw [listHasModule]
  | type :: rest, _, _, h => by
    simp only [resolveList, Report.yields_bind] at h
    obtain ⟨_, ht, _, hr, -⟩ := h
    rw [listHasModule, hasModule_of_resolve ht, listHasModule_of_resolve hr]
    rfl

theorem fieldsHaveModule_of_resolve : ∀ {fields : List TypeField} {known resolved : NameMap Ty},
    (resolveFields scopes fields known).Yields resolved → fieldsHaveModule fields = false
  | [], _, _, _ => by rw [fieldsHaveModule]
  | ⟨key, type, loc⟩ :: rest, _, _, h => by
    simp only [resolveFields, Report.yields_bind] at h
    obtain ⟨_, ht, h⟩ := h
    split_ifs at h
    · simp at h
    · rw [fieldsHaveModule, hasModule_of_resolve ht, fieldsHaveModule_of_resolve h]
      rfl

end

theorem moduleFree_of_resolveList : ∀ {types : List TypeExpr} {site : Location} {tys : List Ty},
    (resolveList scopes types site).Yields tys → ModuleFree types
  | [], _, _, _ => ModuleFree.nil_iff.mpr trivial
  | type :: rest, _, _, h => by
    simp only [resolveList, Report.yields_bind] at h
    obtain ⟨_, ht, _, hr, -⟩ := h
    exact ModuleFree.cons_iff.mpr ⟨hasModule_of_resolve ht, moduleFree_of_resolveList hr⟩

end TypeExpr

theorem Source.Decl.hasModule_of_stated {decl : Source.Decl} {stated : Option Ty}
    (h : (decl.stated Γ).Yields stated) :
    ∀ type, decl.type = some type → type.hasModule = false := by
  intro type ht
  simp only [Source.Decl.stated, ht, Report.yields_bind] at h
  obtain ⟨_, hr, -⟩ := h
  exact TypeExpr.hasModule_of_resolve hr

/-! ### Expressions -/

namespace Source.Expr

mutual

/-- **The annotations of a checked expression** are free of the `module` type. -/
theorem check_moduleFree (hΓ : Γ.Proper modules) : ∀ {expr : Source.Expr} {demand : Demand}
    {t : Typed.Expr}, demand.Proper modules → (check Γ expr demand).Yields t →
      ModuleFree expr.annotations
  | .nil _, _, _, _, _ | .boolean _ _, _, _, _, _ | .integer _ _, _, _, _, _
  | .float _ _, _, _, _, _ | .string _ _, _, _, _, _ | .name _ _, _, _, _, _ => by
    simp [annotations]
  | .init entries loc, demand, t, hd, h => by
    have hk : ∀ want, demand = .ofType want → want.ty.isUnknown = false := by
      rintro want rfl
      exact Ty.not_isUnknown_of_proper hd
    rw [annotations]
    obtain ⟨want, rfl, ⟨elem, items, hw, hi, -⟩ | ⟨fields, items, hw, hi, -, -⟩ |
      ⟨_, _, rfl, -⟩⟩ := check_init_yields hk h
    · refine checkItems_moduleFree hΓ ?_ hi
      simpa [Demand.Proper, hw, Ty.proper] using hd
    · exact checkFields_moduleFree hΓ (Ty.proper_of_fields? hd hw) hi
    · simp [Entry.annotations]
  | .index object key loc, demand, t, hd, h => by
    simp only [check, Report.yields_bind] at h
    obtain ⟨_, ha, _, -, _, hk, -⟩ := h
    rw [annotations, ModuleFree.append_iff]
    exact ⟨check_moduleFree hΓ Demand.proper_value ha,
      check_moduleFree hΓ (Demand.proper_ofType rfl) hk⟩
  | .field object key loc, demand, t, hd, h => by
    rw [annotations]
    simp only [check] at h
    split at h
    · next hlib =>
      obtain ⟨⟨_, rfl⟩, -⟩ := Context.library?_eq_some_iff.mp hlib
      simp [annotations]
    · simp only [Report.yields_bind] at h
      obtain ⟨_, ho, -⟩ := h
      exact check_moduleFree hΓ Demand.proper_value ho
  | .call callee args loc, demand, t, hd, h => by
    have hat : ∀ {found}, (check Γ callee .value).Yields found →
        Γ.ProperAt modules callee found.ty :=
      fun hc => check_proper hΓ Demand.proper_value hc _ List.mem_cons_self
    obtain ⟨callee', params, returns, values, hc, hty, hv, -, -⟩ :=
      check_call_yields (fun hc => Ty.not_isUnknown_of_properAt (hat hc)) h
    rw [annotations, ModuleFree.append_iff]
    refine ⟨check_moduleFree hΓ Demand.proper_value hc, checkValues_moduleFree hΓ ?_ hv⟩
    have hp := hat hc
    rw [hty] at hp
    simpa using hp.function.1
  | .unary op operand loc, demand, t, hd, h => by
    simp only [check, Report.yields_bind] at h
    obtain ⟨_, ho, -⟩ := h
    rw [annotations]
    exact check_moduleFree hΓ Demand.proper_value ho
  | .binary left op right loc, demand, t, hd, h => by
    simp only [check, Report.yields_bind] at h
    obtain ⟨_, hl, _, hr, -⟩ := h
    rw [annotations, ModuleFree.append_iff]
    exact ⟨check_moduleFree hΓ Demand.proper_value hl, check_moduleFree hΓ Demand.proper_value hr⟩
  | .cast expr target loc, demand, t, hd, h => by
    simp only [check, Report.yields_bind] at h
    obtain ⟨_, he, _, ht, -⟩ := h
    rw [annotations, ModuleFree.append_iff, ModuleFree.cons_iff]
    exact ⟨check_moduleFree hΓ Demand.proper_value he, TypeExpr.hasModule_of_resolve ht,
      ModuleFree.nil_iff.mpr trivial⟩
  | .paren expr loc, demand, t, hd, h => by
    simp only [check, Report.yields_bind] at h
    obtain ⟨_, he, -⟩ := h
    rw [annotations]
    exact check_moduleFree hΓ Demand.proper_value he

theorem checkValues_moduleFree (hΓ : Γ.Proper modules) {site : Nat → Site} :
    ∀ {exprs : List Source.Expr} {expected : List (Option Ty)} {position : Nat} {values : Values},
      (∀ ty, some ty ∈ expected → ty.proper modules = true) →
        (checkValues Γ site exprs expected position).Yields values →
          ModuleFree (listAnnotations exprs)
  | [], _, _, _, _, _ => by simp [listAnnotations]
  | expr :: rest, expected, position, values, he, h => by
    rw [listAnnotations, ModuleFree.append_iff]
    rw [checkValues] at h
    split_ifs at h with hlast
    · rw [Bool.and_eq_true, List.isEmpty_iff] at hlast
      rw [Report.yields_bind] at h
      obtain ⟨call, hc, -⟩ := h
      rw [hlast.1, listAnnotations]
      exact ⟨check_moduleFree hΓ Demand.proper_results hc, ModuleFree.nil_iff.mpr trivial⟩
    · simp only [Report.yields_bind] at h
      obtain ⟨_, hv, _, hvs, -⟩ := h
      exact ⟨check_moduleFree hΓ (Demand.proper_ofWant_at he) hv,
        checkValues_moduleFree hΓ (fun ty hty => he ty (List.mem_of_mem_tail hty)) hvs⟩

theorem checkItems_moduleFree (hΓ : Γ.Proper modules) {elem : Ty}
    (he : elem.proper modules = true) : ∀ {entries : List Entry} {items : List Typed.Expr},
      (checkItems Γ elem entries).Yields items → ModuleFree (Entry.annotations entries)
  | [], _, _ => by simp [Entry.annotations]
  | .positional value :: rest, _, h => by
    simp only [checkItems, Report.yields_bind] at h
    obtain ⟨_, hv, _, hvs, -⟩ := h
    rw [Entry.annotations, ModuleFree.append_iff]
    exact ⟨check_moduleFree hΓ (Demand.proper_ofType he) hv, checkItems_moduleFree hΓ he hvs⟩
  | .named _ _ _ :: rest, _, h => by simp [checkItems] at h

theorem checkFields_moduleFree (hΓ : Γ.Proper modules) {target : Ty} {fields : NameMap Ty}
    (hp : Ty.properFields modules fields = true) : ∀ {entries : List Entry} {seen : List String}
      {items : List (String × Typed.Expr)}, (checkFields Γ target fields entries seen).Yields items →
        ModuleFree (Entry.annotations entries)
  | [], _, _, _ => by simp [Entry.annotations]
  | .positional _ :: rest, seen, items, h => by simp [checkFields] at h
  | .named key value loc :: rest, seen, items, h => by
    rw [checkFields] at h
    split_ifs at h
    · simp at h
    · split at h
      · next ty hl =>
        simp only [Report.yields_bind] at h
        obtain ⟨_, hv, _, hvs, -⟩ := h
        rw [Entry.annotations, ModuleFree.append_iff]
        exact ⟨check_moduleFree hΓ (Demand.proper_ofType (Ty.proper_of_lookup hp hl)) hv,
          checkFields_moduleFree hΓ hp hvs⟩
      · simp at h

end

end Source.Expr

end LuaTyping
