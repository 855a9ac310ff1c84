import LuaTyping.Proofs.Soundness.Values
import LuaTyping.Proofs.Undeclared.Context
import LuaTyping.Proofs.Undeclared.Operator

/-!
# Expressions with types that are unknown in part

The check of an expression in a blurred context shows a fault for each replaced annotation in the
expression, and other faults exactly if the typed expression is not quiet (`check_mirrors`).

With a single replacement in the program, everything in front of it is the same in both programs
(`Context.Tracks`).  The argument needs this at one place: the entries of a table constructor are
passed over where its type is `unknown`, so an annotation in them must not be the replaced one.
-/

namespace LuaTyping

variable {ρ : String → NameMap Ty} {N : String} {u v : List Location}

/-! ### In front of a replacement -/

theorem eq_nil_of_once (h : (u ++ v).length ≤ 1) (hv : v ≠ []) : u = [] := by
  have hpos := List.length_pos_iff.mpr hv
  rw [List.length_append] at h
  exact List.eq_nil_of_length_eq_zero (by omega)

/-- The second context is the first with blurred types, and the same as the first if the replacement
is still to come, at the place in `u`. -/
structure Context.Tracks (ρ : String → NameMap Ty) (N : String) (u : List Location)
    (Γ Γ' : Context) : Prop where
  blurs : Γ.Blurs ρ N Γ'
  once : u.length ≤ 1
  same : u ≠ [] → Γ' = Γ

namespace Context

variable {Γ Γ' : Context}

theorem Tracks.left (h : Γ.Tracks ρ N (u ++ v) Γ') : Γ.Tracks ρ N u Γ' where
  blurs := h.blurs
  once := by
    have := h.once
    rw [List.length_append] at this
    omega
  same := fun hu => h.same (by simp [hu])

theorem Tracks.enter (h : Γ.Tracks ρ N u Γ') : Γ.enter.Tracks ρ N u Γ'.enter where
  blurs := h.blurs.enter
  once := h.once
  same := fun hu => by rw [h.same hu]

theorem Tracks.enterLoop (h : Γ.Tracks ρ N u Γ') : Γ.enterLoop.Tracks ρ N u Γ'.enterLoop where
  blurs := h.blurs.enterLoop
  once := h.once
  same := fun hu => by rw [h.same hu]

theorem Tracks.right (h : Γ.Tracks ρ N (u ++ v) Γ') : Γ.Tracks ρ N v Γ' where
  blurs := h.blurs
  once := by
    have := h.once
    rw [List.length_append] at this
    omega
  same := fun hv => h.same (by simp [hv])

/-- Behind a part of the program without a replacement the contexts are still the same. -/
theorem Tracks.next {Δ Δ' : Context} (h : Γ.Tracks ρ N (u ++ v) Γ') (hΔ : Δ.Blurs ρ N Δ')
    (hs : u = [] → Γ' = Γ → Δ' = Δ) : Δ.Tracks ρ N v Δ' where
  blurs := hΔ
  once := h.right.once
  same := fun hv => hs (eq_nil_of_once h.once hv) (h.right.same hv)

end Context

/-! ### What is shown -/

/-- A check of an expression that shows the replacements at `u`, with a result that shadows
`found`. -/
structure Report.Follows (ρ : String → NameMap Ty) (N : String) (u : List Location)
    (found : Typed.Expr) (report : Report Typed.Expr) : Prop where
  shows : report.Shows N u report.value.quiet
  shadows : found.Shadows ρ report.value

theorem Report.Follows.of_value {found t' : Typed.Expr} {report : Report Typed.Expr}
    (hvalue : report.value = t') (hshows : report.Shows N u t'.quiet)
    (hshadows : found.Shadows ρ t') : report.Follows ρ N u found where
  shows := by rwa [hvalue]
  shadows := by rwa [hvalue]

/-- A check of an expression under a demand that shows the replacements at `u`.  If no type is
wanted, its result shadows `t`; where the wanted type is lost, it may not be a table constructor. -/
structure Report.Mirrors (ρ : String → NameMap Ty) (N : String) (u : List Location) (lost : Bool)
    (demand : Demand) (t : Typed.Expr) (report : Report Typed.Expr) : Prop where
  shows : report.Shows N u (report.value.quiet && (!lost || !report.value.isInit))
  shadows : (∀ want, demand ≠ .ofType want) → t.Shadows ρ report.value

theorem Report.Mirrors.shows_value {demand : Demand} {t : Typed.Expr} {report : Report Typed.Expr}
    (h : report.Mirrors ρ N u false demand t) : report.Shows N u report.value.quiet := by
  simpa using h.shows

theorem Report.Mirrors.follows_value {t : Typed.Expr} {report : Report Typed.Expr}
    (h : report.Mirrors ρ N u false .value t) : report.Follows ρ N u t :=
  ⟨h.shows_value, h.shadows fun _ => Demand.noConfusion⟩

theorem Report.Mirrors.follows_results {t : Typed.Expr} {report : Report Typed.Expr}
    (h : report.Mirrors ρ N u false .results t) : report.Follows ρ N u t :=
  ⟨h.shows_value, h.shadows fun _ => Demand.noConfusion⟩

theorem Report.Mirrors.of_shows {demand : Demand} {want : Want} {t : Typed.Expr}
    {report : Report Typed.Expr} (hd : demand = .ofType want)
    (h : report.Shows N u report.value.quiet) : report.Mirrors ρ N u false demand t :=
  ⟨by simpa using h, fun hne => absurd hd (hne want)⟩

/-- A check of a list of values that shows the replacements at `u`.  Where the expected types are
lost, no value may be a table constructor. -/
structure Report.Lists (ρ : String → NameMap Ty) (N : String) (u : List Location) (lost : Bool)
    (expected : List (Option Ty)) (values : Values) (report : Report Values) : Prop where
  shows : report.Shows N u (Typed.Expr.quietList report.value.exprs &&
    (!lost || report.value.exprs.all fun expr => !expr.isInit))
  shadows : values.Shadows ρ expected report.value

theorem Report.Lists.shows_values {expected : List (Option Ty)} {values : Values}
    {report : Report Values} (h : report.Lists ρ N u false expected values) :
    report.Shows N u (Typed.Expr.quietList report.value.exprs) := by
  simpa using h.shows

/-! ### Names and members -/

namespace Context

variable {Γ Γ' : Context} {name field : String} {loc : Location} {t object object' : Typed.Expr}

theorem Blurs.nameExpr (hB : Γ.Blurs ρ N Γ') (h : (Γ.nameExpr name loc).Yields t) :
    ∃ t', (Γ'.nameExpr name loc).Yields t' ∧ t.Shadows ρ t' ∧ t'.quiet = true := by
  unfold Context.nameExpr
  rcases nameExpr_yields h with ⟨ty, site, hl, rfl⟩ | ⟨ty, site, kind, hk, hl, rfl⟩ | ⟨ty, hl, rfl⟩
  · obtain ⟨ty', site', hl', hty⟩ := hB.lookup_var hl
    rw [hl']
    exact ⟨_, rfl, .of_plain rfl rfl hty, by simp only [Typed.Expr.quiet, Typed.ExprKind.quiet]⟩
  · obtain ⟨ty', site', hl', hty⟩ := hB.lookup_var hl
    rw [hl']
    refine ⟨⟨.toplevel name, ty', loc⟩, ?_, ⟨hty, Or.inl (.cons hty .nil), rfl, rfl, ?_⟩, ?_⟩
    · cases kind with
      | inner => exact absurd rfl hk
      | toplevel => rfl
      | module => rfl
    · exact fun _ he => he
    · simp only [Typed.Expr.quiet, Typed.ExprKind.quiet]
  · rw [hB.builtin_iff.mpr hl]
    refine ⟨_, rfl, .of_plain rfl rfl (hB.builtin hl), ?_⟩
    simp only [Typed.Expr.quiet, Typed.ExprKind.quiet]

theorem Blurs.library?_eq (hB : Γ.Blurs ρ N Γ') {expr expr' : Source.Expr}
    (he : expr.Edits N u expr') : Γ'.library? expr' = Γ.library? expr := by
  apply Option.ext
  rintro ⟨library, members⟩
  have hname : Γ'.library? expr' = Γ'.library? expr := by
    unfold Context.library?
    rw [he.name?_eq]
  rw [hname, library?_eq_some_iff, library?_eq_some_iff, hB.library_iff]

/-- A member that is there is there in a blurred value. -/
theorem Blurs.fieldExpr (hB : Γ.Blurs ρ N Γ') (hk : object.ty.isUnknown = false)
    (hty : object.ty.Blurs ρ object'.ty)
    (hq : ∀ fields, object'.ty = .module fields → object'.quiet = true)
    (h : (Γ.fieldExpr object field loc).Yields t) :
    ∃ t', (Γ'.fieldExpr object' field loc).Yields t' ∧ t.Shadows ρ t' ∧
      t'.quiet = object'.quiet := by
  have hquiet : ∀ ty, (⟨.field object' field, ty, loc⟩ : Typed.Expr).quiet = object'.quiet := by
    intro ty
    simp only [Typed.Expr.quiet, Typed.ExprKind.quiet]
  have hunknown : object'.ty = .unknown →
      Γ'.fieldExpr object' field loc = pure ⟨.field object' field, .unknown, loc⟩ := by
    intro hu
    rw [Context.fieldExpr, hu]
  rcases fieldExpr_yields hk h with ⟨fields, ty, hf, hl, rfl⟩ | ⟨fields, declared, hm, hl, rfl⟩
  · generalize hobj : object.ty = ty₀ at hty hf
    generalize hobj' : object'.ty = ty₀' at hty
    cases hty with
    | unknown => exact ⟨_, hunknown hobj', .of_plain rfl rfl .unknown, hquiet _⟩
    | table hfields _ =>
      cases hf
      obtain ⟨ty', hl', hb⟩ := hfields.lookup_some hl
      refine ⟨⟨.field object' field, ty', loc⟩, ?_, .of_plain rfl rfl hb, hquiet _⟩
      simp only [Context.fieldExpr, hobj', Report.yields_bind, Report.yields_orUnknown]
      exact ⟨ty', hl', rfl⟩
    | record _ hfields _ =>
      cases hf
      obtain ⟨ty', hl', hb⟩ := hfields.lookup_some hl
      refine ⟨⟨.field object' field, ty', loc⟩, ?_, .of_plain rfl rfl hb, hquiet _⟩
      simp only [Context.fieldExpr, hobj', Report.yields_bind, Report.yields_orUnknown]
      exact ⟨ty', hl', rfl⟩
    | _ => cases hf
  · rw [hm] at hty
    generalize hobj' : object'.ty = ty₀' at hty
    cases hty with
    | unknown => exact ⟨_, hunknown hobj', .of_plain rfl rfl .unknown, hquiet _⟩
    | module =>
      have hrel := hB.env.fields field
      simp only [Context.env, hl, Option.map_some] at hrel
      generalize hdecl : (Γ'.module.fields.lookup field).map (·.ty) = found at hrel
      cases hrel with
      | @some _ ty' hb =>
        refine ⟨⟨.moduleField (Γ'.module.name?.getD "") field, ty', loc⟩, ?_,
          .of_plain rfl rfl hb, ?_⟩
        · simp only [Context.fieldExpr, hobj', Report.yields_bind, Report.yields_orUnknown]
          exact ⟨ty', hdecl, rfl⟩
        · simp only [Typed.Expr.quiet, Typed.ExprKind.quiet, hq _ hobj']

end Context

theorem Ty.Blurs.element {ty ty' elem : Ty} {loc : Location} (hb : ty.Blurs ρ ty')
    (hk : ty.isUnknown = false) (h : (ty.element loc).Yields elem) :
    ∃ elem', (ty'.element loc).Yields elem' ∧ elem.Blurs ρ elem' := by
  rw [Ty.element_yields hk h] at hb
  cases hb with
  | unknown => exact ⟨.unknown, rfl, .unknown⟩
  | array hb => exact ⟨_, rfl, hb⟩

/-- The value that an entry gives. -/
def Source.Entry.value : Source.Entry → Source.Expr
  | .positional value => value
  | .named _ value _ => value

namespace Source.Expr

variable {Γ Γ' : Context} {loc : Location}

theorem Edits.bareName?_eq : ∀ {expr expr' : Source.Expr} {u : List Location},
    expr.Edits N u expr' → expr'.bareName? = expr.bareName?
  | .paren _ _, _, _, h => by
    cases h with
    | atom ha => cases ha
    | paren he => rw [bareName?, bareName?, he.bareName?_eq]
  | .nil _, _, _, h | .boolean _ _, _, _, h | .integer _ _, _, _, h | .float _ _, _, _, h
  | .string _ _, _, _, h | .name _ _, _, _, h | .init _ _, _, _, h | .index _ _ _, _, _, h
  | .field _ _ _, _, _, h | .call _ _ _, _, _, h | .unary _ _ _, _, _, h
  | .binary _ _ _ _, _, _, h | .cast _ _ _, _, _, h => by
    cases h <;> rfl

/-- In a name, in any number of parentheses, there is nothing to be quiet about. -/
theorem quiet_of_bareName? : ∀ {expr : Source.Expr} {name : String}, expr.bareName? = some name →
    (check Γ expr .value).value.quiet = true
  | .name text loc, _, _ => by
    simp only [check, Report.value_bind, Demand.settle, Context.nameExpr]
    split <;> simp only [Report.value_bind, Report.value_pure, Typed.Expr.single, Typed.Expr.quiet,
      Typed.ExprKind.quiet]
  | .paren expr loc, _, h => by
    simp only [check, Report.value_bind, Demand.settle, Report.value_pure, Typed.Expr.single,
      Typed.Expr.quiet, Typed.ExprKind.quiet]
    exact quiet_of_bareName? h

/-- Something of the type of the module is the module variable. -/
theorem quiet_of_module (hΓ : Γ.Proper false) {object object' : Source.Expr} {typed : Typed.Expr}
    (ho : object.Edits N u object') (h : (check Γ object .value).Yields typed)
    (hb : typed.ty.Blurs ρ (check Γ' object' .value).value.ty) (fields : NameMap Ty)
    (hm : (check Γ' object' .value).value.ty = .module fields) :
    (check Γ' object' .value).value.quiet = true := by
  have hp := check_proper hΓ Demand.proper_value h _ List.mem_cons_self
  rw [hm] at hb
  generalize typed.ty = ty at hb hp
  cases hb with
  | module =>
    rcases hp with hp | ⟨-, name, hn, -⟩
    · simp [Ty.proper] at hp
    · exact quiet_of_bareName? (ho.bareName?_eq.trans hn)

/-! ### Demands -/

/-- An expression that follows on its own mirrors under every blurred demand. -/
theorem mirrors_of_results (hΓ : Γ.Proper false) {expr expr' : Source.Expr}
    {lost : Bool} {demand demand' : Demand} {t : Typed.Expr} (hi : expr.isInit = false)
    (hi' : expr'.isInit = false) (hd : demand.Proper false) (hb : demand.Blurs ρ lost demand')
    (h : (check Γ expr demand).Yields t)
    (hres : ∀ {found}, (check Γ expr .results).Yields found →
      (check Γ' expr' .results).Follows ρ N u found) :
    (check Γ' expr' demand').Mirrors ρ N u lost demand t := by
  obtain ⟨found, hf, hs⟩ := (check_yields_iff hi).mp h
  have hfollows := hres hf
  have hp : found.ty.proper true = true :=
    (check_proper hΓ Demand.proper_results hf _ List.mem_cons_self).known
  have hd' : demand.Proper true := by
    cases demand with
    | ofType want => exact Ty.proper_true hd
    | _ => trivial
  obtain ⟨t', ht', hq, hinit, heq⟩ := hb.settle hfollows.shadows hp hd' hs
  have hvalue : (check Γ' expr' .results >>= demand'.settle).value = t' := ht'.value_eq
  rw [check_eq_bind Γ' demand' hi']
  refine ⟨?_, fun hne => ?_⟩
  · rw [hvalue, hq, hinit, Bool.not_false, Bool.or_true, Bool.and_true]
    exact hfollows.shows.bind_shown (.of_faults_eq_nil ht'.faults_eq)
  · obtain ⟨rfl, rfl⟩ := heq hne
    rw [hvalue]
    exact hfollows.shadows

/-! ### Calls -/

/-- A call follows if its callee and its arguments do.  If the type of the callee is lost, nothing
is expected of the arguments. -/
theorem call_follows {callee' : Source.Expr} {args' : List Source.Expr} {found : Typed.Expr}
    {params returns : List Ty} {values : Values} (hty : found.ty = .function params returns)
    (hu : values.uncertain = false) (hf : values.fits params.length = true)
    (hc : (check Γ' callee' .value).Follows ρ N u found)
    (hsame : v ≠ [] → (check Γ' callee' .value).value = found)
    (hv : ∀ {lost : Bool} {expected' : List (Option Ty)},
      ExpectedBlurs ρ lost (params.map some) expected' → (v ≠ [] → expected' = params.map some) →
        (checkValues Γ' (fun i => .argument (i + 1)) args' expected' 0).Lists ρ N v lost
          (params.map some) values) :
    (check Γ' (.call callee' args' loc) .results).Follows ρ N (u ++ v)
      ⟨.call found values.exprs returns, returns.headD .nil, loc⟩ := by
  have hblur := hc.shadows.ty
  rw [hty] at hblur
  generalize hty' : (check Γ' callee' .value).value.ty = ty' at hblur
  cases hblur with
  | unknown =>
    have hl := @hv true [] rfl fun hne => by
      rw [hsame hne, hty] at hty'
      cases hty'
    have hvalue : (check Γ' (.call callee' args' loc) .results).value =
        ⟨.call (check Γ' callee' .value).value
          (checkValues Γ' (fun i => .argument (i + 1)) args' [] 0).value.exprs [.unknown], .unknown,
            loc⟩ := by
      simp only [check, Report.value_bind, hty', Demand.settle, Report.value_pure]
    refine .of_value hvalue ?_ ⟨.unknown, Or.inr ⟨rfl, rfl, rfl⟩, rfl, rfl, by simp⟩
    simp only [check, Demand.settle, Typed.Expr.quiet, Typed.ExprKind.quiet, Typed.quietCall, hty']
    refine hc.shows.bind ?_
    rw [hty']
    exact .bind_silent rfl hl.shows.bind_pure
  | @function _ params' _ returns' hp hr =>
    have hl := hv (.of_types hp) fun hne => by
      rw [hsame hne, hty] at hty'
      cases hty'
      rfl
    have hfits : Values.fits (checkValues Γ' (fun i => .argument (i + 1)) args' (params'.map some)
        0).value params'.length = true := by
      rw [← hp.length_eq]
      exact hl.shadows.fits hu hf
    have hvalue : (check Γ' (.call callee' args' loc) .results).value =
        ⟨.call (check Γ' callee' .value).value
          (checkValues Γ' (fun i => .argument (i + 1)) args' (params'.map some) 0).value.exprs
            returns', returns'.headD .nil, loc⟩ := by
      simp only [check, Report.value_bind, hty', Demand.settle, Report.value_pure]
    refine .of_value hvalue ?_ ⟨Ty.blurs_headD hr, Or.inl hr, rfl, rfl, by simp⟩
    simp only [check, Demand.settle, Typed.Expr.quiet, Typed.ExprKind.quiet, Typed.quietCall, hty']
    refine hc.shows.bind ?_
    rw [hty']
    exact hl.shows.bind_shown (.bind_pure (.of_require hfits))

/-! ### Table constructors -/

/-- Each value among the entries has been checked against a type. -/
def EntriesTyped (Γ : Context) (entries : List Entry) : Prop :=
  ∀ entry ∈ entries, ∃ want t, want.ty.proper false = true ∧
    (check Γ entry.value (.ofType want)).Yields t

theorem checkItems_entriesTyped {elem : Ty} (he : elem.proper false = true) {entries : List Entry}
    {items : List Typed.Expr} (h : (checkItems Γ elem entries).Yields items) :
    EntriesTyped Γ entries := by
  induction entries generalizing items with
  | nil => simp [EntriesTyped]
  | cons entry rest ih =>
    cases entry with
    | positional value =>
      simp only [checkItems, Report.yields_bind] at h
      obtain ⟨t, ht, items, hr, -⟩ := h
      exact List.forall_mem_cons.mpr ⟨⟨_, t, he, ht⟩, ih hr⟩
    | named => simp [checkItems] at h

theorem checkFields_entriesTyped {target : Ty} {fields : NameMap Ty}
    (hf : Ty.properFields false fields = true) {entries : List Entry} {seen : List String}
    {items : List (String × Typed.Expr)}
    (h : (checkFields Γ target fields entries seen).Yields items) : EntriesTyped Γ entries := by
  induction entries generalizing seen items with
  | nil => simp [EntriesTyped]
  | cons entry rest ih =>
    cases entry with
    | positional => simp [checkFields] at h
    | named key value loc =>
      simp only [checkFields] at h
      split at h
      · simp at h
      · split at h
        · next ty hl =>
          simp only [Report.yields_bind] at h
          obtain ⟨t, ht, items, hr, -⟩ := h
          have hp := Ty.proper_of_lookup hf hl
          exact List.forall_mem_cons.mpr ⟨⟨_, t, hp, ht⟩, ih hr⟩
        · simp at h

theorem check_init_entriesTyped {entries : List Entry} {demand : Demand} {t : Typed.Expr}
    (hd : demand.Proper false) (h : (check Γ (.init entries loc) demand).Yields t) :
    EntriesTyped Γ entries := by
  have hk : ∀ want, demand = .ofType want → want.ty.isUnknown = false := by
    rintro want rfl
    exact Ty.not_isUnknown_of_proper hd
  obtain ⟨want, rfl, hi⟩ := check_init_yields hk h
  rcases hi with ⟨elem, items, hty, hi, -⟩ | ⟨fields, items, hty, hi, -⟩ | ⟨fields, -, rfl, -⟩
  · simp only [Demand.Proper, hty, Ty.proper] at hd
    exact checkItems_entriesTyped hd hi
  · exact checkFields_entriesTyped (Ty.proper_of_fields? hd hty) hi
  · simp [EntriesTyped]

/-- A table constructor without a type is a fault of its own. -/
theorem init_mirrors {entries' : List Entry} {want : Want} {t : Typed.Expr}
    (h : (checkUntyped Γ' entries').faults.filter Fault.isUndeclaredType = []) :
    (check Γ' (.init entries' loc) .value).Mirrors ρ N [] true (.ofType want) t := by
  have hinit : (check Γ' (.init entries' loc) .value).value.isInit = true := by
    simp only [check, Report.value_bind, Report.value_pure]
    rfl
  refine ⟨?_, fun hne => absurd rfl (hne want)⟩
  rw [hinit, Bool.not_true, Bool.or_false, Bool.and_false]
  constructor
  · simp only [check, Report.faults_bind, Report.faults_fault, Report.faults_pure,
      List.append_nil, List.cons_append, List.nil_append, List.filter_cons]
    simpa [Fault.isUndeclaredType, undeclaredAt] using h
  · simp [check, Fault.isUndeclaredType]

theorem unknownInit_shows {entries' : List Entry} {site : Site} :
    (check Γ' (.init entries' loc) (.ofType ⟨.unknown, site⟩)).Shows N []
      (check Γ' (.init entries' loc) (.ofType ⟨.unknown, site⟩)).value.quiet := by
  simp only [check, Report.value_pure, Typed.Expr.quiet, Typed.ExprKind.quiet,
    Typed.Expr.quietList]
  exact .of_faults_eq_nil rfl

theorem arrayInit_shows {entries' : List Entry} {elem' : Ty} {site : Site}
    (h : (checkItems Γ' elem' entries').Shows N u
      (Typed.Expr.quietList (checkItems Γ' elem' entries').value)) :
    (check Γ' (.init entries' loc) (.ofType ⟨.array elem', site⟩)).Shows N u
      (check Γ' (.init entries' loc) (.ofType ⟨.array elem', site⟩)).value.quiet := by
  simp only [check, Report.value_bind, Report.value_pure, Typed.Expr.quiet, Typed.ExprKind.quiet]
  exact h.bind_pure

theorem tableInit_shows {entries' : List Entry} {target' : Ty} {fields' : NameMap Ty} {site : Site}
    {given : Unit} (hf : target'.fields? = some fields')
    (hr : (requireFields target' loc (Entry.names entries') fields').Yields given)
    (h : (checkFields Γ' target' fields' entries' []).Shows N u
      (Typed.Expr.quietFields (checkFields Γ' target' fields' entries' []).value)) :
    (check Γ' (.init entries' loc) (.ofType ⟨target', site⟩)).Shows N u
      (check Γ' (.init entries' loc) (.ofType ⟨target', site⟩)).value.quiet := by
  cases target' <;> cases hf
  all_goals
    simp only [check, Report.value_bind, Report.value_pure, Typed.Expr.quiet, Typed.ExprKind.quiet]
    exact h.bind_shown (.bind_pure (.of_faults_eq_nil hr.faults_eq))

/-- The fields of a blurred type are given if those of the type are. -/
theorem requireFields_blurs {target target' : Ty} {given : List String}
    {fields fields' : NameMap Ty} {u : Unit} (hb : Ty.FieldsBlur ρ fields fields')
    (h : (requireFields target loc given fields).Yields u) :
    (requireFields target' loc given fields').Yields u := by
  induction fields generalizing fields' with
  | nil =>
    cases hb
    exact h
  | cons entry fields ih =>
    cases hb with
    | cons _ hs =>
      simp only [requireFields, Report.yields_bind, Report.yields_require] at h ⊢
      obtain ⟨_, hf, hr⟩ := h
      exact ⟨(), hf, ih hs hr⟩

theorem Edits.names_eq {entries entries' : List Entry} {u : List Location}
    (h : EditsEach (Entry.Edits N) u entries entries') :
    Entry.names entries' = Entry.names entries := by
  induction h with
  | nil => rfl
  | cons hentry _ ih =>
    cases hentry with
    | positional => rw [Entry.names, Entry.names, ih]
    | named => rw [Entry.names, Entry.names, ih]

/-! ### Lists of values -/

section
variable {lost : Bool} {expected expected' : List (Option Ty)} {site : Nat → Site} {position : Nat}

theorem lists_call {expr' : Source.Expr} {call : Typed.Expr} {values : Values}
    (hc : (check Γ' expr' .results).Follows ρ N u call)
    (hp : ∀ ty ∈ call.ownTypes, ty.proper false = true)
    (hpe : ∀ ty, some ty ∈ expected → ty.proper false = true)
    (hb : ExpectedBlurs ρ lost expected expected')
    (h : (Values.ofCall call expected site position).Yields values) :
    (check Γ' expr' .results >>= fun call => Values.ofCall call expected' site position).Lists ρ N u
      lost expected values := by
  obtain ⟨values', hv, hq, hi, hs⟩ := Values.ofCall_blurs hc.shadows hb
    (fun ty hty => Ty.proper_true (hp ty hty)) (fun ty hty => Ty.proper_true (hpe ty hty)) h
  have hvalue : (check Γ' expr' .results >>= fun call =>
      Values.ofCall call expected' site position).value = values' := hv.value_eq
  constructor
  · rw [hvalue, hq, hi, Bool.or_true, Bool.and_true]
    exact hc.shows.bind_shown (.of_faults_eq_nil hv.faults_eq)
  · rw [hvalue]
    exact hs

theorem lists_cons {first : Report Typed.Expr} {rest : Report Values} {value : Typed.Expr}
    {values : Values} {want : Option Want} (hw : expected[0]?.join = none → want = none)
    (hf : first.Mirrors ρ N u lost (.ofWant want) value)
    (hr : rest.Lists ρ N v lost expected.tail values) :
    (first >>= fun value => rest >>= fun values => pure (values.cons value)).Lists ρ N (u ++ v) lost
      expected (values.cons value) where
  shows := by
    have hq : (Typed.Expr.quietList (first.value :: rest.value.exprs) &&
        (!lost || (first.value :: rest.value.exprs).all fun expr => !expr.isInit)) =
        ((first.value.quiet && (!lost || !first.value.isInit)) &&
          (Typed.Expr.quietList rest.value.exprs &&
            (!lost || rest.value.exprs.all fun expr => !expr.isInit))) := by
      cases lost <;> simp [Typed.Expr.quietList, Bool.and_assoc, Bool.and_left_comm]
    simp only [Report.value_bind, Report.value_pure, Values.cons, hq]
    exact hf.shows.bind hr.shows.bind_pure
  shadows := by
    refine ⟨?_, ?_⟩
    · simpa [Values.cons] using hr.shadows.count
    · rintro (_ | j) ty ty' hnone hty hty'
      · simp only [Report.value_bind, Report.value_pure, Values.cons, List.getElem?_cons_zero,
          Option.some.injEq] at hty hty'
        rw [← hty, ← hty']
        refine (hf.shadows ?_).ty
        rw [hw hnone]
        simp [Demand.ofWant]
      · refine hr.shadows.types j ty ty' ?_ hty hty'
        rw [List.getElem?_tail]
        exact hnone

end

/-! ### Expressions -/

theorem literal_follows {kind : Typed.ExprKind} {ty : Ty} (hk : kind.isPlain = true)
    (hq : kind.quiet = true) (hb : ty.Blurs ρ ty) :
    (pure ⟨kind, ty, loc⟩ : Report Typed.Expr).Follows ρ N [] ⟨kind, ty, loc⟩ := by
  have hquiet : (⟨kind, ty, loc⟩ : Typed.Expr).quiet = true := by rw [Typed.Expr.quiet, hq]
  refine ⟨?_, .of_plain hk hk hb⟩
  rw [Report.value_pure, hquiet]
  exact .of_faults_eq_nil rfl

/-- The type of an expression with one value is known. -/
theorem check_value_known (hΓ : Γ.Proper false) {expr : Source.Expr} {t : Typed.Expr}
    (h : (check Γ expr .value).Yields t) : t.ty.proper true = true ∧ t.ty.isUnknown = false := by
  have hp := check_proper hΓ Demand.proper_value h _ List.mem_cons_self
  exact ⟨hp.known, Ty.not_isUnknown_of_properAt hp⟩

theorem params_proper_of_callee (hΓ : Γ.Proper false) {callee : Source.Expr} {found : Typed.Expr}
    {params returns : List Ty} (h : (check Γ callee .value).Yields found)
    (hty : found.ty = .function params returns) :
    ∀ ty, some ty ∈ params.map some → ty.proper false = true := by
  have hp := check_proper hΓ Demand.proper_value h _ List.mem_cons_self
  rw [hty] at hp
  simpa using hp.function.1

/-! ### The forms of expressions

A form of expression follows if its parts do. -/

theorem name_follows (hB : Γ.Blurs ρ N Γ') {text : String} {found : Typed.Expr}
    (h : (Γ.nameExpr text loc).Yields found) :
    (check Γ' (.name text loc) .results).Follows ρ N [] found := by
  obtain ⟨t', ht', hs, hq⟩ := hB.nameExpr h
  simp only [check, Demand.settle, ht'.bind_eq]
  refine ⟨?_, hs⟩
  rw [Report.value_pure, hq]
  exact .of_faults_eq_nil rfl

theorem index_follows {object' key' : Source.Expr} {array index : Typed.Expr} {elem : Ty}
    (hk : array.ty.isUnknown = false) (he : (array.ty.element loc).Yields elem)
    (ho : (check Γ' object' .value).Follows ρ N u array)
    (hi : (check Γ' key' (.ofType ⟨.integer, .arrayIndex⟩)).Shows N v
      (check Γ' key' (.ofType ⟨.integer, .arrayIndex⟩)).value.quiet) :
    (check Γ' (.index object' key' loc) .results).Follows ρ N (u ++ v)
      ⟨.index array index, elem, loc⟩ := by
  obtain ⟨elem', he', hb⟩ := ho.shadows.ty.element hk he
  have hvalue : (check Γ' (.index object' key' loc) .results).value =
      ⟨.index (check Γ' object' .value).value
        (check Γ' key' (.ofType ⟨.integer, .arrayIndex⟩)).value, elem', loc⟩ := by
    simp only [check, Report.value_bind, Demand.settle, Report.value_pure, he'.value_eq]
  refine .of_value hvalue ?_ (.of_plain rfl rfl hb)
  simp only [check, Demand.settle, Typed.Expr.quiet, Typed.ExprKind.quiet]
  exact ho.shows.bind (.bind_silent he'.faults_eq hi.bind_pure)

theorem member_follows (hB : Γ.Blurs ρ N Γ') {object object' : Source.Expr} {key library : String}
    {members : NameMap Ty} {ty : Ty} (ho : object.Edits N u object')
    (hlib : Γ.library? object = some (library, members)) (hl : members.lookup key = some ty) :
    (check Γ' (.field object' key loc) .results).Follows ρ N u
      ⟨.libraryField library key, ty, loc⟩ := by
  obtain ⟨⟨site, rfl⟩, hlookup⟩ := Context.library?_eq_some_iff.mp hlib
  have hlib' := hB.library?_eq ho
  cases ho
  simp only [check, hlib', hlib, Typed.Expr.ofMember, hl]
  exact literal_follows rfl (by simp only [Typed.ExprKind.quiet]) (hB.member hlookup hl)

theorem field_follows (hΓ : Γ.Proper false) (hB : Γ.Blurs ρ N Γ') {object object' : Source.Expr}
    {key : String} {typed found : Typed.Expr} (ho : object.Edits N u object')
    (hlib : Γ.library? object = none) (ht : (check Γ object .value).Yields typed)
    (hf : (Γ.fieldExpr typed key loc).Yields found)
    (hoF : (check Γ' object' .value).Follows ρ N u typed) :
    (check Γ' (.field object' key loc) .results).Follows ρ N u found := by
  obtain ⟨t', ht', hs, hq⟩ := hB.fieldExpr (check_value_known hΓ ht).2 hoF.shadows.ty
    (quiet_of_module hΓ ho ht hoF.shadows.ty) hf
  have hlib' : Γ'.library? object' = none := (hB.library?_eq ho).trans hlib
  simp only [check, hlib', Demand.settle]
  refine .of_value ht'.value_eq ?_ hs
  rw [hq]
  exact hoF.shows.bind_shown (.bind_pure (.of_faults_eq_nil ht'.faults_eq))

theorem unary_follows {op : UnaryOp} {operand' : Source.Expr} {typed found : Typed.Expr}
    (h : (Typed.Expr.unary op typed loc).Yields found)
    (ho : (check Γ' operand' .value).Follows ρ N u typed) :
    (check Γ' (.unary op operand' loc) .results).Follows ρ N u found := by
  obtain ⟨t', ht', hs, hq⟩ := Typed.Expr.unary_blurs ho.shadows.ty h
  have hvalue : (check Γ' (.unary op operand' loc) .results).value = t' := by
    simp only [check, Report.value_bind, Demand.settle, Report.value_pure, ht'.value_eq]
  refine .of_value hvalue ?_ hs
  rw [hq]
  simp only [check, Demand.settle]
  exact ho.shows.bind_shown (.bind_pure (.of_faults_eq_nil ht'.faults_eq))

theorem binary_follows {op : BinaryOp} {left' right' : Source.Expr} {left right found : Typed.Expr}
    (hl : left.ty.isUnknown = false) (hr : right.ty.isUnknown = false)
    (h : (Typed.Expr.binary op left right loc).Yields found)
    (hlF : (check Γ' left' .value).Follows ρ N u left)
    (hrF : (check Γ' right' .value).Follows ρ N v right) :
    (check Γ' (.binary left' op right' loc) .results).Follows ρ N (u ++ v) found := by
  obtain ⟨quiet, hshows, hq, hs⟩ :=
    Typed.Expr.binary_blurs hlF.shadows.ty hrF.shadows.ty hl hr h
  have hvalue : (check Γ' (.binary left' op right' loc) .results).value =
      (Typed.Expr.binary op (check Γ' left' .value).value (check Γ' right' .value).value
        loc).value := by
    simp only [check, Report.value_bind, Demand.settle, Report.value_pure]
  refine .of_value hvalue ?_ hs
  rw [hq]
  simp only [check, Demand.settle]
  exact hlF.shows.bind (hrF.shows.bind_quiet hshows.bind_pure)

theorem cast_follows (hΓ : Γ.Proper false) (hB : Γ.Blurs ρ N Γ') {expr' : Source.Expr}
    {target target' : TypeExpr} {typed : Typed.Expr} {ty : Ty} (ht : target.Edits N v target')
    (hp : typed.ty.proper true = true) (hty : (target.resolve Γ.scopes loc).Yields ty)
    (hcast : typed.ty.castable ty = true) (he : (check Γ' expr' .value).Follows ρ N u typed) :
    (check Γ' (.cast expr' target' loc) .results).Follows ρ N (u ++ v)
      ⟨.cast typed false, ty, loc⟩ := by
  obtain ⟨ty', hty', hb⟩ := ht.resolve hB.types hB.undeclared hty
  have hknown : ty.proper true = true :=
    Ty.proper_true (TypeExpr.resolve_proper (fun _ _ hl => hΓ.typeName hl) hty)
  have hcast' := he.shadows.ty.castable hb hp hknown hcast
  have hvalue : (check Γ' (.cast expr' target' loc) .results).value =
      ⟨.cast (check Γ' expr' .value).value false, ty', loc⟩ := by
    simp only [check, Report.value_bind, Demand.settle, Report.value_pure, hty']
  refine .of_value hvalue ?_ (.of_plain rfl rfl hb)
  simp only [check, Demand.settle, Typed.Expr.quiet, Typed.ExprKind.quiet, hty']
  rw [← Bool.and_true (Typed.Expr.quiet _)]
  exact he.shows.bind (Report.Shows.of_undeclaredAt.bind_shown (.bind_pure (.of_require hcast')))

theorem paren_follows {expr' : Source.Expr} {typed : Typed.Expr}
    (he : (check Γ' expr' .value).Follows ρ N u typed) :
    (check Γ' (.paren expr' loc) .results).Follows ρ N u ⟨.paren typed, typed.ty, loc⟩ := by
  have hvalue : (check Γ' (.paren expr' loc) .results).value =
      ⟨.paren (check Γ' expr' .value).value, (check Γ' expr' .value).value.ty, loc⟩ := by
    simp only [check, Report.value_bind, Demand.settle, Report.value_pure]
  refine .of_value hvalue ?_ (.of_plain rfl rfl he.shadows.ty)
  simp only [check, Demand.settle, Typed.Expr.quiet, Typed.ExprKind.quiet]
  exact he.shows.bind_pure

mutual

/-- **The check of an expression with blurred types** shows the replaced annotations, and other
faults exactly if the result is not quiet. -/
theorem check_mirrors (hΓ : Γ.Proper false) : ∀ {expr expr' : Source.Expr} {u : List Location}
    {lost : Bool} {demand demand' : Demand} {t : Typed.Expr}, Γ.Tracks ρ N u Γ' →
      expr.Edits N u expr' → demand.Proper false → demand.Blurs ρ lost demand' →
        (u ≠ [] → demand' = demand) → (check Γ expr demand).Yields t →
          (check Γ' expr' demand').Mirrors ρ N u lost demand t
  | .nil _, _, _, _, _, _, _, hT, he, hd, hb, hx, h
  | .boolean _ _, _, _, _, _, _, _, hT, he, hd, hb, hx, h
  | .integer _ _, _, _, _, _, _, _, hT, he, hd, hb, hx, h
  | .float _ _, _, _, _, _, _, _, hT, he, hd, hb, hx, h
  | .string _ _, _, _, _, _, _, _, hT, he, hd, hb, hx, h => by
    cases he
    refine mirrors_of_results hΓ rfl rfl hd hb h fun hf => ?_
    simp only [check, Demand.settle, Report.yields_pure] at hf
    rw [hf, check, Demand.settle]
    exact literal_follows rfl (by simp only [Typed.ExprKind.quiet]) (by constructor)
  | .name text loc, _, _, _, _, _, _, hT, he, hd, hb, hx, h => by
    cases he
    refine mirrors_of_results hΓ rfl rfl hd hb h fun hf => ?_
    simp only [check, Report.yields_bind, Demand.settle, Report.yields_pure] at hf
    obtain ⟨_, hn, rfl⟩ := hf
    exact name_follows hT.blurs hn
  | .index object key loc, _, _, _, _, _, _, hT, he, hd, hb, hx, h => by
    cases he with
    | atom ha => cases ha
    | index ho hk =>
      refine mirrors_of_results hΓ rfl rfl hd hb h fun hf => ?_
      simp only [check, Report.yields_bind, Demand.settle, Report.yields_pure] at hf
      obtain ⟨array, ha, elem, helem, index, hi, rfl⟩ := hf
      have hoF := (check_mirrors hΓ hT.left ho Demand.proper_value .value (fun _ => rfl)
        ha).follows_value
      have hkM := check_mirrors hΓ hT.right hk (Demand.proper_ofType rfl)
        (Demand.blurs_ofType .integer) (fun _ => rfl) hi
      exact index_follows (check_value_known hΓ ha).2 helem hoF hkM.shows_value
  | .field object key loc, _, _, _, _, _, _, hT, he, hd, hb, hx, h => by
    cases he with
    | atom ha => cases ha
    | field ho =>
      refine mirrors_of_results hΓ rfl rfl hd hb h fun hf => ?_
      rw [check] at hf
      cases hlib : Γ.library? object with
      | some found =>
        simp only [hlib, Typed.Expr.ofMember, Report.yields_bind, Report.yields_orUnknown,
          Demand.settle, Report.yields_pure] at hf
        obtain ⟨_, ⟨ty, hl, rfl⟩, rfl⟩ := hf
        exact member_follows hT.blurs ho hlib hl
      | none =>
        simp only [hlib, Report.yields_bind, Demand.settle, Report.yields_pure] at hf
        obtain ⟨typed, ht, _, hfield, rfl⟩ := hf
        have hoF := (check_mirrors hΓ hT ho Demand.proper_value .value (fun _ => rfl)
          ht).follows_value
        exact field_follows hΓ hT.blurs ho hlib ht hfield hoF
  | .call callee args loc, _, _, _, _, _, _, hT, he, hd, hb, hx, h => by
    cases he with
    | atom ha => cases ha
    | @call u v _ callee' _ args' _ hc ha =>
      refine mirrors_of_results hΓ rfl rfl hd hb h fun {t} hf => ?_
      obtain ⟨found, params, returns, values, hfound, hty, hv, hfits, hs⟩ :=
        check_call_yields (fun hfound => (check_value_known hΓ hfound).2) hf
      have hcF := (check_mirrors hΓ hT.left hc Demand.proper_value .value (fun _ => rfl)
        hfound).follows_value
      have hpe := params_proper_of_callee hΓ hfound hty
      have hsame : v ≠ [] → (check Γ' callee' .value).value = found := by
        intro hne
        rw [hc.eq_of_nil (eq_nil_of_once hT.once hne), hT.right.same hne]
        exact hfound.value_eq
      rw [show t = _ from hs]
      exact call_follows hty (checkValues_proper hΓ hpe hv).1 hfits hcF hsame
        fun hb' hx' => checkValues_lists hΓ hT.right ha hpe hb' hx' hv
  | .unary op operand loc, _, _, _, _, _, _, hT, he, hd, hb, hx, h => by
    cases he with
    | atom ha => cases ha
    | unary ho =>
      refine mirrors_of_results hΓ rfl rfl hd hb h fun hf => ?_
      simp only [check, Report.yields_bind, Demand.settle, Report.yields_pure] at hf
      obtain ⟨typed, ht, _, hu, rfl⟩ := hf
      have hoF := (check_mirrors hΓ hT ho Demand.proper_value .value (fun _ => rfl)
        ht).follows_value
      exact unary_follows hu hoF
  | .binary left op right loc, _, _, _, _, _, _, hT, he, hd, hb, hx, h => by
    cases he with
    | atom ha => cases ha
    | binary hl hr =>
      refine mirrors_of_results hΓ rfl rfl hd hb h fun hf => ?_
      simp only [check, Report.yields_bind, Demand.settle, Report.yields_pure] at hf
      obtain ⟨lt, hlt, rt, hrt, _, hbin, rfl⟩ := hf
      have hlF := (check_mirrors hΓ hT.left hl Demand.proper_value .value (fun _ => rfl)
        hlt).follows_value
      have hrF := (check_mirrors hΓ hT.right hr Demand.proper_value .value (fun _ => rfl)
        hrt).follows_value
      exact binary_follows (check_value_known hΓ hlt).2 (check_value_known hΓ hrt).2 hbin
        hlF hrF
  | .cast expr target loc, _, _, _, _, _, _, hT, he, hd, hb, hx, h => by
    cases he with
    | atom ha => cases ha
    | cast he ht =>
      refine mirrors_of_results hΓ rfl rfl hd hb h fun hf => ?_
      simp only [check, Report.yields_bind, Report.yields_require, Demand.settle,
        Report.yields_pure] at hf
      obtain ⟨typed, he', ty, hty, _, hcast, rfl⟩ := hf
      have heF := (check_mirrors hΓ hT.left he Demand.proper_value .value (fun _ => rfl)
        he').follows_value
      exact cast_follows hΓ hT.blurs ht (check_value_known hΓ he').1 hty hcast heF
  | .paren expr loc, _, _, _, _, _, _, hT, he, hd, hb, hx, h => by
    cases he with
    | atom ha => cases ha
    | paren he =>
      refine mirrors_of_results hΓ rfl rfl hd hb h fun hf => ?_
      simp only [check, Report.yields_bind, Demand.settle, Report.yields_pure] at hf
      obtain ⟨typed, he', rfl⟩ := hf
      have heF := (check_mirrors hΓ hT he Demand.proper_value .value (fun _ => rfl)
        he').follows_value
      exact paren_follows heF
  | .init entries loc, _, u, _, _, _, _, hT, he, hd, hb, hx, h => by
    cases he with
    | atom ha => cases ha
    | init hes =>
      cases hb with
      | results => simp [check] at h
      | value => simp [check] at h
      | dropped =>
        have hu : u = [] := by
          by_contra hne
          cases hx hne
        rw [hu]
        exact init_mirrors
          (checkUntyped_undeclared hΓ hT hes hu (check_init_entriesTyped hd h))
      | @ofType want want' hty =>
        obtain ⟨ty, site⟩ := want
        obtain ⟨ty', site'⟩ := want'
        have hsame : u ≠ [] → ty' = ty := fun hne => by cases hx hne; rfl
        refine .of_shows rfl ?_
        cases hty with
        | unknown =>
          -- the entries are passed over, but the replacement is not among them
          have hu : u = [] := by
            by_contra hne
            rw [← hsame hne] at hd
            simp [Demand.Proper, Ty.proper] at hd
          rw [hu]
          exact unknownInit_shows
        | @array elem _ hb =>
          simp only [check, Report.yields_bind] at h
          obtain ⟨items, hi, -⟩ := h
          have hp : elem.proper false = true := hd
          exact arrayInit_shows
            (checkItems_shows hΓ hp hb hT hes (fun hne => by cases hsame hne; rfl) hi)
        | table hb _ | record _ hb _ =>
          simp only [check, Report.yields_bind] at h
          obtain ⟨items, hi, _, hreq, -⟩ := h
          rw [← Edits.names_eq hes] at hreq
          exact tableInit_shows rfl (requireFields_blurs hb hreq)
            (checkFields_shows hΓ hd hb hT hes (fun hne => by cases hsame hne; rfl) hi)
        | module => simp [Demand.Proper, Ty.proper] at hd
        | _ => simp [check] at h
termination_by structural expr => expr

theorem checkValues_lists (hΓ : Γ.Proper false) {site : Nat → Site} :
    ∀ {exprs exprs' : List Source.Expr} {u : List Location} {lost : Bool}
      {expected expected' : List (Option Ty)} {position : Nat} {values : Values},
      Γ.Tracks ρ N u Γ' → EditsEach (Expr.Edits N) u exprs exprs' →
        (∀ ty, some ty ∈ expected → ty.proper false = true) →
          ExpectedBlurs ρ lost expected expected' → (u ≠ [] → expected' = expected) →
            (checkValues Γ site exprs expected position).Yields values →
              (checkValues Γ' site exprs' expected' position).Lists ρ N u lost expected values
  | [], _, _, lost, _, _, _, values, hT, he, hpe, hb, hx, h => by
    cases he
    rw [checkValues, Report.yields_pure] at h
    rw [h, checkValues]
    refine ⟨?_, Or.inr rfl, by simp [Values.empty]⟩
    have hquiet : (Typed.Expr.quietList Values.empty.exprs &&
        (!lost || Values.empty.exprs.all fun expr => !expr.isInit)) = true := by
      simp [Values.empty, Typed.Expr.quietList]
    rw [Report.value_pure, hquiet]
    exact .of_faults_eq_nil rfl
  | expr :: rest, _, _, lost, expected, expected', position, values, hT, he, hpe, hb, hx, h => by
    cases he with
    | @cons u v _ expr' _ rest' he hes =>
      have hlast : (rest'.isEmpty && expr'.isCall) = (rest.isEmpty && expr.isCall) := by
        rw [hes.isEmpty_eq, he.isCall_eq]
      rw [checkValues] at h ⊢
      rw [hlast]
      split_ifs at h ⊢ with hc
      · rw [Bool.and_eq_true, List.isEmpty_iff] at hc
        obtain ⟨rfl, hcall⟩ := hc
        cases hes
        rw [Report.yields_bind] at h
        obtain ⟨call, hcheck, hv⟩ := h
        rw [List.append_nil] at hT ⊢
        have hcF := (check_mirrors hΓ hT he Demand.proper_results .results (fun _ => rfl)
          hcheck).follows_results
        exact lists_call hcF (check_call_proper hΓ hcall hcheck) hpe hb hv
      · simp only [Report.yields_bind, Report.yields_pure] at h
        obtain ⟨value, hv, values, hvs, rfl⟩ := h
        have hw := (hb.want site position 0).demand
        have hfirst := check_mirrors hΓ hT.left he (Demand.proper_ofWant_at hpe) hw
          (fun hne => by rw [hx (by simp [hne])]) hv
        have hrest := checkValues_lists hΓ hT.right hes
          (fun ty hty => hpe ty (List.mem_of_mem_tail hty)) hb.tail
          (fun hne => by rw [hx (by simp [hne])]) hvs
        exact lists_cons (fun hnone => by simp [Want.at?, hnone]) hfirst hrest
termination_by structural exprs => exprs

theorem checkItems_shows (hΓ : Γ.Proper false) {elem elem' : Ty} (hp : elem.proper false = true)
    (hb : elem.Blurs ρ elem') : ∀ {entries entries' : List Entry} {u : List Location}
      {items : List Typed.Expr}, Γ.Tracks ρ N u Γ' → EditsEach (Entry.Edits N) u entries entries' →
        (u ≠ [] → elem' = elem) → (checkItems Γ elem entries).Yields items →
          (checkItems Γ' elem' entries').Shows N u
            (Typed.Expr.quietList (checkItems Γ' elem' entries').value)
  | [], _, _, _, hT, he, hx, h => by
    cases he
    simp only [checkItems, Report.value_pure, Typed.Expr.quietList]
    exact .of_faults_eq_nil rfl
  | .positional value :: rest, _, _, items, hT, he, hx, h => by
    cases he with
    | @cons u v _ _ _ rest' he hes =>
      cases he with
      | @positional _ _ value' he =>
        simp only [checkItems, Report.yields_bind] at h
        obtain ⟨t, ht, items, hr, -⟩ := h
        have hfirst := check_mirrors hΓ hT.left he (Demand.proper_ofType hp) (Demand.blurs_ofType hb)
          (fun hne => by rw [hx (by simp [hne])]) ht
        have hrest := checkItems_shows hΓ hp hb hT.right hes (fun hne => hx (by simp [hne])) hr
        simp only [checkItems, Report.value_bind, Report.value_pure, Typed.Expr.quietList]
        exact hfirst.shows_value.bind hrest.bind_pure
  | .named _ _ _ :: _, _, _, _, _, _, _, h => by simp [checkItems] at h
termination_by structural entries => entries

theorem checkFields_shows (hΓ : Γ.Proper false) {target target' : Ty} {fields fields' : NameMap Ty}
    (hp : Ty.properFields false fields = true) (hb : Ty.FieldsBlur ρ fields fields') :
    ∀ {entries entries' : List Entry} {u : List Location} {seen : List String}
      {items : List (String × Typed.Expr)}, Γ.Tracks ρ N u Γ' →
        EditsEach (Entry.Edits N) u entries entries' → (u ≠ [] → fields' = fields) →
          (checkFields Γ target fields entries seen).Yields items →
            (checkFields Γ' target' fields' entries' seen).Shows N u
              (Typed.Expr.quietFields (checkFields Γ' target' fields' entries' seen).value)
  | [], _, _, _, _, hT, he, hx, h => by
    cases he
    simp only [checkFields, Report.value_pure, Typed.Expr.quietFields]
    exact .of_faults_eq_nil rfl
  | .positional _ :: _, _, _, _, _, _, _, _, h => by simp [checkFields] at h
  | .named key value loc :: rest, _, _, seen, items, hT, he, hx, h => by
    cases he with
    | @cons u v _ _ _ rest' he hes =>
      cases he with
      | @named _ _ _ value' _ he =>
        simp only [checkFields] at h ⊢
        split_ifs at h ⊢ with hseen
        · simp at h
        · cases hl : fields.lookup key with
          | none => simp [hl] at h
          | some ty =>
            simp only [hl, Report.yields_bind] at h
            obtain ⟨t, ht, items, hr, -⟩ := h
            obtain ⟨ty', hl', hbty⟩ := hb.lookup_some hl
            have hsame : u ≠ [] → ty' = ty := by
              intro hne
              rw [hx (by simp [hne]), hl] at hl'
              cases hl'
              rfl
            have hfirst := check_mirrors hΓ hT.left he
              (Demand.proper_ofType (Ty.proper_of_lookup hp hl)) (Demand.blurs_ofType hbty)
              (fun hne => by rw [hsame hne]) ht
            simp only [hl', Report.value_bind, Report.value_pure, Typed.Expr.quietFields]
            refine hfirst.shows_value.bind (Report.Shows.bind_pure ?_)
            exact checkFields_shows hΓ hp hb hT.right hes (fun hne => hx (by simp [hne])) hr
termination_by structural entries => entries

/-- Entries that are not edited have no undeclared types in them. -/
theorem checkUntyped_undeclared (hΓ : Γ.Proper false) : ∀ {entries entries' : List Entry}
    {u : List Location}, Γ.Tracks ρ N u Γ' → EditsEach (Entry.Edits N) u entries entries' → u = [] →
      EntriesTyped Γ entries →
        (checkUntyped Γ' entries').faults.filter Fault.isUndeclaredType = []
  | [], _, _, _, he, _, _ => by
    cases he
    rfl
  | .positional value :: rest, _, _, hT, he, hu, htyped => by
    cases he with
    | @cons u v _ _ _ rest' he hes =>
      cases he with
      | positional he =>
        obtain ⟨⟨want, t, hp, ht⟩, htyped⟩ := List.forall_mem_cons.mp htyped
        have hfirst := check_mirrors hΓ hT.left he (Demand.proper_ofType hp) .dropped
          (fun hne => absurd (append_eq_nil_left hu) hne) ht
        have hrest := checkUntyped_undeclared hΓ hT.right hes (append_eq_nil_right hu) htyped
        simp only [checkUntyped]
        split
        · exact hrest
        · rw [Report.faults_bind, List.filter_append, hfirst.shows.undeclared, hrest,
            append_eq_nil_left hu]
          rfl
  | .named key value loc :: rest, _, _, hT, he, hu, htyped => by
    cases he with
    | @cons u v _ _ _ rest' he hes =>
      cases he with
      | named he =>
        obtain ⟨⟨want, t, hp, ht⟩, htyped⟩ := List.forall_mem_cons.mp htyped
        have hfirst := check_mirrors hΓ hT.left he (Demand.proper_ofType hp) .dropped
          (fun hne => absurd (append_eq_nil_left hu) hne) ht
        have hrest := checkUntyped_undeclared hΓ hT.right hes (append_eq_nil_right hu) htyped
        simp only [checkUntyped]
        split
        · exact hrest
        · rw [Report.faults_bind, List.filter_append, hfirst.shows.undeclared, hrest,
            append_eq_nil_left hu]
          rfl
termination_by structural entries => entries

end

end Source.Expr

end LuaTyping
