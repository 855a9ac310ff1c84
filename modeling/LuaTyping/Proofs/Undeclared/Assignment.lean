import LuaTyping.Proofs.Proper.Assignment
import LuaTyping.Proofs.Undeclared.Expr

/-!
# Declarations and assignments with types that are unknown in part

A declaration in a blurred context shows the replaced annotations of the variables and then those in
the values, and leads to a blurred context (`declareVars_leads`).  An assignment does the same for
its targets and its values (`assign_shows`).
-/

namespace LuaTyping

variable {ρ : String → NameMap Ty} {N : String} {u v : List Location} {Γ Γ' Δ : Context}
  {loc : Location}

/-- A check that shows the replacements at `u` and leads to a context with blurred types. -/
structure Report.Leads {α : Type} (ρ : String → NameMap Ty) (N : String) (u : List Location)
    (quiet : α → Bool) (Δ : Context) (report : Report (α × Context)) : Prop where
  shows : report.Shows N u (quiet report.value.1)
  context : Δ.Blurs ρ N report.value.2

/-- A check of every element of a list, one after the other. -/
theorem Report.mapM_shows {α β : Type} {R : List Location → α → α → Prop} (f f' : α → Report β)
    (quiet : β → Bool) (S : β → β → Prop)
    (hstep : ∀ u a a' b, Γ.Tracks ρ N u Γ' → R u a a' → (f a).Yields b →
      (f' a').Shows N u (quiet (f' a').value) ∧ S b (f' a').value)
    {as as' : List α} {u : List Location} {bs : List β} (hT : Γ.Tracks ρ N u Γ')
    (has : EditsEach R u as as') (h : (as.mapM f).Yields bs) :
    (as'.mapM f').Shows N u ((as'.mapM f').value.all quiet) ∧
      List.Forall₂ S bs (as'.mapM f').value := by
  induction has generalizing bs with
  | nil =>
    rw [List.mapM_nil, Report.yields_pure] at h
    rw [List.mapM_nil, h]
    exact ⟨.of_faults_eq_nil rfl, .nil⟩
  | cons ha _ ih =>
    simp only [List.mapM_cons, Report.yields_bind, Report.yields_pure] at h
    obtain ⟨b, hb, bs, hbs, rfl⟩ := h
    obtain ⟨hfirst, hs⟩ := hstep _ _ _ _ hT.left ha hb
    obtain ⟨hrest, hss⟩ := ih hT.right hbs
    simp only [List.mapM_cons, Report.value_bind, Report.value_pure, List.all_cons]
    exact ⟨hfirst.bind hrest.bind_pure, .cons hs hss⟩

/-! ### Declarations -/

namespace Source.Decl

/-- A declaration of the same name with a blurred type, or of no type at all. -/
def StatedBlurs (ρ : String → NameMap Ty) (decl decl' : Decl × Option Ty) : Prop :=
  decl'.1.name = decl.1.name ∧ Option.Rel (Ty.Blurs ρ) decl.2 decl'.2

theorem Edits.stated {decl decl' : Decl} {stated : Option Ty} (he : decl.Edits N u decl')
    (hB : Γ.Blurs ρ N Γ') (h : (decl.stated Γ).Yields stated) :
    (decl'.stated Γ').Shows N u true ∧ Option.Rel (Ty.Blurs ρ) stated (decl'.stated Γ').value := by
  cases he with
  | untyped =>
    rw [Decl.stated, Report.yields_pure] at h
    rw [Decl.stated, h]
    exact ⟨.of_faults_eq_nil rfl, .none⟩
  | typed he =>
    simp only [Decl.stated, Report.yields_bind, Report.yields_pure] at h
    obtain ⟨ty, ht, rfl⟩ := h
    obtain ⟨ty', ht', hb⟩ := he.resolve hB.types hB.undeclared ht
    simp only [Decl.stated, ht']
    exact ⟨Report.Shows.of_undeclaredAt.bind_pure, .some hb⟩

theorem Edits.statedAll {decls decls' : List Decl} {stated : List (Option Ty)}
    (hT : Γ.Tracks ρ N u Γ') (he : EditsEach (Decl.Edits N) u decls decls')
    (h : (decls.mapM (Decl.stated Γ)).Yields stated) :
    (decls'.mapM (Decl.stated Γ')).Shows N u true ∧
      List.Forall₂ (Option.Rel (Ty.Blurs ρ)) stated (decls'.mapM (Decl.stated Γ')).value := by
  obtain ⟨hshows, hrel⟩ := Report.mapM_shows (Decl.stated Γ) (Decl.stated Γ') (fun _ => true)
    (Option.Rel (Ty.Blurs ρ)) (fun _ _ _ _ hT he h => he.stated hT.blurs h) hT he h
  rw [List.all_eq_true.mpr fun _ _ => rfl] at hshows
  exact ⟨hshows, hrel⟩

theorem Edits.zip : ∀ {decls decls' : List Decl} {u : List Location}
    {stated stated' : List (Option Ty)}, EditsEach (Decl.Edits N) u decls decls' →
      List.Forall₂ (Option.Rel (Ty.Blurs ρ)) stated stated' →
        List.Forall₂ (StatedBlurs ρ) (decls.zip stated) (decls'.zip stated')
  | _, _, _, _, _, .nil, _ => .nil
  | _ :: _, _, _, _, _, .cons _ _, .nil => .nil
  | _ :: _, _, _, _, _, .cons h hs, .cons hty htys => .cons ⟨h.name_eq, hty⟩ (Edits.zip hs htys)

section
variable {decls decls' : List (Decl × Option Ty)}

theorem StatedBlurs.expected (h : List.Forall₂ (StatedBlurs ρ) decls decls') :
    ExpectedBlurs ρ false (decls.map Prod.snd) (decls'.map Prod.snd) :=
  List.forall₂_map_left_iff.mpr (List.forall₂_map_right_iff.mpr (h.imp fun _ _ hd => hd.2))

theorem StatedBlurs.site_eq (h : List.Forall₂ (StatedBlurs ρ) decls decls') :
    Decl.site (decls'.map Prod.fst) = Decl.site (decls.map Prod.fst) := by
  have hnames : decls'.map (·.1.name) = decls.map (·.1.name) := by
    induction h with
    | nil => rfl
    | cons hd _ ih => rw [List.map_cons, List.map_cons, hd.1, ih]
  funext position
  have hat := congrArg (fun names => (names[position]?).getD "") hnames
  simpa [Decl.site, List.getElem?_map, Function.comp_def] using hat

theorem requireStated_blurs (hb : List.Forall₂ (StatedBlurs ρ) decls decls')
    (h : (requireStated decls).Yields ()) : (requireStated decls').Yields () := by
  induction hb with
  | nil => exact h
  | @cons decl decl' _ _ hd _ ih =>
    obtain ⟨decl, stated⟩ := decl
    obtain ⟨decl', stated'⟩ := decl'
    simp only [requireStated, Report.yields_bind, Report.yields_require] at h ⊢
    obtain ⟨_, hs, hr⟩ := h
    refine ⟨(), ?_, ih hr⟩
    obtain ⟨-, hrel⟩ := hd
    cases hrel with
    | none => exact hs
    | some _ => rfl

end

theorem typed_blurs {decl decl' : Decl} {stated stated' value value' : Option Ty}
    {typed : Typed.Decl} (hd : StatedBlurs ρ (decl, stated) (decl', stated'))
    (hs : stated.isSome = true ∨ value.isSome = true)
    (hv : ∀ ty ty', stated = none → value = some ty → value' = some ty' → ty.Blurs ρ ty')
    (h : (decl.typed stated value).Yields typed) :
    ∃ typed', (decl'.typed stated' value').Yields typed' ∧ typed.Blurs ρ typed' := by
  obtain ⟨hname, hrel⟩ := hd
  obtain ⟨ty, rfl, rfl | ⟨rfl, rfl, hm⟩⟩ := typed_yields h hs
  · cases hrel with
    | some hb => exact ⟨_, rfl, hname, hb⟩
  · cases hrel
    cases value' with
    | none => exact ⟨_, rfl, hname, .unknown⟩
    | some ty' =>
      have hb := hv ty ty' rfl rfl rfl
      refine ⟨.plain decl'.name ty' decl'.loc, ?_, hname, hb⟩
      cases hb with
      | module => cases hm
      | _ => rfl

/-- Variables with blurred types.  A variable takes the type of its value only if it states none,
and then the value has a blurred type or is missing. -/
theorem typedAll_blurs {decls decls' : List (Decl × Option Ty)} {types types' : List Ty}
    {typed : List Typed.Decl} (hds : List.Forall₂ (StatedBlurs ρ) decls decls')
    (hc : Covered decls types)
    (ht : ∀ (j : Nat) (ty ty' : Ty), (decls.map Prod.snd)[j]?.join = none → types[j]? = some ty →
      types'[j]? = some ty' → ty.Blurs ρ ty')
    (h : (typedAll decls types).Yields typed) :
    ∃ typed', (typedAll decls' types').Yields typed' ∧
      List.Forall₂ (Typed.Decl.Blurs ρ) typed typed' := by
  induction hds generalizing types types' typed with
  | nil =>
    rw [typedAll, Report.yields_pure] at h
    exact ⟨[], rfl, by rw [h]; exact .nil⟩
  | @cons entry entry' _ _ hd hds ih =>
    obtain ⟨decl, stated⟩ := entry
    obtain ⟨decl', stated'⟩ := entry'
    simp only [typedAll, Report.yields_bind, Report.yields_pure] at h ⊢
    obtain ⟨first, hf, rest, hr, rfl⟩ := h
    have hhead : ∀ ty ty', stated = none → types.head? = some ty → types'.head? = some ty' →
        ty.Blurs ρ ty' := by
      intro ty ty' hnone hty hty'
      rw [List.head?_eq_getElem?] at hty hty'
      exact ht 0 ty ty' (by simp [hnone]) hty hty'
    obtain ⟨first', hf', hfirst⟩ := typed_blurs hd hc.head hhead hf
    obtain ⟨rest', hr', hrest⟩ := ih hc.tail (fun j ty ty' hnone hty hty' => by
      rw [List.getElem?_tail] at hty hty'
      exact ht (j + 1) ty ty' hnone hty hty') hr
    exact ⟨_, ⟨first', hf', rest', hr', rfl⟩, .cons hfirst hrest⟩

end Source.Decl

namespace Context

/-- The values of a declaration. -/
theorem declaredValues_lists (hΓ : Γ.Proper false) {decls decls' : List (Source.Decl × Option Ty)}
    {exprs exprs' : List Source.Expr} {list : Values} (hT : Γ.Tracks ρ N v Γ')
    (he : EditsEach (Source.Expr.Edits N) v exprs exprs')
    (hp : ∀ decl ∈ decls, ∀ ty ∈ decl.2, ty.proper false = true)
    (hb : List.Forall₂ (Source.Decl.StatedBlurs ρ) decls decls') (hx : v ≠ [] → decls' = decls)
    (h : (Γ.declaredValues decls exprs loc).Yields list) :
    (Γ'.declaredValues decls' exprs' loc).Lists ρ N v false (decls.map Prod.snd) list := by
  unfold declaredValues at h ⊢
  rw [he.isEmpty_eq]
  split_ifs at h ⊢ with hempty
  · simp only [Report.yields_bind, Report.yields_pure] at h
    obtain ⟨_, hr, rfl⟩ := h
    rw [(Source.Decl.requireStated_blurs hb hr).bind_eq]
    rw [List.isEmpty_iff] at hempty
    subst hempty
    cases he
    exact ⟨.of_faults_eq_nil rfl, Or.inr rfl, by simp [Values.empty]⟩
  · simp only [Report.yields_bind, Report.yields_require, Report.yields_pure] at h
    obtain ⟨_, hv, _, hf, rfl⟩ := h
    have hpe : ∀ ty, some ty ∈ decls.map Prod.snd → ty.proper false = true := by
      intro ty hty
      obtain ⟨decl, hd, hs⟩ := List.mem_map.mp hty
      exact hp decl hd ty hs
    have hl := Source.Expr.checkValues_lists hΓ hT he hpe (Source.Decl.StatedBlurs.expected hb)
      (fun hne => by rw [hx hne]) hv
    have hfits := hl.shadows.fits (Source.Expr.checkValues_proper hΓ hpe hv).1 hf
    simp only [Source.Decl.StatedBlurs.site_eq hb, ← hb.length_eq]
    exact ⟨hl.shows.bind_shown (.bind_pure (.of_require hfits)), hl.shadows⟩

/-- **Declarations with blurred types** show the replaced annotations and lead to a blurred
context. -/
theorem declareVars_leads (hΓ : Γ.Proper false) {decls decls' : List Source.Decl}
    {exprs exprs' : List Source.Expr} {typed : List Typed.Decl} {values : List Typed.Expr}
    (hT : Γ.Tracks ρ N (u ++ v) Γ') (hd : EditsEach (Source.Decl.Edits N) u decls decls')
    (he : EditsEach (Source.Expr.Edits N) v exprs exprs')
    (h : (Γ.declareVars decls exprs loc).Yields ((typed, values), Δ)) :
    (Γ'.declareVars decls' exprs' loc).Leads ρ N (u ++ v)
      (fun found => Typed.Expr.quietList found.2) Δ := by
  simp only [declareVars, Report.yields_bind, Report.yields_pure, Prod.mk.injEq] at h
  obtain ⟨stated, hs, list, hv, typed', ht, Δ', hdecl, ⟨rfl, rfl⟩, rfl⟩ := h
  obtain ⟨hshows, hrel⟩ := Source.Decl.Edits.statedAll hT.left hd hs
  generalize hstated' : (decls'.mapM (Source.Decl.stated Γ')).value = stated' at hrel
  have hblurs := Source.Decl.Edits.zip hd hrel
  have hsame : v ≠ [] → decls'.zip stated' = decls.zip stated := by
    intro hne
    rw [← hstated', Source.Decl.Edits.list_eq_of_nil hd (eq_nil_of_once hT.once hne),
      hT.right.same hne, hs.value_eq]
  have hp := stated_zip_proper hΓ hs
  have hl := declaredValues_lists hΓ hT.right he hp hblurs hsame hv
  obtain ⟨hc, -⟩ := declaredValues_proper hΓ hp hv
  obtain ⟨typed', ht', htyped⟩ := Source.Decl.typedAll_blurs hblurs hc hl.shadows.types ht
  obtain ⟨Δ', hd', hΔ⟩ := hT.blurs.declareAll htyped hdecl
  rw [← hT.blurs.varKind] at hd'
  have hvalue : (Γ'.declareVars decls' exprs' loc).value =
      ((typed', (Γ'.declaredValues (decls'.zip stated') exprs' loc).value.exprs), Δ') := by
    simp only [declareVars, Report.value_bind, Report.value_pure, hstated', ht'.value_eq,
      hd'.value_eq]
  refine ⟨?_, by rwa [hvalue]⟩
  rw [hvalue]
  refine hshows.bind_after ?_
  rw [hstated']
  refine hl.shows_values.bind_shown ?_
  rw [ht'.bind_eq, hd'.bind_eq]
  exact .of_faults_eq_nil rfl

end Context

/-! ### Targets -/

theorem Typed.Expr.target?_of_isSome {t : Typed.Expr} (h : t.target?.isSome = true) :
    ∃ found, t.target? = some found ∧ found.ty = t.ty ∧ found.quiet = t.quiet := by
  obtain ⟨kind, ty, loc⟩ := t
  unfold Typed.Expr.target? at h ⊢
  cases kind with
  | moduleField | field | index =>
    exact ⟨_, rfl, rfl, by simp only [Typed.Target.quiet, Typed.Expr.quiet, Typed.ExprKind.quiet]⟩
  | _ => cases h

/-- The expressions in a target are quiet. -/
def quietTarget (target : Option Typed.Target) : Bool :=
  (target.map Typed.Target.quiet).getD true

/-- Targets that take values of a type and of a blurred type. -/
def TargetBlurs (ρ : String → NameMap Ty) (target target' : Option Typed.Target) : Prop :=
  ∃ found found', target = some found ∧ target' = some found' ∧ found.ty.Blurs ρ found'.ty

theorem all_quietTarget {targets : List (Option Typed.Target)} :
    targets.all quietTarget = (targets.filterMap id).all Typed.Target.quiet := by
  induction targets with
  | nil => rfl
  | cons target rest ih => cases target <;> simp [quietTarget, ih]

theorem TargetBlurs.expected {targets targets' : List (Option Typed.Target)}
    (h : List.Forall₂ (TargetBlurs ρ) targets targets') :
    ExpectedBlurs ρ false (targets.map fun target => some (Typed.Target.wanted target))
      (targets'.map fun target => some (Typed.Target.wanted target)) := by
  refine List.forall₂_map_left_iff.mpr (List.forall₂_map_right_iff.mpr (h.imp ?_))
  rintro _ _ ⟨found, found', rfl, rfl, hb⟩
  exact .some hb

namespace Context

/-- A member or an element as a target. -/
theorem member_shows {expr' : Source.Expr} {typed : Typed.Expr} {found : Typed.Target}
    (hf : (expr'.check Γ' .results).Follows ρ N u typed) (ht : typed.target? = some found)
    (hs : (expr'.check Γ' .results).value.target?.isSome = true) :
    (expr'.check Γ' .results >>= fun typed => pure typed.target?).Shows N u
        (quietTarget (expr'.check Γ' .results).value.target?) ∧
      TargetBlurs ρ (some found) (expr'.check Γ' .results).value.target? := by
  obtain ⟨found', ht', hty', hq⟩ := Typed.Expr.target?_of_isSome hs
  obtain ⟨_, hfound, hty, -⟩ := Typed.Expr.target?_of_isSome (ht ▸ rfl : typed.target?.isSome = true)
  rw [ht] at hfound
  cases hfound
  have hquiet : quietTarget (some found') = (expr'.check Γ' .results).value.quiet := hq
  refine ⟨?_, found, found', rfl, ht', ?_⟩
  · rw [ht', hquiet]
    exact hf.shows.bind_pure
  · rw [hty, hty']
    exact hf.shadows.ty

theorem target?_fieldExpr {object : Typed.Expr} {field : String} :
    (Γ.fieldExpr object field loc).value.target?.isSome = true := by
  unfold fieldExpr
  split <;> rfl

theorem target_shows (hΓ : Γ.Proper false) {expr expr' : Source.Expr}
    {target : Option Typed.Target} (hT : Γ.Tracks ρ N u Γ') (he : expr.Edits N u expr')
    (h : (Γ.target expr).Yields target) :
    (Γ'.target expr').Shows N u (quietTarget (Γ'.target expr').value) ∧
      TargetBlurs ρ target (Γ'.target expr').value := by
  cases he with
  | atom ha =>
    cases expr with
    | name name site =>
      simp only [Context.target] at h ⊢
      obtain ⟨ty, declared, ⟨hl, rfl⟩ | ⟨hl, rfl⟩⟩ := nameTarget_yields h
      all_goals
        obtain ⟨ty', declared', hl', hb⟩ := hT.blurs.lookup_var hl
        simp only [Context.nameTarget, hl']
        exact ⟨.of_faults_eq_nil rfl, _, _, rfl, rfl, hb⟩
    | nil | boolean | integer | float | string => simp [Context.target] at h
    | _ => cases ha
  | @field _ _ object' key site ho =>
    simp only [Context.target] at h ⊢
    rw [hT.blurs.library?_eq ho]
    split at h
    · simp at h
    · next hlib =>
      simp only [Report.yields_bind, Report.yields_pure] at h
      obtain ⟨typed, hc, rfl⟩ := h
      have hf := (Source.Expr.check_mirrors hΓ hT (.field ho) Demand.proper_results .results
        (fun _ => rfl) hc).follows_results
      obtain ⟨found, ht⟩ : ∃ found, typed.target? = some found := by
        rcases target?_of_field hΓ hlib hc with ⟨_, _, ht⟩ | ⟨_, _, ht⟩ <;> exact ⟨_, ht⟩
      rw [ht]
      refine member_shows hf ht ?_
      simp only [Source.Expr.check, hT.blurs.library?_eq ho, hlib, Report.value_bind, Demand.settle,
        Report.value_pure]
      exact target?_fieldExpr
  | @index _ _ _ object' _ key' site ho hk =>
    simp only [Context.target, Report.yields_bind, Report.yields_pure] at h ⊢
    obtain ⟨typed, hc, rfl⟩ := h
    have hf := (Source.Expr.check_mirrors hΓ hT (.index ho hk) Demand.proper_results .results
      (fun _ => rfl) hc).follows_results
    obtain ⟨_, _, _, ht⟩ := target?_of_index hc
    rw [ht]
    refine member_shows hf ht ?_
    simp only [Source.Expr.check, Report.value_bind, Demand.settle, Report.value_pure]
    rfl
  | _ => simp [Context.target] at h

/-- The types that the targets want are proper. -/
theorem wanted_proper (hΓ : Γ.Proper false) {targets : List Source.Expr}
    {found : List (Option Typed.Target)} (h : (targets.mapM Γ.target).Yields found) :
    ∀ ty, some ty ∈ found.map (fun target => some (Typed.Target.wanted target)) →
      ty.proper false = true := by
  have hf := Report.yields_mapM.mp h
  obtain ⟨typed, rfl⟩ := targets_eq_map_some hΓ hf
  rw [List.forall₂_map_right_iff] at hf
  simpa [Typed.Target.wanted, Function.comp_def] using targets_expected_proper hΓ hf

/-- **Assignments with blurred types** show the replaced annotations. -/
theorem assign_shows (hΓ : Γ.Proper false) {targets targets' exprs exprs' : List Source.Expr}
    {typed : List Typed.Target} {values : List Typed.Expr} (hT : Γ.Tracks ρ N (u ++ v) Γ')
    (ht : EditsEach (Source.Expr.Edits N) u targets targets')
    (he : EditsEach (Source.Expr.Edits N) v exprs exprs')
    (h : (Γ.assign targets exprs loc).Yields (typed, values)) :
    (Γ'.assign targets' exprs' loc).Shows N (u ++ v)
      ((Γ'.assign targets' exprs' loc).value.1.all Typed.Target.quiet &&
        Typed.Expr.quietList (Γ'.assign targets' exprs' loc).value.2) := by
  simp only [assign, Report.yields_bind, Report.yields_require, Report.yields_pure] at h
  obtain ⟨found, hf, list, hv, _, hfit, -⟩ := h
  obtain ⟨hshows, hrel⟩ := Report.mapM_shows Γ.target Γ'.target quietTarget (TargetBlurs ρ)
    (fun _ _ _ _ hT he h => target_shows hΓ hT he h) hT.left ht hf
  generalize hfound' : (targets'.mapM Γ'.target).value = found' at hshows hrel
  have hsame : v ≠ [] → found' = found := by
    intro hne
    rw [← hfound', Source.Expr.Edits.list_eq_of_nil ht (eq_nil_of_once hT.once hne),
      hT.right.same hne, hf.value_eq]
  have hpe := wanted_proper hΓ hf
  have hl := Source.Expr.checkValues_lists hΓ hT.right he hpe (TargetBlurs.expected hrel)
    (fun hne => by rw [hsame hne]) hv
  have hfits := hl.shadows.fits (Source.Expr.checkValues_proper hΓ hpe hv).1 hfit
  have hvalue : (Γ'.assign targets' exprs' loc).value = (found'.filterMap id,
      (Source.Expr.checkValues Γ' (fun _ => .assignment) exprs'
        (found'.map fun target => some (Typed.Target.wanted target)) 0).value.exprs) := by
    simp only [assign, Report.value_bind, Report.value_pure, hfound']
  rw [hvalue, ← all_quietTarget]
  unfold assign
  refine hshows.bind ?_
  rw [hfound', ht.length_eq]
  exact hl.shows_values.bind_shown (.bind_pure (.of_require hfits))

end Context

end LuaTyping
