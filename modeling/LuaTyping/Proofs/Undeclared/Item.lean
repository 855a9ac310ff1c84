import LuaTyping.Proofs.Frame.Declare
import LuaTyping.Proofs.Soundness.Program
import LuaTyping.Proofs.Undeclared.Stmt

/-!
# Items with types that are unknown in part

An item in a blurred context shows the replaced annotations in it, shows other faults exactly if it
is not quiet, and leads to a blurred context (`Item.check_leads`).  A record with a replaced
annotation is declared with blurred fields under its own name, so which fields a record has in the
second program is settled for the whole program in advance, as `ρ`.
-/

namespace LuaTyping

variable {ρ : String → NameMap Ty} {N : String} {u v w : List Location} {Γ Γ' Δ : Context}
  {options : Options} {loc : Location}

namespace Context

/-! ### The module variable -/

theorem isModuleVar_eq {name : String} :
    Γ.isModuleVar name = ((Γ.env.vars name).map Prod.fst == some .module) := by
  unfold isModuleVar Scopes.lookup
  simp only [Context.env]
  cases Γ.scopes.var? name with
  | none => cases Γ.scopes.builtins.get? name with
    | none => rfl
    | some builtin => cases builtin <;> rfl
  | some binding => cases hk : binding.kind <;> simp [hk]

theorem Blurs.isModuleVar_eq (h : Γ.Blurs ρ N Γ') {name : String} :
    Γ'.isModuleVar name = Γ.isModuleVar name := by
  have hrel := h.env.vars name
  rw [Context.isModuleVar_eq, Context.isModuleVar_eq]
  generalize Γ.env.vars name = found, Γ'.env.vars name = found' at hrel ⊢
  cases hrel with
  | none => rfl
  | some hvar => rw [Option.map_some, Option.map_some, hvar.1]

theorem Blurs.moduleField?_eq (h : Γ.Blurs ρ N Γ') {expr expr' : Source.Expr}
    (he : expr.Edits N u expr') : Γ'.moduleField? expr' = Γ.moduleField? expr := by
  cases he with
  | atom ha => cases expr <;> first | rfl | cases ha
  | @field _ object _ _ _ ho =>
    cases ho with
    | atom ha =>
      cases object with
      | name name site => simp only [moduleField?, h.isModuleVar_eq]
      | nil | boolean | integer | float | string => rfl
      | _ => cases ha
    | _ => rfl
  | _ => rfl

/-- The module variable has no annotation that could be replaced. -/
theorem moduleVar_leads {decl : Source.Decl} {values values' : List Source.Expr}
    {item : Typed.Item} (hB : Γ.Blurs ρ N Γ') (he : EditsEach (Source.Expr.Edits N) u values values')
    (h : (Γ.moduleVar decl values loc).Yields (item, Δ)) :
    (Γ'.moduleVar decl values' loc).Leads ρ N u Typed.Item.quiet Δ := by
  simp only [moduleVar, Report.yields_bind, Report.yields_pure, Prod.mk.injEq] at h
  obtain ⟨value, hv, Δ₁, hd, -, rfl⟩ := h
  obtain ⟨Δ', hd', hΔ⟩ := hB.declareModule hd
  unfold moduleInit at hv
  split at hv
  · next entries initLoc =>
    simp only [Source.Expr.check, Report.yields_bind, Report.yields_require,
      Report.yields_pure] at hv
    obtain ⟨_, hempty, -⟩ := hv
    rw [List.isEmpty_iff] at hempty
    subst hempty
    -- the constructor has no entries, so it has no annotations either
    cases he with
    | cons hinit hnil =>
      cases hnil
      cases hinit with
      | atom ha => cases ha
      | init hentries =>
        cases hentries
        have hvalue : (Γ'.moduleInit decl.name [.init [] initLoc] loc).Yields
            ⟨.moduleInit, .module [], initLoc⟩ := by
          simp only [moduleInit, Source.Expr.check]
          rfl
        unfold moduleVar
        rw [hvalue.bind_eq, hd'.bind_eq]
        exact ⟨.of_faults_eq_nil rfl, hΔ⟩
  · simp at hv

/-! ### Functions -/

theorem param_shows {decl decl' : Source.Decl} {typed : Typed.Decl} (hB : Γ.Blurs ρ N Γ')
    (he : decl.Edits N u decl') (h : (Γ.param decl).Yields typed) :
    (Γ'.param decl').Shows N u true ∧ typed.Blurs ρ (Γ'.param decl').value := by
  obtain ⟨ty, hs, rfl⟩ := param_yields h
  obtain ⟨hshows, hrel⟩ := he.stated hB hs
  have hvalue : (Γ'.param decl').value =
      .plain decl'.name ((decl'.stated Γ').value.getD .unknown) decl'.loc := rfl
  rw [hvalue]
  unfold param
  generalize decl'.stated Γ' = stated' at hshows hrel ⊢
  obtain ⟨found', faults⟩ := stated'
  cases hrel with
  | some hb => exact ⟨hshows.bind_shown (.bind_pure (.of_require rfl)), he.name_eq, hb⟩

theorem params_shows {decls decls' : List Source.Decl} {params : List Typed.Decl}
    (hT : Γ.Tracks ρ N u Γ') (he : EditsEach (Source.Decl.Edits N) u decls decls')
    (h : (decls.mapM Γ.param).Yields params) :
    (decls'.mapM Γ'.param).Shows N u true ∧
      List.Forall₂ (Typed.Decl.Blurs ρ) params (decls'.mapM Γ'.param).value := by
  obtain ⟨hshows, hrel⟩ := Report.mapM_shows Γ.param Γ'.param (fun _ => true)
    (Typed.Decl.Blurs ρ) (fun _ _ _ _ hT he h => param_shows hT.blurs he h) hT he h
  rw [List.all_eq_true.mpr fun _ _ => rfl] at hshows
  exact ⟨hshows, hrel⟩

theorem Blurs.declareFunction (hB : Γ.Blurs ρ N Γ') {name : Source.FunctionName} {ty ty' : Ty}
    (hty : ty.Blurs ρ ty') (h : (declareFunction options Γ name ty loc).Yields Δ) :
    ∃ Δ', (declareFunction options Γ' name ty' loc).Yields Δ' ∧ Δ.Blurs ρ N Δ' := by
  rcases declareFunction_yields h with ⟨plain, rfl, hd⟩ | ⟨module, field, rfl, hm, hd⟩
  · exact hB.declare hd ⟨ty', loc, .toplevel⟩ rfl hty
  · simp only [Context.declareFunction, hB.isModuleVar_eq, hm, if_true]
    exact hB.declareField hty hd

/-- The body of a function, in contexts with its parameters. -/
theorem functionBody_shows (hΓ : Γ.Proper false) {params params' : List Typed.Decl}
    {returns returns' : List Ty} {body body' : Source.Block} {typed : Typed.Block}
    (hpp : ∀ decl ∈ params, decl.ty.proper false = true)
    (hpr : ∀ ty ∈ returns, ty.proper false = true) (hT : Γ.Tracks ρ N u Γ')
    (hp : List.Forall₂ (Typed.Decl.Blurs ρ) params params')
    (hr : List.Forall₂ (Ty.Blurs ρ) returns returns')
    (hs : u ≠ [] → params' = params ∧ returns' = returns)
    (he : EditsEach (Source.Stmt.Edits N) u body body')
    (h : (Γ.functionBody params returns body loc).Yields typed) :
    (Γ'.functionBody params' returns' body' loc).Shows N u
      (Typed.Stmt.quietList (Γ'.functionBody params' returns' body' loc).value) := by
  simp only [functionBody, Report.yields_bind, Report.yields_require, Report.yields_pure] at h
  obtain ⟨Γ₁, hall, ⟨typed, Δ'⟩, hblock, _, hret, rfl⟩ := h
  obtain ⟨Γ₁', hall', hΓ₁⟩ := (hT.blurs.enterFunction hr).declareAll hp hall
  have hT₁ : Γ₁.Tracks ρ N u Γ₁' := by
    refine ⟨hΓ₁, hT.once, fun hu => ?_⟩
    obtain ⟨hsp, hsr⟩ := hs hu
    rw [hsp, hsr, hT.same hu] at hall'
    exact hall'.unique hall
  have hl := Source.Stmt.checkBlock_leads (hΓ.functionBody hpp hpr hall).1 hT₁ he hblock
  have hret' : (returns'.isEmpty || Source.Block.returns body') = true := by
    have hempty : returns'.isEmpty = returns.isEmpty := by cases hr <;> rfl
    rwa [Source.Stmt.Edits.block_returns_eq he, hempty]
  unfold functionBody
  rw [hall'.bind_eq]
  exact hl.shows.bind_shown (.bind_pure (.of_require hret'))

/-- **Functions with blurred types** show the replaced annotations of the parameters, of the results
and in the body. -/
theorem function_leads (hΓ : Γ.Proper false) (hk : Γ.varKind = .toplevel)
    {name : Source.FunctionName} {params params' : List Source.Decl}
    {returns returns' : List TypeExpr} {body body' : Source.Block} {item : Typed.Item}
    (hT : Γ.Tracks ρ N (u ++ (v ++ w)) Γ')
    (hp : EditsEach (Source.Decl.Edits N) u params params')
    (hr : EditsEach (TypeExpr.Edits N) v returns returns')
    (hb : EditsEach (Source.Stmt.Edits N) w body body')
    (h : (function options Γ ⟨name, params, returns, body, loc⟩).Yields (item, Δ)) :
    (function options Γ' ⟨name, params', returns', body', loc⟩).Leads ρ N (u ++ (v ++ w))
      Typed.Item.quiet Δ := by
  obtain ⟨typed, tys, block, hparams, hreturns, hproper, hd, hbody, -⟩ := function_yields hΓ h
  obtain ⟨hpshows, hpblurs⟩ := params_shows hT.left hp hparams
  obtain ⟨tys', htys', hrblurs⟩ := TypeExpr.Edits.resolveList hT.blurs.types hT.blurs.undeclared
    hr hreturns
  generalize hparams' : (params'.mapM Γ'.param).value = typed' at hpblurs
  have hty : (Ty.function (typed.map (·.ty)) tys).Blurs ρ (.function (typed'.map (·.ty)) tys') :=
    .function (List.forall₂_map_left_iff.mpr (List.forall₂_map_right_iff.mpr
      (hpblurs.imp fun _ _ hdecl => hdecl.2))) hrblurs
  obtain ⟨Δ', hd', hΔ⟩ := hT.blurs.declareFunction hty hd
  rw [← List.append_assoc] at hT
  have hsame : u ++ v = [] → Γ' = Γ → typed' = typed ∧ tys' = tys := by
    intro hu hΓ'
    rw [← hparams', hΓ', Source.Decl.Edits.list_eq_of_nil hp (append_eq_nil_left hu),
      hparams.value_eq]
    rw [hΓ', TypeExpr.Edits.list_eq_of_nil hr (append_eq_nil_right hu), hreturns] at htys'
    exact ⟨rfl, (congrArg Report.value htys').symm⟩
  have hΔT : Δ.Tracks ρ N w Δ' := hT.next hΔ fun hu hΓ' => by
    obtain ⟨hparam, hreturn⟩ := hsame hu hΓ'
    rw [hparam, hreturn, hΓ'] at hd'
    exact hd'.unique hd
  have hpr := hproper
  rw [Ty.proper_function_iff] at hpr
  have hshows := functionBody_shows (hΓ.declareFunction hk hproper hd).1
    (params_proper hΓ hparams) hpr.2 hΔT hpblurs hrblurs
    (fun hw => hsame (eq_nil_of_once hT.once hw) (hT.right.same hw)) hb hbody
  have hvalue : (function options Γ' ⟨name, params', returns', body', loc⟩).value =
      (.function ⟨name, typed', .function (typed'.map (·.ty)) tys',
        (Δ'.functionBody typed' tys' body' loc).value, loc⟩, Δ') := by
    simp only [function, Report.value_bind, Report.value_pure, hparams', htys', hd'.value_eq]
  refine ⟨?_, by rwa [hvalue]⟩
  rw [hvalue]
  unfold function
  refine hpshows.bind_after ?_
  simp only [hparams', htys']
  refine Report.Shows.of_undeclaredAt.bind_after ?_
  simp only
  rw [hd'.bind_eq]
  exact hshows.bind_pure

end Context

/-! ### Assignments -/

/-- The expressions in a target at the toplevel are quiet. -/
def ItemTarget.quiet : ItemTarget → Bool
  | .existing target => quietTarget target
  | .newField .. => true

/-- Targets at the toplevel that take values of a type and of a blurred type, or the same new
field. -/
inductive ItemTarget.Blurs (ρ : String → NameMap Ty) : ItemTarget → ItemTarget → Prop
  | existing {target target' : Option Typed.Target} : TargetBlurs ρ target target' →
      ItemTarget.Blurs ρ (.existing target) (.existing target')
  | newField {module field : String} :
      ItemTarget.Blurs ρ (.newField module field) (.newField module field)

theorem ItemTarget.Blurs.expected {targets targets' : List ItemTarget}
    (h : List.Forall₂ (ItemTarget.Blurs ρ) targets targets') :
    ExpectedBlurs ρ false (targets.map ItemTarget.expected)
      (targets'.map ItemTarget.expected) := by
  refine List.forall₂_map_left_iff.mpr (List.forall₂_map_right_iff.mpr (h.imp ?_))
  intro _ _ hb
  cases hb with
  | existing ht =>
    obtain ⟨found, found', rfl, rfl, hty⟩ := ht
    exact .some hty
  | newField => exact .none

namespace Context

theorem itemTarget_shows (hΓ : Γ.Proper false) {expr expr' : Source.Expr} {target : ItemTarget}
    (hT : Γ.Tracks ρ N u Γ') (he : expr.Edits N u expr') (h : (Γ.itemTarget expr).Yields target) :
    (Γ'.itemTarget expr').Shows N u (Γ'.itemTarget expr').value.quiet ∧
      target.Blurs ρ (Γ'.itemTarget expr').value := by
  unfold itemTarget at h ⊢
  rw [hT.blurs.moduleField?_eq he]
  split at h
  · next module field hm =>
    obtain ⟨⟨site, site', rfl⟩, -⟩ := moduleField?_eq_some hm
    split at h
    · simp at h
    · next hnone =>
      rw [Report.yields_pure] at h
      rw [h]
      simp only [hT.blurs.field_eq_none hnone]
      cases he with
      | atom ha => cases ha
      | field ho =>
        cases ho
        exact ⟨.of_faults_eq_nil rfl, .newField⟩
  · simp only [Report.yields_bind, Report.yields_pure] at h
    obtain ⟨found, hf, rfl⟩ := h
    obtain ⟨hshows, hb⟩ := target_shows hΓ hT he hf
    exact ⟨hshows.bind_pure, .existing hb⟩

/-- New fields are declared with blurred types. -/
theorem declareFields_blurs : ∀ {targets targets' : List ItemTarget} {types types' : List Ty}
    {typed : List Typed.Target} {Γ Γ' Δ : Context}, Γ.Blurs ρ N Γ' →
      List.Forall₂ (ItemTarget.Blurs ρ) targets targets' → targets.length = types.length →
        (∀ (j : Nat) (ty ty' : Ty), (targets.map ItemTarget.expected)[j]?.join = none →
          types[j]? = some ty → types'[j]? = some ty' → ty.Blurs ρ ty') →
          (declareFields options loc targets types Γ).Yields (typed, Δ) →
            ∃ typed' Δ', (declareFields options loc targets' types' Γ').Yields (typed', Δ') ∧
              typed'.all Typed.Target.quiet = targets'.all ItemTarget.quiet ∧ Δ.Blurs ρ N Δ'
  | _, _, _, _, typed, Γ, Γ', Δ, hB, .nil, _, _, h => by
    simp only [declareFields, Report.yields_pure, Prod.mk.injEq] at h
    obtain ⟨-, rfl⟩ := h
    exact ⟨[], Γ', rfl, rfl, hB⟩
  | _ :: _, _ :: _, [], _, typed, Γ, Γ', Δ, hB, .cons _ _, hlen, _, _ => by simp at hlen
  | _ :: _, _ :: _, ty :: types, types', typed, Γ, Γ', Δ, hB, .cons hb hbs, hlen, ht, h => by
    have hlen' := Nat.succ.inj hlen
    have htail : ∀ (j : Nat) (ty ty' : Ty), _ → types[j]? = some ty → types'.tail[j]? = some ty' →
        ty.Blurs ρ ty' := fun j ty ty' hnone hty hty' =>
      ht (j + 1) ty ty' hnone hty (by rwa [List.getElem?_tail] at hty')
    cases hb with
    | existing hb =>
      simp only [declareFields, Report.yields_bind, Report.yields_pure, Prod.mk.injEq,
        List.tail_cons] at h ⊢
      obtain ⟨⟨rest, Δ₁⟩, hr, -, rfl⟩ := h
      obtain ⟨rest', Δ', hr', hq, hΔ⟩ := declareFields_blurs hB hbs hlen' htail hr
      obtain ⟨found, found', rfl, rfl, -⟩ := hb
      refine ⟨_, Δ', ⟨(rest', Δ'), hr', rfl, rfl⟩, ?_, hΔ⟩
      simp [ItemTarget.quiet, quietTarget, hq]
    | @newField module field =>
      simp only [declareFields, Report.yields_bind, Report.yields_pure, Prod.mk.injEq,
        List.tail_cons, List.headD_cons] at h ⊢
      obtain ⟨Γ₁, hd, ⟨rest, Δ₁⟩, hr, -, rfl⟩ := h
      have hty : ty.Blurs ρ (types'.headD .unknown) := by
        cases types' with
        | nil => exact .unknown
        | cons ty' rest => exact ht 0 ty ty' rfl rfl rfl
      obtain ⟨Γ₁', hd', hB₁⟩ := hB.declareField hty hd
      obtain ⟨rest', Δ', hr', hq, hΔ⟩ := declareFields_blurs hB₁ hbs hlen' htail hr
      refine ⟨_, Δ', ⟨Γ₁', hd', (rest', Δ'), hr', rfl, rfl⟩, ?_, hΔ⟩
      simp [ItemTarget.quiet, Typed.Target.quiet, hq]

/-- **Toplevel assignments with blurred types** show the replaced annotations and lead to a blurred
context. -/
theorem itemAssign_leads (hΓ : Γ.Proper false) {targets targets' exprs exprs' : List Source.Expr}
    {item : Typed.Item} (hT : Γ.Tracks ρ N (u ++ v) Γ')
    (ht : EditsEach (Source.Expr.Edits N) u targets targets')
    (he : EditsEach (Source.Expr.Edits N) v exprs exprs')
    (h : (itemAssign options Γ targets exprs loc).Yields (item, Δ)) :
    (itemAssign options Γ' targets' exprs' loc).Leads ρ N (u ++ v) Typed.Item.quiet Δ := by
  obtain ⟨found, list, typed, hf, hv, hlen, -, hd, -⟩ := itemAssign_yields hΓ h
  obtain ⟨hshows, hrel⟩ := Report.mapM_shows Γ.itemTarget Γ'.itemTarget ItemTarget.quiet
    (ItemTarget.Blurs ρ) (fun _ _ _ _ hT he h => itemTarget_shows hΓ hT he h) hT.left ht hf
  generalize hfound' : (targets'.mapM Γ'.itemTarget).value = found' at hshows hrel
  have hsame : v ≠ [] → found' = found := by
    intro hne
    rw [← hfound', Source.Expr.Edits.list_eq_of_nil ht (eq_nil_of_once hT.once hne),
      hT.right.same hne, hf.value_eq]
  have hpe := itemTargets_expected_proper hΓ hf
  have hl := Source.Expr.checkValues_lists hΓ hT.right he hpe (ItemTarget.Blurs.expected hrel)
    (fun hne => by rw [hsame hne]) hv
  have hfit : list.fits targets.length = true := by
    simp [Values.fits, ← hlen, (Report.yields_mapM.mp hf).length_eq]
  have hfits := hl.shadows.fits (Source.Expr.checkValues_proper hΓ hpe hv).1 hfit
  obtain ⟨typed', Δ', hd', hquiet, hΔ⟩ :=
    declareFields_blurs hT.blurs hrel hlen hl.shadows.types hd
  have hvalue : (itemAssign options Γ' targets' exprs' loc).value =
      (.assign typed' (Source.Expr.checkValues Γ' (fun _ => .assignment) exprs'
        (found'.map ItemTarget.expected) 0).value.exprs loc, Δ') := by
    simp only [itemAssign, Report.value_bind, Report.value_pure, hfound', hd'.value_eq]
  refine ⟨?_, by rwa [hvalue]⟩
  rw [hvalue, Typed.Item.quiet, hquiet]
  unfold itemAssign
  refine hshows.bind ?_
  rw [hfound', ht.length_eq]
  refine hl.shows_values.bind_shown (.bind_silent (by simp [hfits]) ?_)
  rw [hd'.bind_eq]
  exact .of_faults_eq_nil rfl

/-! ### Records and the returned module -/

theorem recordFields_shows {record : String} {decls decls' : List Source.Decl} {u : List Location}
    {known known' fields : NameMap Ty} (hB : Γ.Blurs ρ N Γ')
    (hes : EditsEach (Source.Decl.Edits N) u decls decls') (hk : Ty.FieldsBlur ρ known known')
    (hn : known'.keys.Nodup) (h : (Γ.recordFields record decls known).Yields fields) :
    (Γ'.recordFields record decls' known').Shows N u true ∧
      Ty.FieldsBlur ρ fields (Γ'.recordFields record decls' known').value ∧
        (Γ'.recordFields record decls' known').value.keys.Nodup := by
  induction hes generalizing known known' with
  | nil =>
    rw [recordFields, Report.yields_pure] at h
    rw [recordFields, h]
    exact ⟨.of_faults_eq_nil rfl, hk, hn⟩
  | @cons _ _ decl decl' _ _ he _ ih =>
    simp only [recordFields, Report.yields_bind, Report.yields_require,
      Option.isSome_iff_exists] at h
    obtain ⟨_, hs, _, ⟨ty, rfl⟩, h⟩ := h
    obtain ⟨hshows, hrel⟩ := he.stated hB hs
    generalize hstated : (decl'.stated Γ').value = stated' at hrel
    cases hrel with
    | @some _ ty' hty =>
      split_ifs at h with hc
      · simp at h
      · have hc' : known'.contains decl'.name = false := by
          rw [he.name_eq, hk.contains_eq]
          simpa using hc
        have hinsert :
            Ty.FieldsBlur ρ (known.insert decl.name ty) (known'.insert decl'.name ty') := by
          rw [he.name_eq]
          exact hk.insert hty
        obtain ⟨hrest, hfields, hnodup⟩ := ih hinsert (NameMap.nodup_keys_insert hn) h
        simp only [recordFields, Report.value_bind, hstated, hc', Bool.false_eq_true, if_false,
          Option.getD_some]
        refine ⟨hshows.bind_after ?_, hfields, hnodup⟩
        rw [hstated]
        exact .bind_silent rfl hrest

/-- **The returned module** shows the replaced annotations in it. -/
theorem moduleReturn_shows (hΓ : Γ.Proper false) {values values' : List Source.Expr}
    {item : Option Typed.Item} (hT : Γ.Tracks ρ N u Γ')
    (he : EditsEach (Source.Expr.Edits N) u values values')
    (h : (Γ.moduleReturn values loc).Yields item) :
    ∃ typed, (Γ'.moduleReturn values' loc).value = some typed ∧
      (Γ'.moduleReturn values' loc).Shows N u typed.quiet := by
  obtain ⟨expr, value, name, rfl, hc, hkind, hname, -⟩ := moduleReturn_yields hΓ h
  cases he with
  | @cons u v _ expr' _ _ hexpr hnil =>
    cases hnil
    have hf := (Source.Expr.check_mirrors hΓ hT.left hexpr Demand.proper_value .value
      (fun _ => rfl) hc).follows_value
    have hkind' := hf.shadows.toplevel name hkind
    have hname' : Γ'.module.name? = some name := hT.blurs.env.module.trans hname
    refine ⟨.ret (expr'.check Γ' .value).value loc, rfl, ?_⟩
    rw [List.append_nil, Typed.Item.quiet]
    unfold moduleReturn
    simp only [List.mapM_cons, List.mapM_nil]
    refine (Report.Shows.bind_shown hf.shows (.of_faults_eq_nil rfl)).bind_shown ?_
    simp only [Report.value_bind, Report.value_pure, hkind', hname']
    exact .bind_pure (.of_require (by simp))

end Context

namespace Source

/-! ### Items -/

/-- The annotation of the module variable is not one that was put there. -/
theorem Decl.Edits.eq_module {decls : List Decl} {name : String} {nameLoc : Location}
    (h : EditsEach (Decl.Edits N) u decls [⟨name, some .module, nameLoc⟩]) :
    decls = [⟨name, some .module, nameLoc⟩] := by
  cases h with
  | cons hd hnil =>
    cases hnil
    cases hd with
    | typed ht =>
      cases ht
      rfl

namespace Item

/-- The item is quiet, if there is one. -/
def quietTyped (item : Option Typed.Item) : Bool :=
  (item.map Typed.Item.quiet).getD true

/-- **Items with blurred types** show the replaced annotations and lead to a blurred context. -/
theorem check_leads (hΓ : Γ.Proper false) (hk : Γ.varKind = .toplevel) {item item' : Item}
    {t : Option Typed.Item} (hT : Γ.Tracks ρ N u Γ') (he : item.Edits N u item')
    (hN : item.typeName? ≠ some N)
    (hρ : ∀ name fields, (item'.check options Γ').value.2.scopes.lookupType name =
      some (.record name fields) → fields = ρ name)
    (h : (item.check options Γ).Yields (t, Δ)) :
    (item'.check options Γ').Leads ρ N u quietTyped Δ := by
  cases he with
  | @var u v decls decls' _ values' _ hd hv =>
    by_cases hm : ∃ name nameLoc, decls = [⟨name, some .module, nameLoc⟩]
    · obtain ⟨name, nameLoc, rfl⟩ := hm
      cases hd with
      | cons hd hnil =>
        cases hnil
        cases hd with
        | typed ht =>
          cases ht with
          | here hm => cases hm
          | atom _ =>
            simp only [check, Report.yields_bind, Report.yields_pure, Prod.mk.injEq] at h
            obtain ⟨⟨typed, Δ'⟩, hm, -, rfl⟩ := h
            have hl := Context.moduleVar_leads hT.blurs hv hm
            exact ⟨hl.shows.bind_pure, hl.context⟩
    · push Not at hm
      have hm' : ∀ name nameLoc, decls' ≠ [⟨name, some .module, nameLoc⟩] := by
        rintro name nameLoc rfl
        exact hm name nameLoc (Decl.Edits.eq_module hd)
      rw [check_var hm] at h
      rw [check_var hm']
      simp only [Report.yields_bind, Report.yields_pure, Prod.mk.injEq] at h
      obtain ⟨⟨⟨typed, exprs⟩, Δ'⟩, hdecl, -, rfl⟩ := h
      have hl := Context.declareVars_leads hΓ hT hd hv hdecl
      exact ⟨hl.shows.bind_pure, hl.context⟩
  | function hp hr hb =>
    simp only [check, Report.yields_bind, Report.yields_pure, Prod.mk.injEq] at h
    obtain ⟨⟨typed, Δ'⟩, hf, -, rfl⟩ := h
    have hl := Context.function_leads hΓ hk hT hp hr hb hf
    exact ⟨hl.shows.bind_pure, hl.context⟩
  | assign ht hv =>
    simp only [check, Report.yields_bind, Report.yields_pure, Prod.mk.injEq] at h
    obtain ⟨⟨typed, Δ'⟩, ha, -, rfl⟩ := h
    have hl := Context.itemAssign_leads hΓ hT ht hv ha
    exact ⟨hl.shows.bind_pure, hl.context⟩
  | @record _ name fields fields' site hf =>
    simp only [check, Report.yields_bind, Report.yields_pure, Prod.mk.injEq] at h
    obtain ⟨map, hm, Δ', hd, -, rfl⟩ := h
    obtain ⟨hshows, hb, hn⟩ :=
      Context.recordFields_shows hT.blurs hf .nil (by simp [NameMap.keys]) hm
    generalize hmap' : (Γ'.recordFields name fields' []).value = map' at hb hn
    have hne : name ≠ N := by simpa [typeName?] using hN
    obtain ⟨Δ', hd', hlookup, hΔ⟩ := hT.blurs.declareType (.record name map') hne hd
    have hvalue : ((record name fields' site).check options Γ').value =
        (some (.record name (.record name map') site), Δ') := by
      simp only [check, Report.value_bind, Report.value_pure, hmap', hd'.value_eq]
    rw [hvalue] at hρ
    refine ⟨?_, by rw [hvalue]; exact hΔ (.record (hρ name map' hlookup) hb hn)⟩
    rw [hvalue]
    simp only [check]
    refine hshows.bind_shown ?_
    rw [hmap', hd'.bind_eq]
    exact .of_faults_eq_nil rfl
  | @«alias» _ name type type' site ht =>
    simp only [check, Report.yields_bind, Report.yields_pure, Prod.mk.injEq] at h
    obtain ⟨ty, hr, Δ', hd, -, rfl⟩ := h
    obtain ⟨ty', hr', hb⟩ := ht.resolve hT.blurs.types hT.blurs.undeclared hr
    have hne : name ≠ N := by simpa [typeName?] using hN
    obtain ⟨Δ', hd', -, hΔ⟩ := hT.blurs.declareType ty' hne hd
    have hvalue : ((Item.alias name type' site).check options Γ').value = (none, Δ') := by
      simp only [check, Report.value_bind, Report.value_pure, hr', hd'.value_eq]
    refine ⟨?_, by rw [hvalue]; exact hΔ hb⟩
    rw [hvalue]
    simp only [check, hr']
    refine Report.Shows.of_undeclaredAt.bind_shown ?_
    simp only
    rw [hd'.bind_eq]
    exact .of_faults_eq_nil rfl
  | ret hv =>
    simp only [check, Report.yields_bind, Report.yields_pure, Prod.mk.injEq] at h
    obtain ⟨typed, hr, -, rfl⟩ := h
    obtain ⟨item', hvalue, hshows⟩ := Context.moduleReturn_shows hΓ hT hv hr
    refine ⟨?_, hT.blurs⟩
    simp only [check, Report.value_bind, Report.value_pure, hvalue]
    exact hshows.bind_pure

end Item

end Source

end LuaTyping
