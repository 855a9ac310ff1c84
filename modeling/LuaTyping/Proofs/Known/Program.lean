import LuaTyping.Proofs.Known.Item
import LuaTyping.Proofs.Stack.Program

/-!
# No `unknown` without a fault

`unknown` stands in for the type of something that has been reported.  So as long as a run has
recorded no fault, its contexts are proper (`moments_clean`), and an accepted program has `unknown`
neither in its typed tree nor in the types that the module shows (`check_unknown_free`).  The points
of a run are those that the checker with a state has noted when it ends.
-/

namespace LuaTyping

open Moment

variable {Γ : Context} {options : Options} {loc : Location}

/-- All types of a proper context are known. -/
theorem Context.Proper.known (hΓ : Γ.Proper true) : Known Γ.types := by
  have htop : ∀ entry ∈ Γ.scopes.toplevel, entry.2.ty.proper true = true := by
    intro entry he
    rcases hΓ.toplevel entry he with ⟨-, hp⟩ | ⟨-, hm, -⟩
    · exact hp
    · rw [hm]
      rfl
  simp only [Context.types, Known.append_iff, Known.flatMap_iff, Known.map_iff]
  exact ⟨⟨⟨⟨⟨hΓ.builtins, fun layer hl entry he => (hΓ.inner layer hl entry he).2⟩, htop⟩,
    hΓ.types⟩, hΓ.fields⟩, hΓ.returns⟩

/-! ### The moments of declarations -/

namespace Context

theorem declareMoments_clean {kind : VarKind} : ∀ {decls : List Typed.Decl} {Γ : Context},
    Γ.Proper true → kind = Γ.varKind → (∀ decl ∈ decls, decl.ty.proper true = true) →
      Clean (Proper true) (declareMoments kind decls Γ)
  | [], Γ, _, _, _ => .nil
  | decl :: rest, Γ, hΓ, hk, hp => by
    rw [declareMoments]
    refine .followedBy fun Δ hd => ?_
    rw [List.forall_mem_cons] at hp
    obtain ⟨hΔ, hk'⟩ := hΓ.declare hk hp.1 hd
    exact .cons hΔ (declareMoments_clean hΔ (hk.trans hk'.symm) hp.2)

theorem varMoments_clean (hΓ : Γ.Proper true) {decls : List Source.Decl}
    {values : List Source.Expr} : Clean (Proper true) (Γ.varMoments decls values loc) := by
  unfold varMoments
  refine .followedBy fun stated hs => .followedBy fun list hv => .followedBy fun typed ht => ?_
  exact declareMoments_clean hΓ rfl (typedAll_stated_proper hΓ hs hv ht)

theorem fieldMoments_clean : ∀ {targets : List ItemTarget} {types : List Ty} {Γ : Context},
    Γ.Proper true → targets.length = types.length → Known types →
      Clean (Proper true) (fieldMoments options loc targets types Γ)
  | [], _, Γ, _, _, _ => .nil
  | _ :: _, [], Γ, _, hlen, _ => by simp at hlen
  | .existing _ :: rest, ty :: types, Γ, hΓ, hlen, hp => by
    rw [fieldMoments, List.tail_cons]
    exact fieldMoments_clean hΓ (by simpa using hlen) (Known.cons_iff.mp hp).2
  | .newField _ field :: rest, ty :: types, Γ, hΓ, hlen, hp => by
    rw [Known.cons_iff] at hp
    refine .followedBy fun Δ hd => ?_
    have hΔ := (hΓ.declareField hp.1 hd).1
    exact .cons hΔ (fieldMoments_clean hΔ (by simpa using hlen) hp.2)

/-! ### The moments of layers, loops and functions -/

theorem Proper.inside (hΓ : Γ.Proper true) {returns : List Ty} {inLoop : Bool}
    (hr : Known returns) : (Γ.inside returns inLoop).Proper true :=
  { hΓ with returns := hr }

theorem layerMoments_clean (hΓ : Γ.Proper true) {body : List Source.Stmt} {moments : List Moment}
    (h : Clean (Proper true) moments) : Clean (Proper true) (Γ.layerMoments body moments) :=
  .around hΓ.enter h fun _ => hΓ

section Body

variable {decls : List Typed.Decl} {returns : List Ty} {inLoop : Bool} {body : List Source.Stmt}
  {whole : List Fault} {moments : Context → List Moment}
  (hbody : ∀ {Δ : Context}, Δ.Proper true → Clean (Proper true) (moments Δ))

include hbody

theorem insideMoments_clean (hΓ : Γ.Proper true) (hr : Known returns) :
    Clean (Proper true) (Γ.insideMoments returns inLoop body whole moments) := by
  refine .around (hΓ.inside hr) (hbody (hΓ.inside hr)) fun hfaults => ?_
  have hchecked := Report.yields_value (List.append_eq_nil_iff.mp hfaults).1
  exact (Source.Stmt.checkBlock_context_proper (hΓ.inside hr) hchecked).1.inside hΓ.returns

theorem bodyMoments_clean (hΓ : Γ.Proper true) (hp : ∀ decl ∈ decls, decl.ty.proper true = true)
    (hr : Known returns) :
    Clean (Proper true) (Γ.bodyMoments decls returns inLoop body whole moments) := by
  refine .around hΓ.enter (.append (declareMoments_clean hΓ.enter rfl hp) ?_) fun _ => hΓ
  exact .followedBy fun Δ hd =>
    insideMoments_clean hbody (hΓ.enter.declareAll rfl hp hd).1 hr

end Body

end Context

/-! ### The moments of statements -/

namespace Source.Stmt

mutual

theorem moments_clean : ∀ {stmt : Source.Stmt} {Γ : Context}, Γ.Proper true →
    Clean (Context.Proper true) (moments Γ stmt)
  | .declare decls values loc, Γ, hΓ => Context.varMoments_clean hΓ
  | .assign .., Γ, _ | .call .., Γ, _ | .ret .., Γ, _ | .brk _, Γ, _ => by
    rw [moments]
    exact .nil
  | .block body loc, Γ, hΓ => by
    rw [moments]
    exact Context.layerMoments_clean hΓ (blockMoments_clean hΓ.enter)
  | .whileDo condition body loc, Γ, hΓ => by
    rw [moments]
    exact .followedBy fun _ _ =>
      Context.bodyMoments_clean blockMoments_clean hΓ (List.forall_mem_nil _) hΓ.returns
  | .repeatUntil body condition loc, Γ, hΓ => by
    rw [moments]
    exact .around hΓ.enter (Context.insideMoments_clean blockMoments_clean hΓ.enter hΓ.returns)
      fun _ => hΓ
  | .branch condition thenBlock arms elseBlock loc, Γ, hΓ => by
    rw [moments]
    refine .followedBy fun _ _ => .append
      (Context.layerMoments_clean hΓ (blockMoments_clean hΓ.enter)) ?_
    refine .followedBy fun _ _ => .append (armMoments_clean hΓ) ?_
    exact .followedBy fun _ _ => elseMoments_clean hΓ
  | .numericFor decl start limit step body loc, Γ, hΓ => by
    rw [moments]
    exact .followedBy fun header hh => Context.bodyMoments_clean blockMoments_clean hΓ
      (Context.numericHeader_proper hΓ hh) hΓ.returns
  | .genericFor decls values body loc, Γ, hΓ => by
    rw [moments]
    exact .followedBy fun iterated hi => .followedBy fun typed hv =>
      Context.bodyMoments_clean blockMoments_clean hΓ (Context.genericHeader_proper hΓ hi hv)
        hΓ.returns

theorem blockMoments_clean : ∀ {stmts : List Source.Stmt} {Γ : Context}, Γ.Proper true →
    Clean (Context.Proper true) (blockMoments Γ stmts)
  | [], Γ, _ => by
    rw [blockMoments]
    exact .nil
  | stmt :: rest, Γ, hΓ => by
    rw [blockMoments]
    refine .append (moments_clean hΓ) (.followedBy fun (_, Δ) h => ?_)
    have hΔ := (check_context_proper hΓ h).1
    exact .cons hΔ (blockMoments_clean hΔ)

theorem armMoments_clean : ∀ {arms : List Arm} {Γ : Context}, Γ.Proper true →
    Clean (Context.Proper true) (armMoments Γ arms)
  | [], Γ, _ => by
    rw [armMoments]
    exact .nil
  | ⟨condition, body⟩ :: rest, Γ, hΓ => by
    rw [armMoments]
    refine .followedBy fun _ _ => .append
      (Context.layerMoments_clean hΓ (blockMoments_clean hΓ.enter)) ?_
    exact .followedBy fun _ _ => armMoments_clean hΓ

theorem elseMoments_clean : ∀ {body : Option (List Source.Stmt)} {Γ : Context}, Γ.Proper true →
    Clean (Context.Proper true) (elseMoments Γ body)
  | none, Γ, _ => by
    rw [elseMoments]
    exact .nil
  | some body, Γ, hΓ => by
    rw [elseMoments]
    exact Context.layerMoments_clean hΓ (blockMoments_clean hΓ.enter)

end

end Source.Stmt

/-! ### The moments of items -/

namespace Context

theorem functionMoments_clean (hΓ : Γ.Proper true) (hk : Γ.varKind = .toplevel)
    {decl : Source.Function} : Clean (Proper true) (functionMoments options Γ decl) := by
  unfold functionMoments
  refine .followedBy fun params hp => .followedBy fun returns hr => .followedBy fun Δ hd => ?_
  have hparams := params_proper hΓ hp
  have hreturns := TypeExpr.resolveList_proper (fun _ _ => hΓ.typeName) hr
  have hty : (Ty.function (params.map (·.ty)) returns).proper true = true := by
    rw [Ty.proper_function_iff]
    exact ⟨by simpa using hparams, hreturns⟩
  have hΔ := (hΓ.declareFunction hk hty hd).1
  exact .cons hΔ (bodyMoments_clean Source.Stmt.blockMoments_clean hΔ hparams hreturns)

theorem assignMoments_clean (hΓ : Γ.Proper true) {targets values : List Source.Expr} :
    Clean (Proper true) (assignMoments options Γ targets values loc) := by
  unfold assignMoments
  refine .followedBy fun found hf => .followedBy fun list hv => .followedBy fun _ hfit => ?_
  rw [Report.yields_require] at hfit
  obtain ⟨hu, hp⟩ := Source.Expr.checkValues_proper hΓ (itemTargets_expected_proper hΓ hf) hv
  refine fieldMoments_clean hΓ ?_ fun ty hty => ?_
  · rw [Values.length_of_fits hu hfit, (Report.yields_mapM.mp hf).length_eq]
  · rcases hp ty hty with hp | rfl
    · exact hp
    · rfl

/-- The module variable is known to the module before there is a variable of its name. -/
theorem moduleMoments_clean (hΓ : Γ.Proper true) (hk : Γ.varKind = .toplevel)
    {decl : Source.Decl} {values : List Source.Expr} :
    Clean (Proper true) (Γ.moduleMoments decl values loc) := by
  unfold moduleMoments declareModuleMoments
  refine .followedBy fun _ _ => ?_
  cases hvar : Γ.module.var with
  | some first => exact .nil
  | none =>
    refine .cons { hΓ with toplevel := fun entry he => ?_ } (.followedBy fun Θ hd => .cons ?_ .nil)
    · rcases hΓ.toplevel entry he with hp | ⟨-, -, hname⟩
      · exact Or.inl hp
      · simp [ModuleDraft.name?, hvar] at hname
    · have hmodule : (Γ.declareModule decl.name decl.loc loc).Yields Θ := by
        rwa [declareModule, hvar]
      exact (hΓ.declareModule hk hmodule).1

theorem typeMoments_clean (hΓ : Γ.Proper true) {name : String} {ty : Ty}
    (hty : ty.proper true = true) : Clean (Proper true) (Γ.typeMoments name ty loc) :=
  .followedBy fun _ hd => .cons (hΓ.declareType hty hd).1 .nil

end Context

namespace Source

theorem Item.moments_clean (hΓ : Γ.Proper true) (hk : Γ.varKind = .toplevel) {item : Item} :
    Clean (Context.Proper true) (item.moments options Γ) := by
  unfold Item.moments
  split
  · exact Context.moduleMoments_clean hΓ hk
  · exact Context.varMoments_clean hΓ
  · exact Context.functionMoments_clean hΓ hk
  · exact Context.assignMoments_clean hΓ
  · refine .followedBy fun fields hf => Context.typeMoments_clean hΓ ?_
    rw [Ty.proper, Ty.properFields_iff]
    exact Context.recordFields_proper hΓ (List.forall_mem_nil _) hf
  · exact .followedBy fun ty ht =>
      Context.typeMoments_clean hΓ (TypeExpr.resolve_proper (fun _ _ => hΓ.typeName) ht)
  · exact .nil

theorem itemMoments_clean : ∀ {items : List Item} {Γ : Context}, Γ.Proper true →
    Γ.varKind = .toplevel → Clean (Context.Proper true) (itemMoments options Γ items)
  | [], Γ, _, _ => .nil
  | item :: rest, Γ, hΓ, hk => by
    refine .followedBy fun _ _ => .append (Item.moments_clean hΓ hk) ?_
    refine .followedBy fun (_, Δ) h => ?_
    obtain ⟨hΔ, hk'⟩ := Item.check_context_proper hΓ hk h
    exact .cons hΔ (itemMoments_clean hΔ hk')

namespace Program

/-- The contexts of a run are proper as long as no fault has been recorded. -/
theorem moments_clean {builtins : Builtins} (h : Known builtins.types) (options : Options)
    (program : Program) :
    Clean (Context.Proper true) (program.moments builtins options) :=
  .cons (Context.start_proper h) (itemMoments_clean (Context.start_proper h) rfl)

/-- **No `unknown` without a fault.**  The run through a program notes all of its moments.  With
builtins of known types, all types in sight are known at every point of a run at which no fault has
been recorded; and an accepted program has no `unknown` in its exports, in its toplevel names or in
its typed tree. -/
theorem check_unknown_free (builtins : Builtins) (options : Options) (program : Program)
    (h : Known builtins.types) :
    (∃ s, program.runOnStack options (.start builtins) =
        .ok ((program.check builtins options).toOption, s) ∧
          s.trace = program.moments builtins options) ∧
    (∀ moment ∈ program.moments builtins options,
        moment.recorded = [] → Known moment.context.types) ∧
      ∀ checked, program.check builtins options = .ok checked → Known checked.types := by
  have hclean := moments_clean h options program
  obtain ⟨s, hrun, -, htrace⟩ := runOnStack_eq builtins options program
  refine ⟨⟨s, hrun, htrace⟩, fun moment hm hr => (hclean moment hm hr).known, fun checked hc => ?_⟩
  obtain ⟨items, Γ, name, hw, -, rfl⟩ := walk_yields_of_check hc
  have hitems := (walk_yields hw).1
  have hlast := final_mem_moments builtins options program
  rw [hitems.value_eq, hitems.faults_eq] at hlast
  have hΓ := (hclean _ hlast rfl).known
  simp only [Context.types, Known.append_iff, Known.map_iff] at hΓ
  obtain ⟨⟨⟨⟨-, htop⟩, -⟩, hfields⟩, -⟩ := hΓ
  simp only [CheckedModule.types, assemble, ModuleDraft.exports, NameMap.mapValues,
    Known.append_iff, Known.map_iff, List.forall_mem_map]
  refine ⟨⟨hfields, htop⟩, ?_⟩
  rw [Typed.Program.types, Known.flatMap_iff]
  exact checkItems_known (Context.start_proper h) rfl hitems

/-- A module with a function of two results, the first of which goes to a variable of type `any`, and
with both forms of `for … in`. -/
def sums : Program :=
  let here := Location.nowhere
  let name (text : String) : Expr := .name text here
  let divide : Function :=
    ⟨.plain "divide", [⟨"a", some .integer, here⟩, ⟨"b", some .integer, here⟩],
      [.integer, .integer],
      [.ret [.binary (name "a") .intDiv (name "b") here, .binary (name "a") .mod (name "b") here]
        here], here⟩
  let run : Function :=
    ⟨.member "m" "run", [⟨"p", some (.name "Point" here), here⟩,
        ⟨"xs", some (.array .integer here), here⟩], [.float],
      [.declare [⟨"q", some .any, here⟩, ⟨"r", none, here⟩]
          [.call (name "divide") [.integer 7 here, .integer 2 here] here] here,
        .genericFor [⟨"i", none, here⟩, ⟨"x", none, here⟩] [.call (name "ipairs") [name "xs"] here]
          [.assign [name "r"] [.binary (name "r") .add (name "x") here] here] here,
        .genericFor [⟨"k", none, here⟩, ⟨"v", none, here⟩] [.call (name "pairs") [name "q"] here]
          [.call (.call (name "print") [name "k"] here) here] here,
        .ret [.binary (.field (name "p") "x" here) .mul (name "r") here] here], here⟩
  .inModule [.record "Point" [⟨"x", some .float, here⟩, ⟨"y", some .integer, here⟩] here,
    .function divide, .function run]

theorem sums_unknown_free :
    Known Builtins.standard.types ∧
      (∀ moment ∈ sums.moments .standard .standard,
        moment.recorded = [] → Known moment.context.types) ∧
        ∃ checked, sums.check .standard .standard = .ok checked ∧ Known checked.types := by
  have hbuiltins : Known Builtins.standard.types := by
    unfold Known
    decide
  obtain ⟨-, hmoments, hchecked⟩ := check_unknown_free .standard .standard sums hbuiltins
  obtain ⟨checked, hc⟩ := accepted_iff.mp
    (by decide +kernel : (sums.check .standard .standard).isOk = true)
  exact ⟨hbuiltins, hmoments, checked, hc, hchecked checked hc⟩

end Program

end Source

end LuaTyping
