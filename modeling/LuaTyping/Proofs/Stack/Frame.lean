import LuaTyping.Proofs.Stack.Program

/-!
# What a run leaves as it was

The state of a run is determined by the context that it shows, by the numbers of its layers and by
its function and loops, up to its faults and its log.  So a run that has its context back at the end
has its whole state back (`Does.leaves`).

`State.Framed` says what runs leave in a state: expressions, statements without declarations, blocks
and bodies of functions leave the state itself, any other statement inside a function leaves a state
with other variables in the innermost layer, and a function leaves one in which its name is bound.
Together with the frames of contexts this gives `Program.check_frame`.
-/

namespace LuaTyping

namespace Stack

variable {α : Type} {s t s' : State} {Γ Δ : Context} {run : Run α} {value : α}
  {faults : List Fault} {moments : List Moment}

/-- From `s` the run gives the value and ends in `t`, with the faults and the moments added to those
of `s`.  The layers that it has opened on the way are closed again. -/
def Leaves (run : Run α) (s t : State) (value : α) (faults : List Fault) (moments : List Moment) :
    Prop :=
  ∃ pushes, run s = .ok (value, { t with
    pushes := pushes
    faults := s.faults ++ faults
    trace := s.trace ++ moments.map (Moment.after s.faults) })

namespace State

/-- The state with other variables in the innermost layer. -/
def withVars (s : State) (vars : NameMap Binding) : State :=
  { s with layers := s.layers.modifyHead fun layer => { layer with vars := vars } }

/-- What the declaration of a function changes in a state: nothing if it is refused, and otherwise
what its name stands for. -/
inductive Binds (s : State) : Source.FunctionName → State → Prop
  | refused {name : Source.FunctionName} : Binds s name s
  | plain {name : String} {binding : Binding} {layer : Layer} {outer : List Layer} :
      s.layers = layer :: outer →
        Binds s (.plain name) (s.withVars (layer.vars.insert name binding))
  | member {module field : String} {ty : Ty} {loc : Location} {draft : ModuleDraft} :
      s.module.declareField field ty loc = .ok draft →
        Binds s (.member module field) { s with module := draft }

/-- What runs leave in a state that shows the context. -/
structure Framed (options : Options) (s : State) (Γ : Context) : Prop where
  expr (expr : Source.Expr) (demand : Demand) :
    Leaves (look (expr.check · demand)) s s (expr.check Γ demand).value
      (expr.check Γ demand).faults []
  values (site : Nat → Site) (exprs : List Source.Expr) (expected : List (Option Ty))
      (position : Nat) :
    Leaves (look (Source.Expr.checkValues · site exprs expected position)) s s
      (Source.Expr.checkValues Γ site exprs expected position).value
      (Source.Expr.checkValues Γ site exprs expected position).faults []
  annotation (type : TypeExpr) (loc : Location) :
    Leaves (look fun Γ => type.resolve Γ.scopes loc) s s (type.resolve Γ.scopes loc).value
      (type.resolve Γ.scopes loc).faults []
  iteration (exprs : List Source.Expr) (loc : Location) :
    Leaves (iterate exprs loc) s s (Γ.iterate exprs loc).value (Γ.iterate exprs loc).faults []
  plainStmt (stmt : Source.Stmt) : stmt.isDeclaration = false →
    Leaves stmt.onStack s s (stmt.check Γ).value.1 (stmt.check Γ).faults (stmt.moments Γ)
  innerStmt (stmt : Source.Stmt) : 1 < s.layers.length → ∃ vars,
    Leaves stmt.onStack s (s.withVars vars) (stmt.check Γ).value.1 (stmt.check Γ).faults
      (stmt.moments Γ)
  block (body : Source.Block) :
    Leaves (layered (Source.Stmt.blockOnStack body)) s s
      (Source.Stmt.checkBlock Γ.enter body).value.1 (Source.Stmt.checkBlock Γ.enter body).faults
      (Γ.layerMoments body (Source.Stmt.blockMoments Γ.enter body))
  functionBody (params : List Typed.Decl) (returns : List Ty) (body : Source.Block)
      (loc : Location) :
    let complete := returns.isEmpty || Source.Block.returns body
    Leaves (functionBody params returns body loc) s s (Γ.functionBody params returns body loc).value
      (Γ.functionBody params returns body loc).faults
      (Γ.bodyMoments params returns false body
        (Report.require complete .missingReturn loc).faults (Source.Stmt.blockMoments · body))
  function (decl : Source.Function) : ∃ t, s.Binds decl.name t ∧
    Leaves (function options decl) s t (Context.function options Γ decl).value.1
      (Context.function options Γ decl).faults (Γ.functionMoments options decl)

/-! ### States and the contexts that they show -/

/-- A state with a layer shows a context. -/
theorem exists_shows (h : s.layers ≠ []) : ∃ Γ, s.Shows Γ := by
  refine ⟨⟨⟨s.builtins, s.layers.dropLast.map Layer.vars, (s.layers.getLast h).vars, s.types⟩,
    s.module, s.returns.getD [], s.loops != 0⟩, rfl, ?_, rfl, rfl, rfl, rfl⟩
  have hlayers := congrArg (List.map Layer.vars) (List.dropLast_concat_getLast h)
  exact hlayers.symm.trans List.map_append

theorem Shows.length_eq (h : s.Shows Γ) : s.layers.length = Γ.scopes.inner.length + 1 := by
  simpa using congrArg List.length h.layers

/-- A layer is its number and its variables. -/
theorem layers_eq (h : s'.layers.map Layer.vars = s.layers.map Layer.vars)
    (hserials : s'.layers.map Layer.serial = s.layers.map Layer.serial) :
    s'.layers = s.layers := by
  have hzip (layers : List Layer) :
      List.zipWith Layer.mk (layers.map Layer.serial) (layers.map Layer.vars) = layers := by
    simp [List.zipWith_map, List.zipWith_self]
  rw [← hzip s'.layers, h, hserials, hzip]

/-- Two states of one context with the same layers, loops and function open differ by their faults
and their logs at most. -/
theorem Shows.eq_of_keeps (h : s.Shows Γ) (h' : s'.Shows Γ) (hkeeps : s.Keeps s') :
    s' = { s with pushes := s'.pushes, faults := s'.faults, trace := s'.trace } := by
  have hlayers := layers_eq (h'.layers.trans h.layers.symm) hkeeps.serials
  have hbuiltins := h'.builtins.symm.trans h.builtins
  have htypes := h'.types.symm.trans h.types
  have hmodule := h'.module.symm.trans h.module
  rw [← hlayers, ← hbuiltins, ← htypes, ← hmodule, ← hkeeps.returns, ← hkeeps.loops]

theorem withVars_keeps {vars : NameMap Binding} : (s.withVars vars).Keeps s := by
  refine ⟨?_, rfl, rfl⟩
  unfold withVars
  cases s.layers <;> rfl

theorem Shows.withVars (h : s.Shows Γ) (hinner : Γ.scopes.inner ≠ []) (vars : NameMap Binding) :
    (s.withVars vars).Shows (Γ.withLayer vars) := by
  refine ⟨h.builtins, ?_, h.types, h.module, h.returns, h.inLoop⟩
  have hlayers := h.layers
  obtain ⟨first, outer, hcons⟩ := List.exists_cons_of_ne_nil hinner
  rw [hcons] at hlayers
  obtain ⟨layer, rest, htop, -, hrest⟩ := List.map_eq_cons_iff.mp hlayers
  rw [State.withVars, Context.withLayer, htop, hcons]
  exact congrArg (vars :: ·) hrest

/-- A variable that can be declared is declared in the innermost layer. -/
theorem Shows.declare {name : String} {binding : Binding} {scopes : Scopes} (h : s.Shows Γ)
    (hdeclare : Γ.scopes.declare name binding = .ok scopes) :
    ∃ layer outer, s.layers = layer :: outer ∧
      (s.withVars (layer.vars.insert name binding)).Shows { Γ with scopes := scopes } := by
  obtain ⟨layer, outer, htop⟩ := List.exists_cons_of_ne_nil h.layers_ne_nil
  refine ⟨layer, outer, htop, ?_⟩
  have hlayers := h.layers
  unfold Scopes.declare at hdeclare
  rw [htop] at hlayers
  cases hinner : Γ.scopes.inner with
  | nil =>
    rw [hinner] at hlayers hdeclare
    obtain ⟨hvars, houter⟩ := List.cons.inj hlayers
    cases hlookup : Γ.scopes.toplevel.lookup name with
    | some previous => simp [hlookup] at hdeclare
    | none =>
      simp only [hlookup, Except.ok.injEq] at hdeclare
      subst hdeclare
      refine ⟨h.builtins, ?_, h.types, h.module, h.returns, h.inLoop⟩
      rw [State.withVars, htop, hvars]
      exact congrArg (_ :: ·) houter
  | cons first inner =>
    rw [hinner] at hlayers hdeclare
    obtain ⟨hvars, houter⟩ := List.cons.inj hlayers
    cases hdeclare
    refine ⟨h.builtins, ?_, h.types, h.module, h.returns, h.inLoop⟩
    rw [State.withVars, htop, hvars]
    exact congrArg (_ :: ·) houter

/-- The binding of a function in the context is its binding in the state. -/
theorem Shows.binds {name : Source.FunctionName} (h : s.Shows Γ) (hbinds : Γ.Binds name Δ) :
    ∃ t, s.Binds name t ∧ t.Shows Δ ∧ t.Keeps s := by
  cases hbinds with
  | refused => exact ⟨s, .refused, h, .refl⟩
  | plain hdeclare =>
    obtain ⟨layer, outer, htop, hshows⟩ := h.declare hdeclare
    exact ⟨_, .plain htop, hshows, withVars_keeps⟩
  | member hdeclare =>
    rw [h.module] at hdeclare
    exact ⟨_, .member hdeclare, ⟨h.builtins, h.layers, h.types, rfl, h.returns, h.inLoop⟩,
      ⟨rfl, rfl, rfl⟩⟩

end State

/-! ### Runs -/

/-- **A run leaves what its last context shows.** -/
theorem Does.leaves (h : Does run Γ value Δ faults moments) (hs : s.Shows Γ) (ht : t.Shows Δ)
    (hkeeps : t.Keeps s) : Leaves run s t value faults moments := by
  obtain ⟨s', hrun, hs', hadds, hkeeps'⟩ := h s hs
  refine ⟨s'.pushes, hrun.trans ?_⟩
  rw [← hadds.faults, ← hadds.trace, ← ht.eq_of_keeps hs' (hkeeps.trans hkeeps')]

/-- A run that has its context back has its state back. -/
theorem Does.leaves_same (h : Does run Γ value Γ faults moments) (hs : s.Shows Γ) :
    Leaves run s s value faults moments :=
  h.leaves hs hs .refl

/-- **A state that shows a context is framed by it.** -/
theorem State.Shows.framed (options : Options) (h : s.Shows Γ) : s.Framed options Γ where
  expr _ _ := (Does.look _).leaves_same h
  values _ _ _ _ := (Does.look _).leaves_same h
  annotation _ _ := (Does.look _).leaves_same h
  iteration _ _ := (Does.iterate _ _).leaves_same h
  plainStmt stmt hstmt := by
    have hdoes := stmt.onStack_does Γ
    rw [Source.Stmt.check_context_eq hstmt] at hdoes
    exact hdoes.leaves_same h
  innerStmt stmt hinner := by
    have hopen : Γ.scopes.inner ≠ [] := by
      rw [h.length_eq] at hinner
      exact List.ne_nil_of_length_pos (by omega)
    have hframes : Γ.Frames (stmt.check Γ).value.2 := Source.Stmt.check_frames hopen
    obtain ⟨vars, hcheck⟩ := hframes
    have hdoes := stmt.onStack_does Γ
    rw [hcheck] at hdoes
    exact ⟨vars, hdoes.leaves h (h.withVars hopen vars) withVars_keeps⟩
  block body := (Does.layered_block (Source.Stmt.blockOnStack_does body _)).leaves_same h
  functionBody _ _ _ _ := (Does.functionBody _ _ _ _).leaves_same h
  function decl := by
    have hname : Γ.Binds decl.name (Context.function options Γ decl).value.2 :=
      Context.function_binds
    obtain ⟨t, hbinds, ht, hkeeps⟩ := h.binds hname
    exact ⟨t, hbinds, (Does.function options decl).leaves h ht hkeeps⟩

end Stack

namespace Source.Program

open Stack

/-- **Frames.**  A statement that declares no variables leaves the context as it is.  Inside a
function, a statement changes the innermost layer only, and so does everything on the way through
it.  A block gives its layer back, a function changes what its own name stands for, and only its
signature is left of its body.  The same holds of runs, from every state that has a layer.  So
another body for a function changes neither the other items nor the faults before and behind the
function. -/
theorem check_frame (builtins : Builtins) (options : Options) :
    (∀ (Γ : Context) (stmt : Stmt), stmt.isDeclaration = false → (stmt.check Γ).value.2 = Γ) ∧
    (∀ (Γ : Context) (stmt : Stmt), Γ.scopes.inner ≠ [] →
      Γ.Frames (stmt.check Γ).value.2 ∧
        Moment.Inside Γ (stmt.moments Γ) (stmt.check Γ).faults) ∧
    (∀ (Γ : Context) (body : Block), (Stmt.checkBlock Γ.enter body).value.2.exit = Γ) ∧
    (∀ (Γ : Context) (decl : Function),
      Γ.Binds decl.name (Context.function options Γ decl).value.2) ∧
    (∀ (Γ : Context) (params : List Typed.Decl) (returns : List Ty) (body : Block),
      (Γ.bodyContext params returns body).exit = { Γ with returns := returns, inLoop := false }) ∧
    (∀ s : State, s.layers ≠ [] → ∃ Γ, s.Shows Γ ∧ s.Framed options Γ) ∧
    ∀ (before after : List Item) (decl : Function),
      ∃ (first last : List Typed.Item) (typed : Typed.Function) (Θ : Context)
        (earlier later : List Fault), ∀ body typeRegions commentRegions, ∃ block,
          let program : Program :=
            ⟨before ++ .function { decl with body := body } :: after, typeRegions, commentRegions⟩
          let items := first ++ .function { typed with body := block } :: last
          let segment := ((Item.function { decl with body := body }).check options
            (checkItems options (.start builtins) before).value.2).faults
          program.walk builtins options = ⟨(items, Θ), earlier ++ segment ++ later⟩ ∧
            (∀ diagnostics, program.check builtins options = .error diagnostics →
              diagnostics =
                (earlier ++ segment ++ later).map (Fault.diagnostic options.filename)) ∧
              ∀ checked, program.check builtins options = .ok checked →
                checked = assemble checked.name items Θ := by
  refine ⟨fun Γ stmt h => Stmt.check_context_eq h,
    fun Γ stmt h => ⟨Stmt.check_frames h, Stmt.moments_inside h⟩,
    fun Γ body => Stmt.checkBlock_exit, fun Γ decl => Context.function_binds,
    fun Γ params returns body => Context.bodyContext_exit, fun s h => ?_,
    fun before after decl => ?_⟩
  · obtain ⟨Γ, hs⟩ := State.exists_shows h
    exact ⟨Γ, hs, hs.framed options⟩
  obtain ⟨first, last, typed, Θ, earlier, later, h⟩ :=
    walk_replace_body builtins options before after decl
  refine ⟨first, last, typed, Θ, earlier, later, fun body typeRegions commentRegions => ?_⟩
  obtain ⟨block, hw⟩ := h body typeRegions commentRegions
  refine ⟨block, hw, fun diagnostics herror => ?_, fun checked hok => ?_⟩
  · rw [check_error herror, hw]
  · obtain ⟨items, Γ, name, hy, -, rfl⟩ := walk_yields_of_check hok
    have hvalue := hy.value_eq
    rw [hw] at hvalue
    cases hvalue
    rfl

end Source.Program

end LuaTyping
