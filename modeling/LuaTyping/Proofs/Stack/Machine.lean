import LuaTyping.Proofs.Frame.Stmt

/-!
# Checking with a stack of layers

The contexts of the checker are values: a block is checked in a context with one layer more, and
behind it the old context is still at hand.  Here the checker has a state instead.  Layers are
pushed and popped, the open loops are counted up and down, and faults are appended to one list.
Such operations have no result in some states, and a run that meets one of these is `Stuck`: there
may be no layer to declare a variable in, the layer to pop may not be the one that was pushed, no
loop may be left to count down, and an index may be out of range.

The state keeps a log: an operation that changes what a check can look at notes the moment in which
it arrives (`State.arrive`).  No operation looks at the log.

`Does` relates a run to the checks on contexts: from every state that shows a context (`Shows`) the
run succeeds with the value and the faults of the check, goes through the given moments, and leaves
the same layers, loops and function open.  This module has the operations and says what each of them
does.
-/

namespace LuaTyping

variable {α β : Type}

/-- Why a run has no result. -/
inductive Stuck where
  /-- There is no layer at all. -/
  | noLayer
  /-- The innermost layer is not the one to pop, or it is the toplevel. -/
  | otherLayer
  /-- No loop is open. -/
  | noLoop
  /-- An index is not below the length. -/
  | outOfRange
deriving DecidableEq, Repr

/-- The contexts differ at most by their type names and their modules. -/
def Context.SameVars (Γ Δ : Context) : Prop :=
  ∃ types module, Δ = { Γ with scopes := { Γ.scopes with types := types }, module := module }

namespace Stack

/-- A layer of variables, with the number of the push that opened it. -/
structure Layer where
  serial : Nat
  vars : NameMap Binding

/-- The state of the checker.  `layers` has the innermost layer first and the toplevel last, and
`pushes` counts the layers opened so far; `returns` is there inside a function only; `trace` is the
log of the moments so far. -/
structure State where
  builtins : Builtins
  layers : List Layer
  pushes : Nat
  types : NameMap Declared
  module : ModuleDraft
  returns : Option (List Ty)
  loops : Nat
  faults : List Fault
  trace : List Moment

/-- The state in front of the first item of a program. -/
def State.start (builtins : Builtins) : State where
  builtins := builtins
  layers := [⟨0, []⟩]
  pushes := 1
  types := []
  module := ⟨none, []⟩
  returns := none
  loops := 0
  faults := []
  trace := [⟨.start builtins, []⟩]

/-- What a check can look at in a state, which needs a toplevel. -/
def State.context? (s : State) : Option Context :=
  s.layers.getLast?.map fun toplevel =>
    { scopes := ⟨s.builtins, s.layers.dropLast.map (·.vars), toplevel.vars, s.types⟩
      module := s.module
      returns := s.returns.getD []
      inLoop := s.loops != 0 }

/-- Notes what a check can look at by now. -/
def State.arrive (s : State) : State :=
  { s with trace := s.trace ++ s.context?.toList.map (⟨·, s.faults⟩) }

/-- A computation on the state that can get stuck. -/
abbrev Run :=
  StateT State (Except Stuck)

/-! ### The operations -/

/-- The context in the current state. -/
def view : Run Context := fun s =>
  match s.context? with
  | some Γ => .ok (Γ, s)
  | none => .error .noLayer

/-- The value of a check, whose faults are appended to the earlier ones. -/
def emit (report : Report α) : Run α := fun s =>
  .ok (report.value, { s with faults := s.faults ++ report.faults })

/-- A check that only looks at the context. -/
def look (check : Context → Report α) : Run α := do
  emit (check (← view))

/-- Arrives in the current state. -/
def arrive : Run Unit := fun s =>
  .ok ((), s.arrive)

/-- A check that changes the context, but no variables. -/
def adopt (check : Context → Report Context) : Run Unit := do
  let Δ ← look check
  modify fun s => { s with types := Δ.scopes.types, module := Δ.module }
  arrive

/-- Opens a layer and gives its number. -/
def push : Run Nat := fun s =>
  .ok (s.pushes,
    State.arrive { s with layers := ⟨s.pushes, []⟩ :: s.layers, pushes := s.pushes + 1 })

/-- Closes the layer with the number, which has to be the innermost one and not the toplevel. -/
def pop (serial : Nat) : Run Unit := fun s =>
  match s.layers with
  | [] => .error .noLayer
  | [_] => .error .otherLayer
  | layer :: outer =>
    if layer.serial = serial then .ok ((), State.arrive { s with layers := outer })
    else .error .otherLayer

/-- Runs in a layer of its own. -/
def layered (body : Run α) : Run α := do
  let serial ← push
  let value ← body
  pop serial
  pure value

/-- Counts one more open loop. -/
def enterLoop : Run Unit := fun s =>
  .ok ((), State.arrive { s with loops := s.loops + 1 })

/-- Counts one open loop less. -/
def leaveLoop : Run Unit := fun s =>
  match s.loops with
  | 0 => .error .noLoop
  | loops + 1 => .ok ((), State.arrive { s with loops := loops })

/-- Runs inside one more loop. -/
def looped (body : Run α) : Run α := do
  enterLoop
  let value ← body
  leaveLoop
  pure value

/-- Runs inside a function, where no loop is open yet. -/
def inFunction (returns : List Ty) (body : Run α) : Run α := do
  let outer ← get
  set (State.arrive { outer with returns := some returns, loops := 0 })
  let value ← body
  modify fun s => State.arrive { s with returns := outer.returns, loops := outer.loops }
  pure value

/-- Declares a variable in the innermost layer.  At the toplevel a name can be declared once. -/
def declare (name : String) (binding : Binding) : Run Unit := fun s =>
  match s.layers with
  | [] => .error .noLayer
  | [toplevel] =>
    match toplevel.vars.lookup name with
    | some previous =>
      .ok ((), State.arrive { s with
        faults := s.faults ++ [⟨.duplicateToplevel name previous.loc, binding.loc⟩] })
    | none =>
      .ok ((), State.arrive { s with
        layers := [⟨toplevel.serial, toplevel.vars.insert name binding⟩] })
  | layer :: outer =>
    .ok ((), State.arrive { s with
      layers := ⟨layer.serial, layer.vars.insert name binding⟩ :: outer })

/-- Declares variables of one kind, from left to right. -/
def declareAll (kind : VarKind) : List Typed.Decl → Run Unit
  | [] => pure ()
  | decl :: rest => do
    declare decl.name ⟨decl.ty, decl.loc, kind⟩
    declareAll kind rest

/-- The element at an index. -/
def item (elems : List α) (index : Nat) : Run α := fun s =>
  match elems[index]? with
  | some elem => .ok (elem, s)
  | none => .error .outOfRange

/-- The list with another element at an index. -/
def replace (elems : List α) (index : Nat) (elem : α) : Run (List α) := fun s =>
  if index < elems.length then .ok (elems.set index elem, s) else .error .outOfRange

/-! ### Runs and checks -/

variable {s s' s'' : State} {Γ Δ Θ : Context} {run : Run α} {next : α → Run β} {a : α} {b : β}
  {faults faults' : List Fault} {moments moments' : List Moment}

theorem bind_of_ok (h : run s = .ok (a, s')) : (run >>= next) s = next a s' := by
  show (run s >>= fun p => next p.1 p.2) = next a s'
  rw [h]
  rfl

/-- Checks one after another are appended one after another. -/
@[simp]
theorem emit_bind (first : Report α) (check : α → Report β) :
    emit (first >>= check) = emit first >>= fun value => emit (check value) := by
  funext s
  show Except.ok _ = Except.ok _
  simp only [Report.faults_bind, List.append_assoc]
  rfl

@[simp]
theorem emit_pure (value : α) : emit (pure value : Report α) = pure value := by
  funext s
  show Except.ok (value, { s with faults := s.faults ++ [] }) = Except.ok (value, s)
  rw [List.append_nil]

@[simp]
theorem emit_map (f : α → β) (report : Report α) : emit (f <$> report) = f <$> emit report := by
  rw [map_eq_pure_bind, map_eq_pure_bind, emit_bind]
  simp

/-- The state has what the context has. -/
structure State.Shows (s : State) (Γ : Context) : Prop where
  builtins : Γ.scopes.builtins = s.builtins
  layers : s.layers.map Layer.vars = Γ.scopes.inner ++ [Γ.scopes.toplevel]
  types : Γ.scopes.types = s.types
  module : Γ.module = s.module
  returns : Γ.returns = s.returns.getD []
  inLoop : Γ.inLoop = (s.loops != 0)

theorem State.Shows.context?_eq (h : s.Shows Γ) : s.context? = some Γ := by
  obtain ⟨⟨_, inner, toplevel, _⟩, _, _, _⟩ := Γ
  obtain ⟨rfl, hlayers, rfl, rfl, rfl, rfl⟩ := h
  obtain ⟨above, last, hsplit, rfl, hlast⟩ := List.map_eq_append_iff.mp hlayers
  obtain ⟨bottom, rest, rfl, rfl, hrest⟩ := List.map_eq_cons_iff.mp hlast
  rw [List.map_eq_nil_iff.mp hrest] at hsplit
  simp [State.context?, hsplit]

/-- The same layers, loops and function are open. -/
structure State.Keeps (s s' : State) : Prop where
  serials : s'.layers.map Layer.serial = s.layers.map Layer.serial
  returns : s'.returns = s.returns
  loops : s'.loops = s.loops

theorem State.Keeps.refl : s.Keeps s :=
  ⟨rfl, rfl, rfl⟩

theorem State.Keeps.trans (h : s.Keeps s') (h' : s'.Keeps s'') : s.Keeps s'' :=
  ⟨h'.serials.trans h.serials, h'.returns.trans h.returns, h'.loops.trans h.loops⟩

/-- Faults and moments have been added. -/
structure State.Adds (s : State) (faults : List Fault) (moments : List Moment) (s' : State) :
    Prop where
  faults : s'.faults = s.faults ++ faults
  trace : s'.trace = s.trace ++ moments.map (Moment.after s.faults)

namespace State.Adds

theorem refl : s.Adds [] [] s :=
  ⟨(List.append_nil _).symm, (List.append_nil _).symm⟩

theorem trans (h : s.Adds faults moments s') (h' : s'.Adds faults' moments' s'') :
    s.Adds (faults ++ faults') (moments ++ moments'.map (Moment.after faults)) s'' where
  faults := by rw [h'.faults, h.faults, List.append_assoc]
  trace := by rw [h'.trace, h.trace, h.faults]; simp

/-- What is opened is closed again. -/
theorem around {t t' : State} (hopen : s.Adds [] [⟨Γ, []⟩] t) (h : t.Adds faults moments t')
    (hclose : t'.Adds [] [⟨Δ, []⟩] s') :
    s.Adds faults (Moment.around Γ moments faults Δ) s' := by
  have hadds := hopen.trans (h.trans hclose)
  simpa [Moment.around, Moment.after] using hadds

end State.Adds

theorem State.Shows.arrive (h : s.Shows Γ) : s.arrive.Shows Γ :=
  ⟨h.builtins, h.layers, h.types, h.module, h.returns, h.inLoop⟩

/-- A state in which a run arrives without new faults. -/
theorem State.Shows.adds_arrive (h : s'.Shows Γ) (hfaults : s'.faults = s.faults)
    (htrace : s'.trace = s.trace) : s.Adds [] [⟨Γ, []⟩] s'.arrive where
  faults := hfaults.trans (List.append_nil _).symm
  trace := by simp [State.arrive, h.context?_eq, hfaults, htrace, Moment.after]

/-- From every state that shows `Γ` the run succeeds with the value, adds the faults and the
moments, and ends in a state that shows `Δ`, with the same layers, loops and function open. -/
def Does (run : Run α) (Γ : Context) (value : α) (Δ : Context) (faults : List Fault)
    (moments : List Moment) : Prop :=
  ∀ s : State, s.Shows Γ →
    ∃ s', run s = .ok (value, s') ∧ s'.Shows Δ ∧ s.Adds faults moments s' ∧ s.Keeps s'

namespace Does

theorem pure : Does (pure a) Γ a Γ [] [] :=
  fun s hs => ⟨s, rfl, hs, .refl, .refl⟩

theorem bind (h : Does run Γ a Δ faults moments) (hnext : Does (next a) Δ b Θ faults' moments') :
    Does (run >>= next) Γ b Θ (faults ++ faults')
      (moments ++ moments'.map (Moment.after faults)) := by
  intro s hs
  obtain ⟨s', hrun, hs', hadds, hkeeps⟩ := h s hs
  obtain ⟨s'', hrun', hs'', hadds', hkeeps'⟩ := hnext s' hs'
  exact ⟨s'', (bind_of_ok hrun).trans hrun', hs'', hadds.trans hadds', hkeeps.trans hkeeps'⟩

theorem of_faults (h : Does run Γ a Δ faults moments) (hfaults : faults = faults') :
    Does run Γ a Δ faults' moments :=
  hfaults ▸ h

theorem of_moments (h : Does run Γ a Δ faults moments) (hmoments : moments = moments') :
    Does run Γ a Δ faults moments' :=
  hmoments ▸ h

/-- The rest of a run goes through no more moments. -/
theorem bind_nil (h : Does run Γ a Δ faults moments) (hnext : Does (next a) Δ b Θ faults' []) :
    Does (run >>= next) Γ b Θ (faults ++ faults') moments :=
  (h.bind hnext).of_moments (List.append_nil _)

theorem view : Does view Γ Γ Γ [] [] := by
  intro s hs
  refine ⟨s, ?_, hs, .refl, .refl⟩
  rw [Stack.view, hs.context?_eq]

/-- What follows a check, which goes through no moments itself. -/
theorem followedBy {γ : Type} {report : Report γ} {moments : γ → List Moment}
    (h : Does run Γ a Γ report.faults [])
    (hnext : Does (next a) Γ b Δ faults (moments report.value)) :
    Does (run >>= next) Γ b Δ (report.faults ++ faults) (report.followedBy moments) :=
  h.bind hnext

theorem view_bind {next : Context → Run β} (h : Does (next Γ) Γ b Δ faults moments) :
    Does (Stack.view >>= next) Γ b Δ faults moments :=
  (view.bind h).of_moments (by simp)

theorem emit (report : Report α) : Does (emit report) Γ report.value Γ report.faults [] :=
  fun _ hs => ⟨_, rfl, ⟨hs.builtins, hs.layers, hs.types, hs.module, hs.returns, hs.inLoop⟩,
    ⟨rfl, (List.append_nil _).symm⟩, ⟨rfl, rfl, rfl⟩⟩

/-- A run ends with a check of which only the faults are used. -/
theorem emit_last (report : Report α) :
    Does (Stack.emit report >>= fun _ => Pure.pure b) Γ b Γ report.faults [] :=
  of_faults ((emit report).bind_nil .pure) (List.append_nil _)

/-- A run whose rest is a check like that of the contexts. -/
theorem bind_emit {γ : Type} {first : Report γ} {check : γ → Report β}
    (h : Does run Γ a Γ first.faults []) (hnext : next a = Stack.emit (check first.value)) :
    Does (run >>= next) Γ (first >>= check).value Γ (first >>= check).faults [] :=
  h.bind (hnext ▸ emit (check first.value))

/-- **Checks only look.** -/
theorem look (check : Context → Report α) :
    Does (look check) Γ (check Γ).value Γ (check Γ).faults [] :=
  view_bind (emit (check Γ))

theorem arrive : Does arrive Γ () Γ [] [⟨Γ, []⟩] :=
  fun _ hs => ⟨_, rfl, hs.arrive, hs.adds_arrive rfl rfl, ⟨rfl, rfl, rfl⟩⟩

/-- A run goes on from the moment in which it has arrived. -/
theorem arrive_bind {next : Unit → Run β} (h : Does (next ()) Γ b Δ faults moments) :
    Does (Stack.arrive >>= next) Γ b Δ faults (⟨Γ, []⟩ :: moments) :=
  (arrive.bind h).of_moments (by simp)

/-- A change of the state that ends in a new moment. -/
theorem of_arrive (h : ∀ s : State, s.Shows Γ → ∃ t : State, run s = .ok (a, t.arrive) ∧
      t.Shows Δ ∧ t.faults = s.faults ++ faults ∧ t.trace = s.trace ∧ s.Keeps t) :
    Does run Γ a Δ faults [Moment.after faults ⟨Δ, []⟩] := by
  intro s hs
  obtain ⟨t, hrun, ht, hfaults, htrace, hkeeps⟩ := h s hs
  have hadds : s.Adds faults [] t := ⟨hfaults, by rw [htrace]; simp⟩
  refine ⟨t.arrive, hrun, ht.arrive, ?_, ⟨hkeeps.serials, hkeeps.returns, hkeeps.loops⟩⟩
  simpa using hadds.trans (ht.adds_arrive rfl rfl)

/-- A check that keeps the variables changes type names and the module only. -/
theorem adopt (check : Context → Report Context) (h : Γ.SameVars (check Γ).value) :
    Does (adopt check) Γ () (check Γ).value (check Γ).faults
      ((check Γ).followedBy fun Δ => [⟨Δ, []⟩]) := by
  refine of_arrive fun s hs => ?_
  obtain ⟨s', hrun, hs', hadds, hkeeps⟩ := look check s hs
  refine ⟨_, bind_of_ok hrun, ?_, hadds.faults, hadds.trace.trans (List.append_nil _),
    ⟨hkeeps.serials, hkeeps.returns, hkeeps.loops⟩⟩
  obtain ⟨types, module, heq⟩ := h
  rw [heq]
  exact ⟨hs'.builtins, hs'.layers, rfl, rfl, hs'.returns, hs'.inLoop⟩

end Does

/-! ### Layers -/

/-- A pop succeeds exactly on the layer of its push, with another layer below. -/
theorem pop_eq_ok_iff {serial : Nat} {s s' : State} :
    pop serial s = .ok ((), s') ↔ ∃ vars layer outer,
      s.layers = ⟨serial, vars⟩ :: layer :: outer ∧
        s' = State.arrive { s with layers := layer :: outer } := by
  unfold pop
  constructor
  · intro h
    split at h
    · cases h
    · cases h
    · next layer outer hne hlayers =>
      split at h
      · next hserial =>
        cases h
        obtain ⟨n, vars⟩ := layer
        cases outer with
        | nil => exact absurd rfl hne
        | cons below outer =>
          subst hserial
          exact ⟨vars, below, outer, hlayers, rfl⟩
      · cases h
  · rintro ⟨vars, layer, outer, hlayers, rfl⟩
    rw [hlayers]
    exact if_pos rfl

example (builtins : Builtins) : pop 0 (.start builtins) = .error .otherLayer :=
  rfl

theorem State.Shows.layers_ne_nil (h : s.Shows Γ) : s.layers ≠ [] := by
  intro hnil
  have hlayers := h.layers
  simp [hnil] at hlayers

theorem State.Shows.exit (h : s.Shows Γ) {layer below : Layer} {outer : List Layer}
    (hlayers : s.layers = layer :: below :: outer) :
    ({ s with layers := below :: outer } : State).Shows Γ.exit := by
  refine ⟨h.builtins, ?_, h.types, h.module, h.returns, h.inLoop⟩
  have hshown := h.layers
  rw [hlayers] at hshown
  cases hinner : Γ.scopes.inner with
  | nil => simp [hinner] at hshown
  | cons vars inner =>
    rw [hinner] at hshown
    rw [Context.exit, Scopes.exit, hinner]
    exact (List.cons.inj hshown).2

namespace Does

/-- **A layer is popped by the run that pushed it.** -/
theorem layered {body : Run α} (h : Does body Γ.enter a Δ faults moments) (hexit : Δ.exit = Γ) :
    Does (layered body) Γ a Γ faults (Moment.around Γ.enter moments faults Γ) := by
  intro s hs
  have hopen : State.Shows { s with layers := ⟨s.pushes, []⟩ :: s.layers, pushes := s.pushes + 1 }
      Γ.enter :=
    ⟨hs.builtins, congrArg ([] :: ·) hs.layers, hs.types, hs.module, hs.returns, hs.inLoop⟩
  obtain ⟨s', hrun, hs', hadds, hkeeps⟩ := h _ hopen.arrive
  -- the body keeps the numbers of the layers, so the new one is on top of an old one
  obtain ⟨⟨_, vars⟩, outer, hlayers, rfl, houter⟩ := List.map_eq_cons_iff.mp hkeeps.serials
  obtain ⟨first, rest, hold⟩ := List.exists_cons_of_ne_nil hs.layers_ne_nil
  rw [hold] at houter
  obtain ⟨below, outer, rfl, -, -⟩ := List.map_eq_cons_iff.mp houter
  have hpop := pop_eq_ok_iff.mpr ⟨vars, below, outer, hlayers, rfl⟩
  have hclose : State.Shows { s' with layers := below :: outer } Γ := hexit ▸ hs'.exit hlayers
  exact ⟨_, (bind_of_ok rfl).trans ((bind_of_ok hrun).trans (bind_of_ok hpop)), hclose.arrive,
    .around (hopen.adds_arrive rfl rfl) hadds (hclose.adds_arrive rfl rfl),
    ⟨houter.trans (congrArg _ hold.symm), hkeeps.returns, hkeeps.loops⟩⟩

end Does

/-! ### Loops and functions -/

/-- Leaving a loop succeeds exactly inside one. -/
theorem leaveLoop_eq_ok_iff {s s' : State} :
    leaveLoop s = .ok ((), s') ↔
      ∃ loops, s.loops = loops + 1 ∧ s' = State.arrive { s with loops := loops } := by
  unfold leaveLoop
  constructor
  · intro h
    split at h
    · cases h
    · next loops hloops =>
      cases h
      exact ⟨loops, hloops, rfl⟩
  · rintro ⟨loops, hloops, rfl⟩
    rw [hloops]

example (builtins : Builtins) : leaveLoop (.start builtins) = .error .noLoop :=
  rfl

namespace Does

/-- **A loop is left by the run that entered it.** -/
theorem looped {body : Run α} (h : Does body (Γ.inside Γ.returns true) a Δ faults moments) :
    Does (looped body) Γ a (Δ.inside Γ.returns Γ.inLoop) faults
      (Moment.around (Γ.inside Γ.returns true) moments faults
        (Δ.inside Γ.returns Γ.inLoop)) := by
  intro s hs
  have hopen : State.Shows { s with loops := s.loops + 1 } (Γ.inside Γ.returns true) :=
    ⟨hs.builtins, hs.layers, hs.types, hs.module, hs.returns, rfl⟩
  obtain ⟨s', hrun, hs', hadds, hkeeps⟩ := h _ hopen.arrive
  have hleave := leaveLoop_eq_ok_iff.mpr ⟨s.loops, hkeeps.loops, rfl⟩
  have hclose : State.Shows { s' with loops := s.loops } (Δ.inside Γ.returns Γ.inLoop) :=
    ⟨hs'.builtins, hs'.layers, hs'.types, hs'.module, hkeeps.returns ▸ hs.returns, hs.inLoop⟩
  exact ⟨_, (bind_of_ok rfl).trans ((bind_of_ok hrun).trans (bind_of_ok hleave)), hclose.arrive,
    .around (hopen.adds_arrive rfl rfl) hadds (hclose.adds_arrive rfl rfl),
    ⟨hkeeps.serials, hkeeps.returns, rfl⟩⟩

/-- The loops and the function around a function are there again behind it. -/
theorem inFunction {returns : List Ty} {body : Run α}
    (h : Does body (Γ.inside returns false) a Δ faults moments) :
    Does (inFunction returns body) Γ a (Δ.inside Γ.returns Γ.inLoop) faults
      (Moment.around (Γ.inside returns false) moments faults (Δ.inside Γ.returns Γ.inLoop)) := by
  intro s hs
  have hopen : State.Shows { s with returns := some returns, loops := 0 }
      (Γ.inside returns false) :=
    ⟨hs.builtins, hs.layers, hs.types, hs.module, rfl, rfl⟩
  obtain ⟨s', hrun, hs', hadds, hkeeps⟩ := h _ hopen.arrive
  have hclose : State.Shows { s' with returns := s.returns, loops := s.loops }
      (Δ.inside Γ.returns Γ.inLoop) :=
    ⟨hs'.builtins, hs'.layers, hs'.types, hs'.module, hs.returns, hs.inLoop⟩
  exact ⟨_, (bind_of_ok rfl).trans ((bind_of_ok rfl).trans (bind_of_ok hrun)), hclose.arrive,
    .around (hopen.adds_arrive rfl rfl) hadds (hclose.adds_arrive rfl rfl),
    ⟨hkeeps.serials, rfl, rfl⟩⟩

/-! ### Declarations -/

/-- **There is a layer to declare a variable in.** -/
theorem declare (name : String) (binding : Binding) :
    Does (declare name binding) Γ () (Γ.declare name binding).value
      (Γ.declare name binding).faults
      ((Γ.declare name binding).followedBy fun Δ => [⟨Δ, []⟩]) := by
  refine of_arrive fun s hs => ?_
  obtain ⟨⟨_, inner, toplevel, _⟩, _, _, _⟩ := Γ
  obtain ⟨rfl, hlayers, rfl, rfl, rfl, rfl⟩ := hs
  unfold Stack.declare Context.declare Scopes.declare
  cases inner with
  | nil =>
    obtain ⟨bottom, rest, hbottom, rfl, hrest⟩ := List.map_eq_cons_iff.mp hlayers
    rw [List.map_eq_nil_iff.mp hrest] at hbottom
    simp only [hbottom]
    cases hlookup : bottom.vars.lookup name with
    | some previous =>
      exact ⟨_, rfl, ⟨rfl, rfl, rfl, rfl, rfl, rfl⟩, rfl, rfl, ⟨by rw [hbottom], rfl, rfl⟩⟩
    | none =>
      exact ⟨_, rfl, ⟨rfl, rfl, rfl, rfl, rfl, rfl⟩, (List.append_nil _).symm, rfl,
        ⟨by rw [hbottom]; rfl, rfl, rfl⟩⟩
  | cons vars inner =>
    obtain ⟨layer, rest, htop, rfl, hrest⟩ := List.map_eq_cons_iff.mp hlayers
    obtain ⟨below, outer, rfl⟩ : ∃ below outer, rest = below :: outer :=
      List.exists_cons_of_ne_nil (by rintro rfl; simp at hrest)
    simp only [htop]
    exact ⟨_, rfl, ⟨rfl, congrArg (_ :: ·) hrest, rfl, rfl, rfl, rfl⟩, (List.append_nil _).symm,
      rfl, ⟨by rw [htop]; rfl, rfl, rfl⟩⟩

theorem declareAll (kind : VarKind) (decls : List Typed.Decl) :
    Does (declareAll kind decls) Γ () (Context.declareAll kind decls Γ).value
      (Context.declareAll kind decls Γ).faults (Context.declareMoments kind decls Γ) := by
  induction decls generalizing Γ with
  | nil => exact .pure
  | cons decl rest ih => exact (declare _ _).bind ih

end Does

end Stack

end LuaTyping
