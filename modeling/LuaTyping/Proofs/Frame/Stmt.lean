import LuaTyping.Proofs.Frame.Declare
import LuaTyping.Proofs.Known.Run

/-!
# What statements leave as it was

Expressions, value lists and annotations are checked in a context that they can only read.  A
statement inside a function changes its context in one place, the innermost open layer
(`Stmt.check_frames`), and only a declaration of variables changes that.

The same holds at every point of the run through a statement: contexts differ from the first one by
this layer, by layers that were opened above it and by whether a loop is open, and the faults
recorded by then are the first ones of the statement (`Stmt.moments_inside`).
-/

namespace LuaTyping

variable {α : Type}

namespace Context

variable {Γ Δ Θ : Context}

/-! ### The innermost layer -/

/-- The context with another innermost layer. -/
def withLayer (Γ : Context) (layer : NameMap Binding) : Context :=
  { Γ with scopes := { Γ.scopes with inner := layer :: Γ.scopes.inner.tail } }

/-- Closes the innermost layer. -/
def exit (Γ : Context) : Context :=
  { Γ with scopes := Γ.scopes.exit }

/-- The contexts differ at most by the innermost layer, which is open. -/
def Frames (Γ Δ : Context) : Prop :=
  ∃ layer, Δ = Γ.withLayer layer

theorem Frames.refl (h : Γ.scopes.inner ≠ []) : Γ.Frames Γ := by
  obtain ⟨⟨builtins, inner, toplevel, types⟩, module, returns, inLoop⟩ := Γ
  cases inner with
  | nil => exact absurd rfl h
  | cons layer outer => exact ⟨layer, rfl⟩

theorem Frames.trans (h : Γ.Frames Δ) (h' : Δ.Frames Θ) : Γ.Frames Θ := by
  obtain ⟨_, rfl⟩ := h
  obtain ⟨layer, rfl⟩ := h'
  exact ⟨layer, rfl⟩

theorem Frames.inner_ne_nil (h : Γ.Frames Δ) : Δ.scopes.inner ≠ [] := by
  obtain ⟨layer, rfl⟩ := h
  exact List.cons_ne_nil _ _

theorem Frames.returns_eq (h : Γ.Frames Δ) : Δ.returns = Γ.returns := by
  obtain ⟨layer, rfl⟩ := h
  rfl

/-- Nothing is left of a layer once it is closed. -/
theorem Frames.exit_eq (h : Γ.Frames Δ) : Δ.exit = Γ.exit := by
  obtain ⟨layer, rfl⟩ := h
  rfl

theorem enter_inner_ne_nil : Γ.enter.scopes.inner ≠ [] :=
  List.cons_ne_nil _ _

theorem enterLoop_inner_ne_nil : Γ.enterLoop.scopes.inner ≠ [] :=
  List.cons_ne_nil _ _

/-! ### Inside the innermost layer -/

/-- `Δ` lies inside the innermost layer of `Γ`: it differs from `Γ` at most by this layer, by layers
opened above it, and by whether a loop is open. -/
def Encloses (Γ Δ : Context) : Prop :=
  ∃ opened layer inLoop, Δ = { Γ with
    scopes := { Γ.scopes with inner := opened ++ layer :: Γ.scopes.inner.tail }, inLoop := inLoop }

theorem Frames.encloses (h : Γ.Frames Δ) : Γ.Encloses Δ := by
  obtain ⟨layer, rfl⟩ := h
  exact ⟨[], layer, Γ.inLoop, rfl⟩

theorem Frames.trans_encloses (h : Γ.Frames Δ) (h' : Δ.Encloses Θ) : Γ.Encloses Θ := by
  obtain ⟨_, rfl⟩ := h
  obtain ⟨opened, layer, inLoop, rfl⟩ := h'
  exact ⟨opened, layer, inLoop, rfl⟩

theorem Encloses.refl (h : Γ.scopes.inner ≠ []) : Γ.Encloses Γ :=
  (Frames.refl h).encloses

/-- What lies inside a new layer lies inside the one below. -/
theorem Encloses.of_enter (hΓ : Γ.scopes.inner ≠ []) (h : Γ.enter.Encloses Δ) : Γ.Encloses Δ := by
  obtain ⟨⟨builtins, inner, toplevel, types⟩, module, returns, inLoop⟩ := Γ
  obtain ⟨opened, layer, inLoop', rfl⟩ := h
  cases inner with
  | nil => exact absurd rfl hΓ
  | cons last outer =>
    exact ⟨opened ++ [layer], last, inLoop', by simp [enter, Scopes.enter]⟩

/-- What lies inside a loop lies inside the layer around. -/
theorem Encloses.of_inside {inLoop : Bool} (h : (Γ.inside Γ.returns inLoop).Encloses Δ) :
    Γ.Encloses Δ := by
  obtain ⟨opened, layer, inLoop, rfl⟩ := h
  exact ⟨opened, layer, inLoop, rfl⟩

theorem Encloses.inside {inLoop : Bool} (h : Γ.Encloses Δ) :
    Γ.Encloses (Δ.inside Γ.returns inLoop) := by
  obtain ⟨opened, layer, _, rfl⟩ := h
  exact ⟨opened, layer, inLoop, rfl⟩

/-! ### Declarations -/

theorem declare_frames (h : Γ.scopes.inner ≠ []) {name : String} {binding : Binding} :
    Γ.Frames (Γ.declare name binding).value := by
  unfold Context.declare Scopes.declare
  cases hin : Γ.scopes.inner with
  | nil => exact absurd hin h
  | cons layer outer => exact ⟨layer.insert name binding, by simp [withLayer, hin]⟩

theorem declareAll_frames {kind : VarKind} : ∀ {decls : List Typed.Decl} {Γ : Context},
    Γ.scopes.inner ≠ [] → Γ.Frames (declareAll kind decls Γ).value
  | [], _, h => .refl h
  | _ :: _, _, h => (declare_frames h).trans (declareAll_frames (declare_frames h).inner_ne_nil)

theorem declare_inside {returns : List Ty} {inLoop : Bool} (name : String) (binding : Binding) :
    (Γ.inside returns inLoop).declare name binding =
      (·.inside returns inLoop) <$> Γ.declare name binding := by
  unfold Context.declare Scopes.declare
  cases hinner : Γ.scopes.inner with
  | cons layer outer => simp [inside, hinner]
  | nil => cases hfound : Γ.scopes.toplevel.lookup name <;> simp [inside, hinner, hfound]

/-- Variables are declared in the same way inside and outside of functions and loops. -/
theorem declareAll_inside {returns : List Ty} {inLoop : Bool} (kind : VarKind)
    (decls : List Typed.Decl) :
    declareAll kind decls (Γ.inside returns inLoop) =
      (·.inside returns inLoop) <$> declareAll kind decls Γ := by
  induction decls generalizing Γ with
  | nil => rfl
  | cons decl rest ih => simp [declareAll, declare_inside, ih]

/-- The variables of a loop or a function stand in a layer of their own. -/
theorem declareAll_enter_frames (decls : List Typed.Decl) :
    Γ.enter.Frames (declareAll .inner decls Γ.enter).value :=
  declareAll_frames enter_inner_ne_nil

theorem declareAll_enterLoop (decls : List Typed.Decl) :
    declareAll .inner decls Γ.enterLoop =
      (·.inside Γ.returns true) <$> declareAll .inner decls Γ.enter :=
  declareAll_inside .inner decls

theorem sameButVars_of_declareAll {kind : VarKind} {decls : List Typed.Decl}
    (h : (declareAll kind decls Γ).Yields Δ) : Γ.SameButVars Δ :=
  h.value_eq ▸ declareAll_sameButVars

theorem declareVars_frames (h : Γ.scopes.inner ≠ []) {decls : List Source.Decl}
    {values : List Source.Expr} {loc : Location} :
    Γ.Frames (Γ.declareVars decls values loc).value.2 :=
  declareAll_frames h

end Context

/-! ### Statements -/

namespace Source.Stmt

variable {Γ : Context}

/-- Whether the statement declares variables for the statements behind it. -/
def isDeclaration : Source.Stmt → Bool
  | .declare .. => true
  | _ => false

/-- Only a declaration changes the context. -/
theorem check_context_eq {stmt : Source.Stmt} (h : stmt.isDeclaration = false) :
    (check Γ stmt).value.2 = Γ := by
  cases stmt with
  | declare => cases h
  | _ => rw [check]; rfl

/-- Statements change nothing but variables. -/
theorem check_sameButVars {stmt : Source.Stmt} : Γ.SameButVars (check Γ stmt).value.2 := by
  cases stmt with
  | declare decls values loc =>
    rw [check]
    exact Context.declareAll_sameButVars
  | _ => rw [check_context_eq rfl]; exact .refl

theorem sameButVars_of_check {stmt : Source.Stmt} {t : Typed.Stmt} {Δ : Context}
    (h : (check Γ stmt).Yields (t, Δ)) : Γ.SameButVars Δ := by
  have hΔ : Γ.SameButVars (check Γ stmt).value.2 := check_sameButVars
  rwa [h.value_eq] at hΔ

theorem checkBlock_sameButVars {stmts : List Source.Stmt} {Γ : Context} :
    Γ.SameButVars (checkBlock Γ stmts).value.2 := by
  induction stmts generalizing Γ with
  | nil => exact .refl
  | cons stmt rest ih =>
    rw [checkBlock]
    exact check_sameButVars.trans ih

theorem sameButVars_of_checkBlock {stmts : List Source.Stmt} {typed : List Typed.Stmt}
    {Δ : Context} (h : (checkBlock Γ stmts).Yields (typed, Δ)) : Γ.SameButVars Δ := by
  have hΔ : Γ.SameButVars (checkBlock Γ stmts).value.2 := checkBlock_sameButVars
  rwa [h.value_eq] at hΔ

/-- **Statements change the innermost layer only.** -/
theorem check_frames (h : Γ.scopes.inner ≠ []) {stmt : Source.Stmt} :
    Γ.Frames (check Γ stmt).value.2 := by
  cases hd : stmt.isDeclaration with
  | false =>
    rw [check_context_eq hd]
    exact .refl h
  | true =>
    cases stmt with
    | declare decls values loc =>
      rw [check]
      exact Context.declareVars_frames h
    | _ => cases hd

theorem checkBlock_frames : ∀ {stmts : List Source.Stmt} {Γ : Context}, Γ.scopes.inner ≠ [] →
    Γ.Frames (checkBlock Γ stmts).value.2
  | [], _, h => .refl h
  | _ :: _, _, h => by
    rw [checkBlock]
    exact (check_frames h).trans (checkBlock_frames (check_frames h).inner_ne_nil)

/-- **A block leaves no trace**: closing its layer behind it gives the context in front of it. -/
theorem checkBlock_exit {body : List Source.Stmt} : (checkBlock Γ.enter body).value.2.exit = Γ :=
  (checkBlock_frames Context.enter_inner_ne_nil).exit_eq

end Source.Stmt

/-! ### The points of the run through a statement -/

namespace Moment

/-- All contexts lie inside the innermost layer of `Γ`, and the recorded faults are the first ones of
`faults`. -/
def Inside (Γ : Context) (moments : List Moment) (faults : List Fault) : Prop :=
  ∀ moment ∈ moments, Γ.Encloses moment.context ∧ moment.recorded <+: faults

namespace Inside

variable {Γ Δ Θ : Context} {moments moments' : List Moment} {faults faults' : List Fault}

theorem nil : Inside Γ [] faults := by
  simp [Inside]

theorem cons (h : Γ.Encloses Δ) (hrest : Inside Γ moments faults) :
    Inside Γ (⟨Δ, []⟩ :: moments) faults := by
  rw [Inside, List.forall_mem_cons]
  exact ⟨⟨h, List.nil_prefix⟩, hrest⟩

theorem append (h : Inside Γ moments faults) (h' : Inside Γ moments' faults) :
    Inside Γ (moments ++ moments') faults := by
  rw [Inside, List.forall_mem_append]
  exact ⟨h, h'⟩

theorem around (hopened : Γ.Encloses Δ) (h : Inside Γ moments faults) (hclosed : Γ.Encloses Θ) :
    Inside Γ (Moment.around Δ moments faults Θ) faults := by
  refine .append (.cons hopened h) ?_
  rw [Inside, List.forall_mem_singleton]
  exact ⟨hclosed, List.prefix_refl _⟩

theorem mono (h : Inside Γ moments faults) (hfaults : faults <+: faults') :
    Inside Γ moments faults' :=
  fun moment hm => ⟨(h moment hm).1, (h moment hm).2.trans hfaults⟩

/-- More faults can follow. -/
theorem extend (h : Inside Γ moments faults) : Inside Γ moments (faults ++ faults') :=
  h.mono (List.prefix_append _ _)

theorem imp (h : Inside Δ moments faults) (hΔ : ∀ {Θ}, Δ.Encloses Θ → Γ.Encloses Θ) :
    Inside Γ moments faults :=
  fun moment hm => ⟨hΔ (h moment hm).1, (h moment hm).2⟩

theorem followedBy {report : Report α} {next : α → List Moment}
    (h : Inside Γ (next report.value) faults) :
    Inside Γ (report.followedBy next) (report.faults ++ faults) := by
  intro moment hm
  obtain ⟨later, hl, rfl⟩ := List.mem_map.mp hm
  obtain ⟨hc, hr⟩ := h later hl
  exact ⟨hc, (List.prefix_append_right_inj _).mpr hr⟩

/-- What lies inside a new layer, which is closed again. -/
theorem layer (hΓ : Γ.scopes.inner ≠ []) (h : Inside Γ.enter moments faults) :
    Inside Γ (Moment.around Γ.enter moments faults Γ) faults :=
  .around (.of_enter hΓ (.refl Context.enter_inner_ne_nil)) (h.imp (.of_enter hΓ)) (.refl hΓ)

end Inside

end Moment

open Moment

theorem Context.declareMoments_inside {kind : VarKind} : ∀ {decls : List Typed.Decl} {Γ : Context},
    Γ.scopes.inner ≠ [] → Inside Γ (declareMoments kind decls Γ) (declareAll kind decls Γ).faults
  | [], _, _ => .nil
  | _ :: _, _, h => by
    refine .followedBy (.cons (declare_frames h).encloses ?_)
    exact (declareMoments_inside (declare_frames h).inner_ne_nil).imp
      (declare_frames h).trans_encloses

theorem Context.varMoments_inside {Γ : Context} (h : Γ.scopes.inner ≠ []) {decls : List Source.Decl}
    {values : List Source.Expr} {loc : Location} :
    Inside Γ (Γ.varMoments decls values loc) (Γ.declareVars decls values loc).faults :=
  .followedBy (.followedBy (.followedBy (declareMoments_inside h).extend))

namespace Source.Stmt

section Body

variable {Γ : Context} {inLoop : Bool} {decls : List Typed.Decl} {body : List Source.Stmt}
  {whole : List Fault} {moments : Context → List Moment}

/-- Statements inside a loop, which is left behind them. -/
theorem insideMoments_inside (h : Γ.scopes.inner ≠ [])
    (hbody : ∀ {Δ : Context}, Δ.scopes.inner ≠ [] →
      Inside Δ (moments Δ) (checkBlock Δ body).faults) :
    Inside Γ (Γ.insideMoments Γ.returns inLoop body whole moments)
      ((checkBlock (Γ.inside Γ.returns inLoop) body).faults ++ whole) := by
  have hin : (Γ.inside Γ.returns inLoop).scopes.inner ≠ [] := h
  have hΘ : (Γ.inside Γ.returns inLoop).Frames
      (checkBlock (Γ.inside Γ.returns inLoop) body).value.2 := checkBlock_frames hin
  exact .around (.inside (.refl h)) ((hbody hin).imp .of_inside).extend
    (.inside (.of_inside hΘ.encloses))

/-- The body of a loop in the layer of its variables, which is closed behind it. -/
theorem bodyMoments_inside (h : Γ.scopes.inner ≠ [])
    (hbody : ∀ {Δ : Context}, Δ.scopes.inner ≠ [] →
      Inside Δ (moments Δ) (checkBlock Δ body).faults) :
    Inside Γ (Γ.bodyMoments decls Γ.returns true body whole moments)
      ((Context.declareAll .inner decls Γ.enterLoop).faults ++
        ((checkBlock (Context.declareAll .inner decls Γ.enterLoop).value body).faults ++
          whole)) := by
  have hΔ := Context.declareAll_enter_frames (Γ := Γ) decls
  have hinside : Inside _ (Context.insideMoments _ _ true body whole moments) _ :=
    insideMoments_inside hΔ.inner_ne_nil hbody
  rw [hΔ.returns_eq] at hinside
  rw [Context.declareAll_enterLoop, Report.faults_map, Report.value_map]
  exact .layer h (.append (Context.declareMoments_inside Context.enter_inner_ne_nil).extend
    (.followedBy (hinside.imp hΔ.trans_encloses)))

end Body

mutual

/-- **At every point of a statement** the context lies inside the innermost layer, and the faults
recorded so far are the first ones of the statement. -/
theorem moments_inside : ∀ {stmt : Source.Stmt} {Γ : Context}, Γ.scopes.inner ≠ [] →
    Inside Γ (moments Γ stmt) (check Γ stmt).faults
  | .declare decls values loc, Γ, h => by
    rw [moments, check]
    exact (Context.varMoments_inside h).extend
  | .assign .., Γ, _ | .call .., Γ, _ | .ret .., Γ, _ | .brk _, Γ, _ => by
    rw [moments]
    exact .nil
  | .block body loc, Γ, h => by
    rw [moments, check]
    exact (Inside.layer h (blockMoments_inside Context.enter_inner_ne_nil)).extend
  | .whileDo condition body loc, Γ, h => by
    rw [moments, check]
    exact .followedBy (bodyMoments_inside h blockMoments_inside)
  | .repeatUntil body condition loc, Γ, h => by
    rw [moments, check]
    have hbody : Inside Γ.enter (Γ.enter.insideMoments Γ.returns true body [] (blockMoments · body))
        ((checkBlock Γ.enterLoop body).faults ++ []) :=
      insideMoments_inside Context.enter_inner_ne_nil blockMoments_inside
    rw [List.append_nil] at hbody
    exact (Inside.layer h hbody.extend).mono
      ((List.prefix_append_right_inj _).mpr (List.prefix_append _ _))
  | .branch condition thenBlock arms elseBlock loc, Γ, h => by
    rw [moments, check]
    have hthen : Inside Γ.enter (blockMoments Γ.enter thenBlock) _ :=
      blockMoments_inside Context.enter_inner_ne_nil
    refine .followedBy (.append (Inside.layer h hthen).extend (.followedBy ?_))
    exact .append (armMoments_inside h).extend (.followedBy (elseMoments_inside h).extend)
  | .numericFor decl start limit step body loc, Γ, h => by
    rw [moments, check]
    exact .followedBy (bodyMoments_inside h blockMoments_inside)
  | .genericFor decls values body loc, Γ, h => by
    rw [moments, check]
    exact .followedBy (.followedBy (bodyMoments_inside h blockMoments_inside))

/-- The moments inside a block. -/
theorem blockMoments_inside : ∀ {stmts : List Source.Stmt} {Γ : Context}, Γ.scopes.inner ≠ [] →
    Inside Γ (blockMoments Γ stmts) (checkBlock Γ stmts).faults
  | [], Γ, _ => by
    rw [blockMoments]
    exact .nil
  | stmt :: rest, Γ, h => by
    rw [blockMoments, checkBlock]
    have hΔ : Γ.Frames (check Γ stmt).value.2 := check_frames h
    refine .append (moments_inside h).extend (.followedBy (.cons hΔ.encloses ?_))
    exact ((blockMoments_inside hΔ.inner_ne_nil).imp hΔ.trans_encloses).extend

theorem armMoments_inside : ∀ {arms : List Arm} {Γ : Context}, Γ.scopes.inner ≠ [] →
    Inside Γ (armMoments Γ arms) (checkArms Γ arms).faults
  | [], Γ, _ => by
    rw [armMoments]
    exact .nil
  | ⟨condition, body⟩ :: rest, Γ, h => by
    rw [armMoments, checkArms]
    have hbody : Inside Γ.enter (blockMoments Γ.enter body) _ :=
      blockMoments_inside Context.enter_inner_ne_nil
    exact .followedBy (.append (Inside.layer h hbody).extend
      (.followedBy (armMoments_inside h).extend))

theorem elseMoments_inside : ∀ {body : Option (List Source.Stmt)} {Γ : Context},
    Γ.scopes.inner ≠ [] → Inside Γ (elseMoments Γ body) (checkElse Γ body).faults
  | none, Γ, _ => by
    rw [elseMoments]
    exact .nil
  | some body, Γ, h => by
    rw [elseMoments, checkElse]
    exact (Inside.layer h (blockMoments_inside Context.enter_inner_ne_nil)).extend

end

end Source.Stmt

end LuaTyping
