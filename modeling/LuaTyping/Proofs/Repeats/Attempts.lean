import LuaTyping.Proofs.Scalar.Body

/-!
# Repeated declarations

Some things can be declared once in a program: a toplevel variable, a type name, a field of the
module, and the module variable itself (`Slot`).  An `Attempt` is a declaration of one of them,
whether or not it comes first.

`Γ.Tries attempts faults Δ` says of each slot by itself what comes of the attempts: if nothing is
declared in `Γ`, the first one counts, and each attempt after that is reported once, with the place
of the declaration that counts (`Slot.reports`).  Attempts are accepted (`Tries.accepted`) or refused
(`Tries.refused`) one at a time, and runs of them compose (`Tries.append`); how attempts on different
slots interleave does not matter (`Tries.of_own`).
-/

namespace LuaTyping

/-- What a program can declare once. -/
inductive Slot where
  | var (name : String)
  | type (name : String)
  | field (name : String)
  | module
deriving DecidableEq, Repr

/-- A declaration: what would be declared, and the place where it is reported if it is refused. -/
structure Attempt where
  slot : Slot
  entry : Declared
  place : Location

/-- What the violation says is declared again. -/
def Violation.slot? : Violation → Option Slot
  | .duplicateToplevel name _ => some (.var name)
  | .duplicateType name _ => some (.type name)
  | .duplicateModuleField name _ => some (.field name)
  | .multipleModuleVariables _ => some .module
  | _ => none

/-- Whether the violation is a repeated declaration of the slot. -/
def Violation.repeats (slot : Slot) (cause : Violation) : Bool :=
  cause.slot? = some slot

/-- Whether the violation is a repeated declaration. -/
def Violation.isRepeat (cause : Violation) : Bool :=
  cause.slot?.isSome

theorem Violation.itemOnly_of_isRepeat (cause : Violation) (h : cause.isRepeat = true) :
    cause.itemOnly = true := by
  cases cause with
  | duplicateToplevel | duplicateType | duplicateModuleField | multipleModuleVariables => rfl
  | _ => cases h

namespace Slot

/-- The violation of declaring it again. -/
def repeated : Slot → Location → Violation
  | .var name => .duplicateToplevel name
  | .type name => .duplicateType name
  | .field name => .duplicateModuleField name
  | .module => .multipleModuleVariables

/-- What is said of declaring it again, up to the place of the first declaration. -/
def complaint : Slot → String
  | .var name => "duplicate toplevel declaration for " ++ Violation.quoted name
  | .type name => "duplicate type name " ++ Violation.quoted name
  | .field name => "duplicate module field " ++ Violation.quoted name
  | .module => "there can only be one module variable per program"

/-- What is declared in a context. -/
def declared? (Γ : Context) : Slot → Option Declared
  | .var name => (Γ.scopes.toplevel.lookup name).map fun binding => ⟨binding.ty, binding.loc⟩
  | .type name => Γ.scopes.types.lookup name
  | .field name => Γ.module.fields.lookup name
  | .module => Γ.module.var.map fun var => ⟨.module [], var.2⟩

/-- The attempts on the slot. -/
def own (slot : Slot) (attempts : List Attempt) : List Attempt :=
  attempts.filter (·.slot = slot)

/-- The fault of declaring it again behind the first declaration. -/
def report (slot : Slot) (first : Declared) (again : Attempt) : Fault :=
  ⟨slot.repeated first.loc, again.place⟩

/-- The faults of attempts on the slot: every attempt but the first is one. -/
def reports (slot : Slot) : Option Declared → List Attempt → List Fault
  | some first, attempts => attempts.map (slot.report first)
  | none, [] => []
  | none, first :: rest => rest.map (slot.report first.entry)

/-- What is declared after attempts on one slot: the first. -/
def keeps (known : Option Declared) (attempts : List Attempt) : Option Declared :=
  known.or (attempts.head?.map (·.entry))

variable {slot : Slot} {known : Option Declared} {attempts more : List Attempt}

theorem own_append : slot.own (attempts ++ more) = slot.own attempts ++ slot.own more :=
  List.filter_append ..

@[simp]
theorem reports_nil : slot.reports known [] = [] := by
  cases known <;> rfl

theorem reports_append :
    slot.reports known (attempts ++ more) =
      slot.reports known attempts ++ slot.reports (keeps known attempts) more := by
  cases known with
  | some first => exact List.map_append
  | none =>
    cases attempts with
    | nil => rfl
    | cons first rest => exact List.map_append

theorem keeps_append : keeps known (attempts ++ more) = keeps (keeps known attempts) more := by
  cases known with
  | some first => rfl
  | none => cases attempts <;> rfl

/-- Attempts can be sorted by a property of their slots. -/
theorem own_partition (p : Slot → Bool) (slot : Slot) (attempts : List Attempt) :
    slot.own (attempts.filter (fun attempt => p attempt.slot) ++
      attempts.filter fun attempt => !p attempt.slot) = slot.own attempts := by
  have hpart : ∀ q : Slot → Bool, slot.own (attempts.filter fun attempt => q attempt.slot) =
      if q slot then slot.own attempts else [] := by
    intro q
    unfold own
    rw [List.filter_filter]
    split
    · next hq =>
      refine List.filter_congr fun attempt _ => ?_
      by_cases h : attempt.slot = slot <;> simp [h, hq]
    · next hq =>
      refine List.filter_eq_nil_iff.mpr fun attempt _ => ?_
      by_cases h : attempt.slot = slot <;> simp [h, hq]
  rw [own_append, hpart, hpart fun slot => !p slot]
  cases p slot <;> simp

end Slot

/-! ### Attempts in a context -/

namespace Context

/-- What comes of attempts. -/
structure Tries (Γ : Context) (attempts : List Attempt) (faults : List Fault) (Δ : Context) :
    Prop where
  inner : Δ.scopes.inner = Γ.scopes.inner
  faults : ∀ slot : Slot, faults.filter (·.cause.repeats slot) =
    slot.reports (slot.declared? Γ) (slot.own attempts)
  declared : ∀ slot : Slot, slot.declared? Δ = Slot.keeps (slot.declared? Γ) (slot.own attempts)

variable {Γ Δ Θ : Context} {attempt : Attempt} {attempts more : List Attempt}
  {faults faults' : List Fault} {α β : Type}

namespace Tries

/-- Other faults do not matter. -/
theorem of_avoids {report : Report α} (h : report.Avoids Violation.isRepeat) :
    Γ.Tries [] report.faults Γ where
  inner := rfl
  faults := by
    intro slot
    rw [Slot.own, List.filter_nil, Slot.reports_nil, List.filter_eq_nil_iff]
    intro fault hfault hrepeats
    have hcause := h fault hfault
    simp only [Violation.repeats, decide_eq_true_eq] at hrepeats
    simp [Violation.isRepeat, hrepeats] at hcause
  declared := fun slot => by cases slot.declared? Γ <;> rfl

theorem refl : Γ.Tries [] [] Γ :=
  of_avoids (Report.Avoids.pure (a := ()))

theorem append (h : Γ.Tries attempts faults Δ) (h' : Δ.Tries more faults' Θ) :
    Γ.Tries (attempts ++ more) (faults ++ faults') Θ where
  inner := h'.inner.trans h.inner
  faults := by
    intro slot
    rw [List.filter_append, h.faults, h'.faults, h.declared, Slot.own_append, Slot.reports_append]
  declared := by
    intro slot
    rw [h'.declared, h.declared, Slot.own_append, Slot.keeps_append]

/-- Only the order of the attempts on each slot matters. -/
theorem of_own (h : Γ.Tries attempts faults Δ)
    (hown : ∀ slot : Slot, slot.own more = slot.own attempts) : Γ.Tries more faults Δ where
  inner := h.inner
  faults := fun slot => by rw [hown, h.faults]
  declared := fun slot => by rw [hown, h.declared]

theorem bind {first : Report α} {next : α → Report β} (h : Γ.Tries attempts first.faults Δ)
    (h' : Δ.Tries more (next first.value).faults Θ) :
    Γ.Tries (attempts ++ more) (first >>= next).faults Θ :=
  h.append h'

/-- Checks before the attempts. -/
theorem after {first : Report α} {next : α → Report β} (h : first.Avoids Violation.isRepeat)
    (h' : Γ.Tries attempts (next first.value).faults Δ) :
    Γ.Tries attempts (first >>= next).faults Δ :=
  (of_avoids h).append h'

/-- Checks behind the attempts. -/
theorem before {first : Report α} {next : α → Report β} (h : Γ.Tries attempts first.faults Δ)
    (h' : (next first.value).Avoids Violation.isRepeat) :
    Γ.Tries attempts (first >>= next).faults Δ := by
  have hboth := h.append (of_avoids h')
  rwa [List.append_nil] at hboth

/-- The slot is taken. -/
theorem refused (attempt : Attempt) {first : Declared}
    (h : attempt.slot.declared? Γ = some first) :
    Γ.Tries [attempt] [attempt.slot.report first attempt] Γ where
  inner := rfl
  faults := by
    intro slot
    by_cases hslot : attempt.slot = slot
    · subst hslot
      have hrepeats : (attempt.slot.report first attempt).cause.repeats attempt.slot = true := by
        cases hslot : attempt.slot <;> simp [Slot.report, Slot.repeated, Violation.repeats,
          Violation.slot?]
      simp [Slot.own, hrepeats, h, Slot.reports]
    · have hrepeats : (attempt.slot.report first attempt).cause.repeats slot = false := by
        cases hslot' : attempt.slot <;> simpa [Slot.report, Slot.repeated, Violation.repeats,
          Violation.slot?, hslot'] using hslot
      simp [Slot.own, hrepeats, hslot]
  declared := by
    intro slot
    by_cases hslot : attempt.slot = slot
    · subst hslot
      simp [h, Slot.keeps]
    · simp [Slot.own, hslot, Slot.keeps]

/-- The slot is free. -/
theorem accepted (hinner : Δ.scopes.inner = Γ.scopes.inner)
    (h : attempt.slot.declared? Γ = none) (hnew : attempt.slot.declared? Δ = some attempt.entry)
    (hold : ∀ slot : Slot, slot ≠ attempt.slot → slot.declared? Δ = slot.declared? Γ) :
    Γ.Tries [attempt] [] Δ where
  inner := hinner
  faults := by
    intro slot
    by_cases hslot : attempt.slot = slot
    · subst hslot
      simp [Slot.own, h, Slot.reports]
    · simp [Slot.own, hslot]
  declared := by
    intro slot
    by_cases hslot : attempt.slot = slot
    · subst hslot
      simp [hnew, h, Slot.keeps, Slot.own]
    · simp [hold slot (Ne.symm hslot), Slot.keeps, Slot.own, hslot]

end Tries

end Context

end LuaTyping
