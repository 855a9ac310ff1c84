import LuaTyping.Report
import Mathlib.Data.List.Forall2

/-!
# Checks that find nothing wrong

A check *yields* a value if it gives the value and reports no fault.  A sequence of checks yields a
value exactly if every check in it yields one (`yields_bind`), so a check that yields a value comes
apart into the checks that it is made of, and the ways out that report a fault drop away.
-/

namespace LuaTyping.Report

variable {α β : Type}

/-- The check gives the value and finds nothing wrong. -/
def Yields (report : Report α) (value : α) : Prop :=
  report = ⟨value, []⟩

theorem yields_iff {report : Report α} {value : α} :
    report.Yields value ↔ report.value = value ∧ report.faults = [] := by
  obtain ⟨found, faults⟩ := report
  simp [Yields]

theorem Yields.value_eq {report : Report α} {value : α} (h : report.Yields value) :
    report.value = value :=
  (yields_iff.mp h).1

theorem Yields.faults_eq {report : Report α} {value : α} (h : report.Yields value) :
    report.faults = [] :=
  (yields_iff.mp h).2

theorem Yields.unique {report : Report α} {a b : α} (ha : report.Yields a)
    (hb : report.Yields b) : a = b := by
  rw [← ha.value_eq, hb.value_eq]

/-- A check without faults yields what it gives. -/
theorem yields_value {report : Report α} (h : report.faults = []) : report.Yields report.value :=
  yields_iff.mpr ⟨rfl, h⟩

/-- A check that yields a value hands it on. -/
theorem Yields.bind_eq {first : Report α} {a : α} (h : first.Yields a) (next : α → Report β) :
    (first >>= next) = next a := by
  rw [h]
  rfl

/-! ### The parts of a check -/

@[simp]
theorem yields_pure {a b : α} : (pure a : Report α).Yields b ↔ b = a := by
  rw [yields_iff]
  simp [eq_comm]

@[simp]
theorem yields_bind {first : Report α} {next : α → Report β} {b : β} :
    (first >>= next).Yields b ↔ ∃ a, first.Yields a ∧ (next a).Yields b := by
  simp only [yields_iff, value_bind, faults_bind, List.append_eq_nil_iff]
  constructor
  · rintro ⟨hb, hf, hn⟩
    exact ⟨first.value, ⟨rfl, hf⟩, hb, hn⟩
  · rintro ⟨a, ⟨rfl, hf⟩, hb, hn⟩
    exact ⟨hb, hf, hn⟩

@[simp]
theorem yields_map {f : α → β} {report : Report α} {b : β} :
    (f <$> report).Yields b ↔ ∃ a, report.Yields a ∧ b = f a := by
  rw [map_eq_pure_bind]
  simp only [yields_bind, yields_pure]

@[simp]
theorem yields_fault {cause : Violation} {loc : Location} {u : Unit} :
    (fault cause loc).Yields u ↔ False := by
  rw [yields_iff]
  simp

@[simp]
theorem yields_require {condition : Bool} {cause : Violation} {loc : Location} {u : Unit} :
    (require condition cause loc).Yields u ↔ condition = true := by
  rw [yields_iff]
  cases condition <;> simp

@[simp]
theorem yields_orUnknown {found : Option Ty} {cause : Violation} {loc : Location} {ty : Ty} :
    (orUnknown found cause loc).Yields ty ↔ found = some ty := by
  cases found <;> simp [orUnknown, eq_comm]

/-- A check of every element yields a list if each element yields its entry. -/
theorem yields_mapM {f : α → Report β} {as : List α} {bs : List β} :
    (as.mapM f).Yields bs ↔ List.Forall₂ (fun a b => (f a).Yields b) as bs := by
  induction as generalizing bs with
  | nil => simp
  | cons a as ih =>
    simp only [List.mapM_cons, yields_bind, yields_pure, ih, List.forall₂_cons_left_iff]
    constructor
    · rintro ⟨b, hb, bs, hbs, rfl⟩
      exact ⟨b, bs, hb, hbs, rfl⟩
    · rintro ⟨b, bs, hb, hbs, rfl⟩
      exact ⟨b, hb, bs, hbs, rfl⟩

theorem exists_yields_of_mapM {f : α → Report β} {as : List α} {bs : List β}
    (h : (as.mapM f).Yields bs) : ∀ a ∈ as, ∃ b, (f a).Yields b := by
  rw [yields_mapM] at h
  induction h with
  | nil => simp
  | cons hfirst _ ih => exact List.forall_mem_cons.mpr ⟨⟨_, hfirst⟩, ih⟩

theorem exists_yields_of_mem_mapM {f : α → Report β} {as : List α} {bs : List β}
    (h : (as.mapM f).Yields bs) : ∀ b ∈ bs, ∃ a, (f a).Yields b := by
  rw [yields_mapM] at h
  induction h with
  | nil => simp
  | cons hfirst _ ih => exact List.forall_mem_cons.mpr ⟨⟨_, hfirst⟩, ih⟩

end LuaTyping.Report
