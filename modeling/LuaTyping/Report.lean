import LuaTyping.Diagnostic

/-!
# Reports

A check never stops at a violation: it computes a value all the same and lists what it found.  A
`Report` is that value with the faults in the order in which they were found; running one check
after the other appends their faults.
-/

namespace LuaTyping

/-- A violation with its place. -/
structure Fault where
  cause : Violation
  loc : Location

/-- What a user sees of a fault in a file. -/
def Fault.diagnostic (filename : String) (fault : Fault) : Diagnostic where
  kind := fault.cause.kind
  message := fault.cause.message
  location := fault.loc
  filename := filename
  related := fault.cause.related

/-- A value and the faults found on the way to it. -/
structure Report (α : Type) where
  value : α
  faults : List Fault

namespace Report

variable {α β : Type}

/-- A value without faults. -/
protected def pure (value : α) : Report α :=
  ⟨value, []⟩

/-- One check after another. -/
protected def bind (first : Report α) (next : α → Report β) : Report β :=
  ⟨(next first.value).value, first.faults ++ (next first.value).faults⟩

instance : Monad Report where
  pure := Report.pure
  bind := Report.bind

/-- A single fault. -/
def fault (cause : Violation) (loc : Location) : Report Unit :=
  ⟨(), [⟨cause, loc⟩]⟩

/-- A fault unless the condition holds. -/
def require (condition : Bool) (cause : Violation) (loc : Location) : Report Unit :=
  if condition then pure () else fault cause loc

/-- The type that is found, or `unknown` with a fault. -/
def orUnknown (found : Option Ty) (cause : Violation) (loc : Location) : Report Ty :=
  match found with
  | some ty => pure ty
  | none => do
    fault cause loc
    pure .unknown

/-! ### The faults and values of composed checks -/

@[simp]
theorem value_pure (value : α) : (pure value : Report α).value = value :=
  rfl

@[simp]
theorem faults_pure (value : α) : (pure value : Report α).faults = [] :=
  rfl

@[simp]
theorem value_bind (first : Report α) (next : α → Report β) :
    (first >>= next).value = (next first.value).value :=
  rfl

@[simp]
theorem faults_bind (first : Report α) (next : α → Report β) :
    (first >>= next).faults = first.faults ++ (next first.value).faults :=
  rfl

@[simp]
theorem value_map (f : α → β) (report : Report α) : (f <$> report).value = f report.value :=
  rfl

@[simp]
theorem faults_map (f : α → β) (report : Report α) : (f <$> report).faults = report.faults :=
  List.append_nil _

@[simp]
theorem faults_fault (cause : Violation) (loc : Location) :
    (fault cause loc).faults = [⟨cause, loc⟩] :=
  rfl

@[simp]
theorem faults_require (condition : Bool) (cause : Violation) (loc : Location) :
    (require condition cause loc).faults = if condition then [] else [⟨cause, loc⟩] := by
  cases condition <;> rfl

instance : LawfulMonad Report :=
  LawfulMonad.mk' Report
    (fun report => by cases report; simp [Functor.map, Report.bind, Report.pure])
    (fun _ _ => rfl)
    (fun first next last => by simp [Bind.bind, Report.bind])

end Report

end LuaTyping
