import LuaTyping.Checking.Item

/-!
# Checking programs

A program is typed item by item.  It has to declare its module variable and to end by returning it;
`Program.walk` reports all that is wrong, and `Program.check` accepts a program about which nothing
is.
-/

namespace LuaTyping.Source

/-- Types items one after another.  A `return` has to be the last. -/
def checkItems (options : Options) (Γ : Context) :
    List Item → Report (List Typed.Item × Context)
  | [] => pure ([], Γ)
  | item :: rest => do
    Report.require (!item.isReturn || rest.isEmpty) .returnNotLast item.loc
    let (typed, Δ) ← item.check options Γ
    let (items, Δ) ← checkItems options Δ rest
    pure (typed.toList ++ items, Δ)

namespace Program

/-- Types a program, with the context that its last item leaves. -/
def walk (builtins : Builtins) (options : Options) (program : Program) :
    Report (List Typed.Item × Context) :=
  match program.items with
  | [] => do
    Report.fault .emptyProgram (.lineCol 1 1)
    pure ([], .start builtins)
  | first :: rest => do
    let (items, Γ) ← checkItems options (.start builtins) (first :: rest)
    let last := rest.getLastD first
    Report.require Γ.module.var.isSome .noModuleVariable first.loc
    Report.require last.isReturn .missingModuleReturn last.loc
    pure (items, Γ)

/-- The module that a walk through a program has assembled. -/
def assemble (name : String) (items : List Typed.Item) (Γ : Context) : CheckedModule where
  name := name
  exports := Γ.module.exports
  toplevel := Γ.scopes.toplevel.mapValues (·.ty)
  program := ⟨items⟩

/-- Checks a program: the module that it defines, or everything that is wrong with it. -/
def check (builtins : Builtins) (options : Options) (program : Program) :
    Except (List Diagnostic) CheckedModule :=
  let report := program.walk builtins options
  match report.faults, report.value.2.module.name? with
  | [], some name => .ok (assemble name report.value.1 report.value.2)
  | faults, _ => .error (faults.map (Fault.diagnostic options.filename))

end Program

end LuaTyping.Source
