import LuaTyping.Report
import LuaTyping.Ty.Equality
import LuaTyping.Typed.Program

/-!
# What an unknown type can set off

A fault about an undeclared type name leaves an `unknown` type behind, and most rules keep silent
about it.  `Typed.Program.quiet` says of a typed program that nothing in it speaks up:

* where values are tested for equality, one of them is of the type `unknown` or their types are the
  same;
* where something of the type `unknown` is called, no argument is a table constructor.

`report.Shows N u quiet` says that the faults about undeclared type names in a report are those for
`N` at the places `u`, and that there are no others exactly if `quiet` holds.
-/

namespace LuaTyping

/-! ### Quiet typed programs -/

namespace Typed

/-- Whether the expression is a table constructor. -/
def Expr.isInit (expr : Expr) : Bool :=
  match expr.kind with
  | .arrayInit _ | .tableInit _ => true
  | _ => false

/-- Whether a comparison of values of these types is quiet. -/
def quietOperands (op : BinaryOp) (left right : Ty) : Bool :=
  op.family != .equality || left.isUnknown || right.isUnknown || left.same right

/-- Whether a call of something of this type with the arguments is quiet. -/
def quietCall (callee : Ty) (args : List Expr) : Bool :=
  !callee.isUnknown || args.all fun arg => !arg.isInit

mutual

/-- Whether all comparisons and calls in the expression are quiet. -/
def Expr.quiet : Expr → Bool
  | ⟨kind, _, _⟩ => kind.quiet

/-- Whether all comparisons and calls in the expression are quiet. -/
def ExprKind.quiet : ExprKind → Bool
  | .arrayInit items => Expr.quietList items
  | .tableInit items => Expr.quietFields items
  | .index array key => array.quiet && key.quiet
  | .field object _ => object.quiet
  | .call callee args _ => callee.quiet && (Expr.quietList args && quietCall callee.ty args)
  | .unary _ operand => operand.quiet
  | .binary op left right => left.quiet && (right.quiet && quietOperands op left.ty right.ty)
  | .cast expr _ => expr.quiet
  | .toFloat expr => expr.quiet
  | .paren expr => expr.quiet
  | .expand call _ => call.quiet
  | _ => true

/-- Whether all expressions of a list are quiet. -/
def Expr.quietList : List Expr → Bool
  | [] => true
  | expr :: rest => expr.quiet && Expr.quietList rest

/-- Whether the values of all fields are quiet. -/
def Expr.quietFields : List (String × Expr) → Bool
  | [] => true
  | (_, expr) :: rest => expr.quiet && Expr.quietFields rest

end

/-- Whether the expressions in a target are quiet. -/
def Target.quiet : Target → Bool
  | .index array key _ => array.quiet && key.quiet
  | .field object _ _ => object.quiet
  | _ => true

/-- Whether the expressions behind `in` are quiet. -/
def Iteration.quiet : Iteration → Bool
  | .ipairs array => array.quiet
  | .generic values => Expr.quietList values

mutual

/-- Whether all expressions in the statement are quiet. -/
def Stmt.quiet : Stmt → Bool
  | .declare _ values _ => Expr.quietList values
  | .assign targets values _ => targets.all Target.quiet && Expr.quietList values
  | .call expr _ => expr.quiet
  | .block body _ => Stmt.quietList body
  | .whileDo condition body _ => condition.quiet && Stmt.quietList body
  | .repeatUntil body condition _ => Stmt.quietList body && condition.quiet
  | .branch condition thenBlock elseBlock _ =>
    condition.quiet && (Stmt.quietList thenBlock && Stmt.quietList elseBlock)
  | .numericFor _ start limit step body _ =>
    start.quiet && (limit.quiet && (step.quiet && Stmt.quietList body))
  | .genericFor _ iteration body _ => iteration.quiet && Stmt.quietList body
  | .ret values _ => Expr.quietList values
  | .brk _ => true

/-- Whether all statements of a block are quiet. -/
def Stmt.quietList : List Stmt → Bool
  | [] => true
  | stmt :: rest => stmt.quiet && Stmt.quietList rest

end

/-- Whether all expressions in the item are quiet. -/
def Item.quiet : Item → Bool
  | .var _ values _ => Expr.quietList values
  | .function decl => Stmt.quietList decl.body
  | .assign targets values _ => targets.all Target.quiet && Expr.quietList values
  | .record .. => true
  | .ret value _ => value.quiet

/-- Whether all items of the program are quiet. -/
def Program.quiet (program : Program) : Bool :=
  program.items.all Item.quiet

end Typed

/-! ### Faults about undeclared type names -/

/-- Whether the fault is about a type name that is not declared. -/
def Fault.isUndeclaredType (fault : Fault) : Bool :=
  match fault.cause with
  | .undeclaredType _ => true
  | _ => false

/-- The faults about the name `N` at the given places. -/
def undeclaredAt (N : String) (u : List Location) : List Fault :=
  u.map fun loc => ⟨.undeclaredType N, loc⟩

theorem undeclaredAt_append {N : String} {u v : List Location} :
    undeclaredAt N (u ++ v) = undeclaredAt N u ++ undeclaredAt N v :=
  List.map_append

namespace Report

variable {α β : Type} {N : String} {u v : List Location} {quiet quiet' : Bool}

/-- The faults about undeclared type names are those for `N` at the places `u`, and there are no
others exactly if `quiet` holds. -/
structure Shows (N : String) (u : List Location) (quiet : Bool) (report : Report α) : Prop where
  undeclared : report.faults.filter Fault.isUndeclaredType = undeclaredAt N u
  others : (report.faults.filter fun fault => !fault.isUndeclaredType) = [] ↔ quiet = true

theorem Shows.bind {first : Report α} {next : α → Report β} (h : first.Shows N u quiet)
    (h' : (next first.value).Shows N v quiet') :
    (first >>= next).Shows N (u ++ v) (quiet && quiet') where
  undeclared := by
    rw [faults_bind, List.filter_append, h.undeclared, h'.undeclared, undeclaredAt_append]
  others := by
    rw [faults_bind, List.filter_append, List.append_eq_nil_iff, h.others, h'.others,
      Bool.and_eq_true]

/-- Nothing is shown by a check without faults. -/
theorem Shows.of_faults_eq_nil {report : Report α} (h : report.faults = []) :
    report.Shows N [] true where
  undeclared := by rw [h]; rfl
  others := by rw [h]; simp

/-- A check that finds the undeclared name and nothing else. -/
theorem Shows.of_undeclaredAt {value : α} :
    (⟨value, undeclaredAt N u⟩ : Report α).Shows N u true where
  undeclared := List.filter_eq_self.mpr fun fault hmem => by
    obtain ⟨loc, -, rfl⟩ := List.mem_map.mp hmem
    rfl
  others := by
    refine iff_of_true (List.filter_eq_nil_iff.mpr fun fault hmem => ?_) rfl
    obtain ⟨loc, -, rfl⟩ := List.mem_map.mp hmem
    simp [Fault.isUndeclaredType]

theorem Shows.bind_silent {first : Report α} {next : α → Report β} (hf : first.faults = [])
    (h : (next first.value).Shows N u quiet) : (first >>= next).Shows N u quiet := by
  simpa using (Shows.of_faults_eq_nil hf).bind h

theorem Shows.bind_quiet {first : Report α} {next : α → Report β} (h : first.Shows N u quiet)
    (hn : (next first.value).Shows N [] quiet') :
    (first >>= next).Shows N u (quiet && quiet') := by
  simpa using h.bind hn

theorem Shows.bind_shown {first : Report α} {next : α → Report β} (h : first.Shows N u quiet)
    (hn : (next first.value).Shows N [] true) : (first >>= next).Shows N u quiet := by
  simpa using h.bind_quiet hn

theorem Shows.bind_after {first : Report α} {next : α → Report β} (h : first.Shows N u true)
    (hn : (next first.value).Shows N v quiet) : (first >>= next).Shows N (u ++ v) quiet := by
  simpa using h.bind hn

theorem Shows.bind_pure {first : Report α} {value : α → β} (h : first.Shows N u quiet) :
    (first >>= fun a => pure (value a)).Shows N u quiet where
  undeclared := by rw [faults_bind, faults_pure, List.append_nil, h.undeclared]
  others := by rw [faults_bind, faults_pure, List.append_nil, h.others]

/-- A rule that is broken exactly if it is not quiet. -/
theorem Shows.require {cause : Violation} {loc : Location}
    (h : Fault.isUndeclaredType ⟨cause, loc⟩ = false) :
    (Report.require quiet cause loc).Shows N [] quiet where
  undeclared := by cases quiet <;> simp [h, undeclaredAt]
  others := by cases quiet <;> simp [h]

theorem Shows.of_require {condition : Bool} {cause : Violation} {loc : Location}
    (h : condition = true) : (Report.require condition cause loc).Shows N [] true :=
  .of_faults_eq_nil (by simp [h])

end Report

end LuaTyping
