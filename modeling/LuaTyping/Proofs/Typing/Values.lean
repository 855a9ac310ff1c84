import LuaTyping.Proofs.Typing.Inversion

/-!
# The values of a checked expression

An expression other than a call has one value, whatever is in sight and whatever is wrong with it
(`check_valueTypes`).  A call has the values that its callee returns, and its type is that of the
first (`check_headed`).
-/

namespace LuaTyping

namespace Typed.Expr

/-- If the expression has values, its type is that of the first. -/
def Headed (expr : Expr) : Prop :=
  ∀ ty ∈ expr.valueTypes.head?, ty = expr.ty

theorem Headed.of_valueTypes {expr : Expr} (h : expr.valueTypes = [expr.ty]) : expr.Headed := by
  simp [Headed, h]

/-- An expression with one value of a type has that type. -/
theorem Headed.ty_eq {expr : Expr} {ty : Ty} (h : expr.Headed) (hty : expr.valueTypes = [ty]) :
    expr.ty = ty := by
  rw [Headed, hty] at h
  exact (h ty rfl).symm

theorem valueTypes_of_kind_binary {expr left right : Expr} {op : BinaryOp}
    (h : expr.kind = .binary op left right) : expr.valueTypes = [expr.ty] := by
  rw [valueTypes, h]

theorem valueTypes_unary (op : UnaryOp) (operand : Expr) (loc : Location) :
    (unary op operand loc).value.valueTypes = [(unary op operand loc).value.ty] := by
  rw [valueTypes, unary_kind]

theorem valueTypes_binary (op : BinaryOp) (left right : Expr) (loc : Location) :
    (binary op left right loc).value.valueTypes = [(binary op left right loc).value.ty] := by
  obtain ⟨_, _, hkind, -⟩ := binary_kind op left right loc
  exact valueTypes_of_kind_binary hkind

end Typed.Expr

theorem Demand.valueTypes_settle (demand : Demand) {expr : Typed.Expr}
    (h : expr.valueTypes = [expr.ty]) :
    (demand.settle expr).value.valueTypes = [(demand.settle expr).value.ty] := by
  have hsingle : expr.single = pure expr := by
    unfold Typed.Expr.single
    split
    · next hkind => simp [Typed.Expr.valueTypes, hkind] at h
    · rfl
  cases demand with
  | results => exact h
  | value =>
    rw [settle, hsingle]
    exact h
  | ofType want =>
    simp only [settle, hsingle, pure_bind, Typed.Expr.coerce]
    split
    · exact h
    · split
      · rfl
      · exact h

theorem Context.valueTypes_nameExpr (Γ : Context) (name : String) (loc : Location) :
    (Γ.nameExpr name loc).value.valueTypes = [(Γ.nameExpr name loc).value.ty] := by
  unfold nameExpr
  split <;> rfl

theorem Context.valueTypes_fieldExpr (Γ : Context) (object : Typed.Expr) (field : String)
    (loc : Location) :
    (Γ.fieldExpr object field loc).value.valueTypes =
      [(Γ.fieldExpr object field loc).value.ty] := by
  unfold fieldExpr
  split <;> rfl

namespace Source.Expr

/-- **An expression other than a call has one value.** -/
theorem check_valueTypes (Γ : Context) {expr : Source.Expr} (demand : Demand)
    (h : expr.isCall = false) :
    (check Γ expr demand).value.valueTypes = [(check Γ expr demand).value.ty] := by
  cases expr with
  | call => cases h
  | init entries loc =>
    cases demand with
    | ofType want =>
      obtain ⟨target, site⟩ := want
      cases target <;> simp only [check] <;> rfl
    | _ => simp only [check]; rfl
  | name text loc =>
    simp only [check, Report.value_bind]
    exact demand.valueTypes_settle (Γ.valueTypes_nameExpr text loc)
  | field object key loc =>
    simp only [check]
    split <;> simp only [Report.value_bind]
    · exact demand.valueTypes_settle rfl
    · exact demand.valueTypes_settle (Γ.valueTypes_fieldExpr _ key loc)
  | unary op operand loc =>
    simp only [check, Report.value_bind]
    exact demand.valueTypes_settle (Typed.Expr.valueTypes_unary op _ loc)
  | binary left op right loc =>
    simp only [check, Report.value_bind]
    exact demand.valueTypes_settle (Typed.Expr.valueTypes_binary op _ _ loc)
  | _ =>
    simp only [check, Report.value_bind]
    exact demand.valueTypes_settle rfl

theorem valueTypes_of_not_isCall {Γ : Context} {expr : Source.Expr} {demand : Demand}
    {t : Typed.Expr} (hc : expr.isCall = false) (h : (check Γ expr demand).Yields t) :
    t.valueTypes = [t.ty] := by
  rw [← h.value_eq]
  exact check_valueTypes Γ demand hc

/-- A call has the type of its first result. -/
theorem check_call_headed (Γ : Context) {expr : Source.Expr} (h : expr.isCall = true) :
    (check Γ expr .results).value.Headed := by
  cases expr <;> simp only [isCall, Bool.false_eq_true] at h
  simp only [check, Report.value_bind]
  split <;> simp only [Report.value_bind, Demand.settle, Report.value_pure]
  · next params returns _ =>
    cases returns <;> simp [Typed.Expr.Headed, Typed.Expr.valueTypes]
  · simp [Typed.Expr.Headed, Typed.Expr.valueTypes]

/-- **The type of a checked expression is that of its first value.** -/
theorem check_headed {Γ : Context} {expr : Source.Expr} {demand : Demand} {t : Typed.Expr}
    (h : (check Γ expr demand).Yields t) : t.Headed := by
  cases hc : expr.isCall with
  | false => exact .of_valueTypes (valueTypes_of_not_isCall hc h)
  | true =>
    have hi : expr.isInit = false := by
      cases expr <;> simp only [isCall, Bool.false_eq_true] at hc
      rfl
    obtain ⟨found, hf, hs⟩ := (check_yields_iff hi).mp h
    rcases hs.eq_or_cast with rfl | ⟨want, rfl, rfl⟩
    · rw [← hf.value_eq]
      exact check_call_headed Γ hc
    · exact .of_valueTypes rfl

end Source.Expr

end LuaTyping
