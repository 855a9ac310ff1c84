import LuaTyping.Proofs.Declarative.Judgement
import LuaTyping.Proofs.Typing.Inversion

/-!
# Annotations, operators and conversions

The parts of a check of an expression against their declarative rules.  An annotation resolves to
what it denotes (`resolve_yields_iff`).  Between types without `unknown`, a value is converted where
its type suits (`suits_iff_castable`), and an operator takes the operands that it joins
(`unary_yields_iff`, `binary_yields_iff`).
-/

namespace LuaTyping

/-! ### Annotations -/

namespace TypeExpr

variable {scopes : Scopes}

mutual

theorem resolve_yields_iff : ∀ {type : TypeExpr} {site : Location} {ty : Ty},
    (type.resolve scopes site).Yields ty ↔ type.Denotes scopes ty
  | .nil, _, ty | .boolean, _, ty | .integer, _, ty | .float, _, ty | .string, _, ty
  | .any, _, ty => by
    simp only [resolve, Report.yields_pure]
    constructor
    · rintro rfl
      constructor
    · intro h
      cases h
      rfl
  | .module, _, ty => by
    simp only [resolve, Report.yields_bind, Report.yields_fault, false_and, exists_false, false_iff]
    intro h
    cases h
  | .name text loc, _, ty => by
    rw [resolve, Report.yields_orUnknown]
    constructor
    · exact .name
    · intro h
      cases h with
      | name h => exact h
  | .array elem loc, _, ty => by
    simp only [resolve, Report.yields_bind, Report.yields_pure, resolve_yields_iff]
    constructor
    · rintro ⟨elem', he, rfl⟩
      exact .array he
    · intro h
      cases h with
      | array he => exact ⟨_, he, rfl⟩
  | .table fields loc, _, ty => by
    simp only [resolve, Report.yields_bind, Report.yields_pure, resolveFields_yields_iff]
    constructor
    · rintro ⟨_, ⟨map, hf, hn, -, rfl⟩, rfl⟩
      exact .table hf hn
    · intro h
      cases h with
      | table hf hn => exact ⟨_, ⟨_, hf, hn, by simp [NameMap.keys], rfl⟩, rfl⟩
  | .function params returns loc, _, ty => by
    simp only [resolve, Report.yields_bind, Report.yields_pure, resolveList_yields_iff]
    constructor
    · rintro ⟨tys, hp, tys', hr, rfl⟩
      exact .function hp hr
    · intro h
      cases h with
      | function hp hr => exact ⟨_, hp, _, hr, rfl⟩

theorem resolveList_yields_iff : ∀ {types : List TypeExpr} {site : Location} {tys : List Ty},
    (resolveList scopes types site).Yields tys ↔ ListDenotes scopes types tys
  | [], _, tys => by
    rw [resolveList, Report.yields_pure]
    constructor
    · rintro rfl
      exact .nil
    · intro h
      cases h
      rfl
  | type :: rest, site, tys => by
    simp only [resolveList, Report.yields_bind, Report.yields_pure, resolve_yields_iff,
      resolveList_yields_iff]
    constructor
    · rintro ⟨ty, ht, tys, hr, rfl⟩
      exact .cons ht hr
    · intro h
      cases h with
      | cons ht hr => exact ⟨_, ht, _, hr, rfl⟩

/-- The fields come behind those that are known, and bring new names. -/
theorem resolveFields_yields_iff : ∀ {fields : List TypeField} {known map : NameMap Ty},
    (resolveFields scopes fields known).Yields map ↔
      ∃ new : NameMap Ty, FieldsDenote scopes fields new ∧ new.keys.Nodup ∧
        (∀ key ∈ new.keys, key ∉ known.keys) ∧ map = known ++ new
  | [], known, map => by
    rw [resolveFields, Report.yields_pure]
    constructor
    · rintro rfl
      exact ⟨[], .nil, by simp [NameMap.keys], by simp [NameMap.keys], by simp⟩
    · rintro ⟨new, hf, -, -, rfl⟩
      cases hf
      simp
  | ⟨key, type, loc⟩ :: rest, known, map => by
    simp only [resolveFields, Report.yields_bind, resolve_yields_iff]
    by_cases hc : known.contains key = true
    · -- a name that is taken is a fault, and no entry may have it
      simp only [if_pos hc, Report.yields_bind, Report.yields_fault, false_and, exists_false,
        and_false, false_iff]
      rintro ⟨new, hf, -, hnew, -⟩
      cases hf with
      | cons ht hf =>
        refine hnew key (by simp [NameMap.keys]) ?_
        rw [NameMap.contains, Option.isSome_iff_ne_none, ne_eq, NameMap.lookup_eq_none_iff,
          not_not] at hc
        exact hc
    · have hfresh : known.lookup key = none := by
        rwa [NameMap.contains, Bool.not_eq_true, Option.isSome_eq_false_iff,
          Option.isNone_iff_eq_none] at hc
      have hkey : key ∉ known.keys := NameMap.lookup_eq_none_iff.mp hfresh
      simp only [if_neg hc, NameMap.insert_eq_append hfresh, resolveFields_yields_iff]
      constructor
      · rintro ⟨ty, ht, new, hf, hn, hnew, rfl⟩
        simp only [NameMap.keys, List.map_append, List.map_cons, List.map_nil, List.mem_append,
          List.mem_singleton, not_or] at hnew
        refine ⟨(key, ty) :: new, .cons ht hf, ?_, ?_, by simp⟩
        · exact List.nodup_cons.mpr ⟨fun hmem => (hnew key hmem).2 rfl, hn⟩
        · exact List.forall_mem_cons.mpr ⟨hkey, fun other hmem => (hnew other hmem).1⟩
      · rintro ⟨_, hf, hn, hnew, rfl⟩
        cases hf with
        | @cons _ _ _ _ ty new ht hf =>
          obtain ⟨hnot, hn⟩ := List.nodup_cons.mp hn
          obtain ⟨-, hnew⟩ := List.forall_mem_cons.mp hnew
          refine ⟨ty, ht, new, hf, hn, fun other hmem hother => ?_, by simp⟩
          simp only [NameMap.keys, List.map_append, List.map_cons, List.map_nil, List.mem_append,
            List.mem_singleton] at hother
          rcases hother with hold | rfl
          · exact hnew other hmem hold
          · exact hnot hmem

end

end TypeExpr

/-! ### Conversions -/

theorem Ty.suits_iff_castable {found wanted : Ty} (hf : found.proper true = true)
    (hw : wanted.proper true = true) : found.Suits wanted ↔ found.castable wanted = true := by
  rw [Suits, castable, compatible_eq_same hf hw, Bool.or_eq_true, Bool.or_eq_true, isAny_iff,
    isAny_iff, or_assoc]

/-! ### Operators -/

namespace Typed.Expr

variable {left right operand : Expr} {loc : Location} {ty : Ty}

/-- A unary operation finds nothing wrong if its operator takes the operand. -/
theorem unary_yields_iff {op : UnaryOp} (hk : operand.ty.isUnknown = false) :
    (∃ t, (unary op operand loc).Yields t ∧ t.ty = ty) ↔ op.Types operand.ty ty := by
  rw [← UnaryOp.result?_eq_some_iff hk, unary]
  cases op.result? operand.ty with
  | none => simp
  | some found => simp

end Typed.Expr

/-! ### Binary operators -/

/-- Two numbers are of one type or mixed. -/
theorem Ty.same_or_mixed {left right : Ty} (hl : left.isNumeric = true)
    (hr : right.isNumeric = true) : left.same right = true ∨ left.mixed right = true := by
  rcases isNumeric_iff.mp hl with rfl | rfl <;> rcases isNumeric_iff.mp hr with rfl | rfl
  · exact Or.inl rfl
  · exact Or.inr rfl
  · exact Or.inr rfl
  · exact Or.inl rfl

namespace BinaryOp

variable {op : BinaryOp} {left right ty : Ty}

theorem Joins.unique {ty' : Ty} (h : op.Joins left right ty) (h' : op.Joins left right ty') :
    ty = ty' := by
  cases h <;> cases h' <;> simp_all

/-- An operator takes the operands that it joins. -/
theorem Joins.takes (h : op.Joins left right ty) :
    op.family.takes left = true ∧ op.family.takes right = true := by
  cases h with
  | integers hf | bitwise hf | logical hf => rw [hf]; exact ⟨rfl, rfl⟩
  | floats hf hl hr _ | division hf hl hr => rw [hf]; exact ⟨hl, hr⟩
  | concat hf hl hr =>
    rw [hf]
    simpa only [Family.takes, Bool.or_eq_true, Ty.isString_iff] using And.intro hl hr
  | equality hf _ | ordering hf _ => rw [hf]; exact ⟨rfl, rfl⟩

theorem joins_of_comparable (hop : op.family = .equality ∨ op.family = .ordering)
    (hl : left.isUnknown = false) (hr : right.isUnknown = false)
    (h : Ty.comparable op.family left right = true) : op.Joins left right .boolean := by
  simp only [Ty.comparable, hl, hr, Bool.false_or, Bool.or_eq_true] at h
  rcases hop with hop | hop
  · refine .equality hop (h.symm.imp (by rw [hop]; exact id) Ty.isNumeric_of_mixed)
  · refine .ordering hop ?_
    rcases h with h | h
    · exact Or.inr (Ty.isNumeric_of_mixed h)
    · simp only [hop, Bool.or_eq_true, Bool.and_eq_true, Ty.isString_iff] at h
      exact h.symm

theorem Joins.comparable (hop : op.family = .equality ∨ op.family = .ordering)
    (h : op.Joins left right ty) : Ty.comparable op.family left right = true ∧ ty = .boolean := by
  cases h with
  | equality hf hsame =>
    refine ⟨?_, rfl⟩
    rw [hf, Ty.comparable, Bool.or_eq_true]
    rcases hsame with hsame | ⟨hl, hr⟩
    · exact Or.inr hsame
    · rcases Ty.same_or_mixed hl hr with hsame | hmixed
      · exact Or.inr hsame
      · exact Or.inl (by rw [hmixed, Bool.or_true])
  | ordering hf hsides =>
    refine ⟨?_, rfl⟩
    simp only [hf, Ty.comparable, Bool.or_eq_true, Bool.and_eq_true, Ty.isString_iff]
    exact Or.inr hsides.symm
  | integers hf | bitwise hf | logical hf | floats hf | division hf | concat hf =>
    rw [hf] at hop
    simp at hop

end BinaryOp

namespace Typed.Expr

variable {left right : Expr} {loc : Location} {ty : Ty} {op : BinaryOp}

theorem operation_joins (hop : ¬(op.family = .equality ∨ op.family = .ordering))
    (hl : op.family.takes left.ty = true) (hr : op.family.takes right.ty = true) :
    op.Joins left.ty right.ty (operation op left right loc).ty := by
  unfold operation
  cases hf : op.family with
  | arithmetic =>
    rw [hf] at hl hr
    dsimp only
    split_ifs with hi
    · simp only [Bool.and_eq_true, Ty.isInteger_iff] at hi
      rw [hi.1, hi.2]
      exact .integers hf
    · refine .floats hf hl hr ?_
      rcases Ty.isNumeric_iff.mp hl with hl | hl
      · rcases Ty.isNumeric_iff.mp hr with hr | hr
        · exact absurd (by simp [hl, hr, Ty.isInteger]) hi
        · exact Or.inr hr
      · exact Or.inl hl
  | floatArithmetic =>
    rw [hf] at hl hr
    exact .division hf hl hr
  | bitwise =>
    rw [hf] at hl hr
    rw [Ty.isInteger_iff.mp hl, Ty.isInteger_iff.mp hr]
    exact .bitwise hf
  | logical =>
    rw [hf] at hl hr
    rw [Ty.isBoolean_iff.mp hl, Ty.isBoolean_iff.mp hr]
    exact .logical hf
  | concat =>
    rw [hf] at hl hr
    simp only [BinaryOp.Family.takes, Bool.or_eq_true, Ty.isString_iff] at hl hr
    exact .concat hf hl hr
  | equality => exact absurd (Or.inl hf) hop
  | ordering => exact absurd (Or.inr hf) hop

theorem comparison_ty (t : Expr) (h : (comparison op left right loc).Yields t) :
    t.ty = .boolean := by
  simp only [comparison, Report.yields_bind] at h
  obtain ⟨_, -, h⟩ := h
  split_ifs at h <;> rw [Report.yields_pure.mp h]

theorem exists_comparison (loc : Location)
    (h : Ty.comparable op.family left.ty right.ty = true) :
    ∃ t, (comparison op left right loc).Yields t := by
  refine ⟨_, Report.yields_value ?_⟩
  simp only [comparison, Report.faults_bind, Report.faults_require, h, if_true, List.nil_append]
  split_ifs <;> rfl

/-- A binary operation finds nothing wrong if its operator joins the operands. -/
theorem binary_yields_iff (hl : left.ty.isUnknown = false) (hr : right.ty.isUnknown = false) :
    (∃ t, (binary op left right loc).Yields t ∧ t.ty = ty) ↔ op.Joins left.ty right.ty ty := by
  simp only [binary, requireOperand, hl, hr, Bool.false_or, Report.yields_bind,
    Report.yields_require, isOperand, Bool.not_false, Bool.true_and]
  constructor
  · rintro ⟨t, ⟨_, htl, _, htr, h⟩, rfl⟩
    by_cases hop : op.family = .equality ∨ op.family = .ordering
    · rw [if_pos hop] at h
      rw [comparison_ty t h]
      simp only [comparison, Report.yields_bind, Report.yields_require] at h
      obtain ⟨_, hc, -⟩ := h
      exact BinaryOp.joins_of_comparable hop hl hr hc
    · rw [if_neg hop, if_pos (by rw [htl, htr]; rfl), Report.yields_pure] at h
      rw [h]
      exact operation_joins hop htl htr
  · intro h
    obtain ⟨htl, htr⟩ := h.takes
    by_cases hop : op.family = .equality ∨ op.family = .ordering
    · obtain ⟨hc, rfl⟩ := h.comparable hop
      obtain ⟨t, ht⟩ := exists_comparison loc hc
      exact ⟨t, ⟨(), htl, (), htr, by rwa [if_pos hop]⟩, comparison_ty t ht⟩
    · refine ⟨operation op left right loc, ⟨(), htl, (), htr, ?_⟩,
        (operation_joins hop htl htr).unique h⟩
      rw [if_neg hop, if_pos (by rw [htl, htr]; rfl), Report.yields_pure]

end Typed.Expr

end LuaTyping
