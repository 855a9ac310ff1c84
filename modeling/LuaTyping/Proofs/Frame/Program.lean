import LuaTyping.Proofs.Frame.Stmt

/-!
# Function bodies are checked on their own

A function changes its context only by the name or the module field under which it is declared
(`Context.function_binds`): its body is typed in layers that are closed behind it.  So the body of a
function can be replaced without any effect on the items around it.  `walk_replace_body` gives the
outcome of a program as a function of one body: the other items are typed as before, and the faults
differ only in the segment of the function itself.
-/

namespace LuaTyping

variable {Γ : Context} {options : Options} {loc : Location}

namespace Context

/-! ### Functions -/

/-- What the declaration of a function changes: nothing if it is refused, and otherwise what its name
stands for. -/
inductive Binds (Γ : Context) : Source.FunctionName → Context → Prop
  | refused {name : Source.FunctionName} : Binds Γ name Γ
  | plain {name : String} {binding : Binding} {scopes : Scopes} :
      Γ.scopes.declare name binding = .ok scopes → Binds Γ (.plain name) { Γ with scopes := scopes }
  | member {module field : String} {ty : Ty} {loc : Location} {draft : ModuleDraft} :
      Γ.module.declareField field ty loc = .ok draft →
        Binds Γ (.member module field) { Γ with module := draft }

theorem declareField_binds {module field : String} {ty : Ty} :
    Γ.Binds (.member module field) (Γ.declareField options field ty loc).value := by
  simp only [declareField, Report.value_bind]
  split
  · next draft h => exact .member h
  · exact .refused

theorem declareFunction_binds {name : Source.FunctionName} {ty : Ty} :
    Γ.Binds name (declareFunction options Γ name ty loc).value := by
  cases name with
  | plain name =>
    simp only [declareFunction, Context.declare]
    split
    · next scopes h => exact .plain h
    · exact .refused
  | member module field =>
    simp only [declareFunction]
    split
    · exact declareField_binds
    · cases Γ.scopes.lookup module <;> exact .refused

/-- **Functions change only what their own name stands for.** -/
theorem function_binds {decl : Source.Function} :
    Γ.Binds decl.name (function options Γ decl).value.2 :=
  declareFunction_binds

/-- The context behind the body of a function, before its layer is closed. -/
def bodyContext (Γ : Context) (params : List Typed.Decl) (returns : List Ty)
    (body : Source.Block) : Context :=
  (Source.Stmt.checkBlock (declareAll .inner params (Γ.enterFunction returns)).value body).value.2

/-- Once its layer is closed, only the signature of a function is left of its body. -/
theorem bodyContext_exit {params : List Typed.Decl} {returns : List Ty} {body : Source.Block} :
    (Γ.bodyContext params returns body).exit = { Γ with returns := returns, inLoop := false } := by
  have hparams : (Γ.enterFunction returns).Frames
      (declareAll .inner params (Γ.enterFunction returns)).value :=
    declareAll_frames (List.cons_ne_nil _ _)
  exact (hparams.trans (Source.Stmt.checkBlock_frames hparams.inner_ne_nil)).exit_eq

end Context

namespace Source

/-! ### Replaced bodies -/

/-- A function whose body is replaced is declared as before. -/
theorem Item.check_replace_body (options : Options) (Γ : Context) (decl : Function) :
    ∃ (typed : Typed.Function) (Δ : Context), ∀ body, ∃ block,
      ((Item.function { decl with body := body }).check options Γ).value =
        (some (.function { typed with body := block }), Δ) := by
  let params := (decl.params.mapM Γ.param).value
  let returns := (TypeExpr.resolveList Γ.scopes decl.returns decl.loc).value
  let ty := Ty.function (params.map (·.ty)) returns
  let Δ := (Context.declareFunction options Γ decl.name ty decl.loc).value
  exact ⟨⟨decl.name, params, ty, [], decl.loc⟩, Δ, fun body =>
    ⟨(Δ.functionBody params returns body decl.loc).value, rfl⟩⟩

/-- What an item adds to the items behind it. -/
theorem checkItems_cons (item : Item) (rest : List Item) :
    checkItems options Γ (item :: rest) =
      ⟨((item.check options Γ).value.1.toList ++
          (checkItems options (item.check options Γ).value.2 rest).value.1,
          (checkItems options (item.check options Γ).value.2 rest).value.2),
        (Report.require (!item.isReturn || rest.isEmpty) .returnNotLast item.loc).faults ++
          ((item.check options Γ).faults ++
            (checkItems options (item.check options Γ).value.2 rest).faults)⟩ := by
  rw [checkItems]
  simp only [Bind.bind, Report.bind, Pure.pure, Report.pure, List.append_nil]

/-- **Items around a function whose body is replaced.** -/
theorem checkItems_replace_body (options : Options) (decl : Function) (after : List Item) :
    ∀ (before : List Item) (Γ : Context),
      ∃ (first last : List Typed.Item) (typed : Typed.Function) (Θ : Context)
        (earlier later : List Fault), ∀ body, ∃ block,
          checkItems options Γ (before ++ .function { decl with body := body } :: after) =
            ⟨(first ++ .function { typed with body := block } :: last, Θ),
              earlier ++ ((Item.function { decl with body := body }).check options
                (checkItems options Γ before).value.2).faults ++ later⟩
  | [], Γ => by
    obtain ⟨typed, Δ, h⟩ := Item.check_replace_body options Γ decl
    refine ⟨[], (checkItems options Δ after).value.1, typed,
      (checkItems options Δ after).value.2, [], (checkItems options Δ after).faults,
      fun body => ?_⟩
    obtain ⟨block, hbody⟩ := h body
    refine ⟨block, ?_⟩
    rw [List.nil_append, checkItems_cons, hbody]
    rfl
  | item :: before, Γ => by
    obtain ⟨first, last, typed, Θ, earlier, later, h⟩ :=
      checkItems_replace_body options decl after before (item.check options Γ).value.2
    refine ⟨(item.check options Γ).value.1.toList ++ first, last, typed, Θ,
      (Report.require (!item.isReturn) .returnNotLast item.loc).faults ++
        ((item.check options Γ).faults ++ earlier), later, fun body => ?_⟩
    obtain ⟨block, hbody⟩ := h body
    refine ⟨block, ?_⟩
    have hrest : (before ++ .function { decl with body := body } :: after).isEmpty = false := by
      simp
    rw [List.cons_append, checkItems_cons, hbody, hrest, Bool.or_false, checkItems_cons]
    simp only [List.append_assoc]

/-- What the end of a program looks at: whether its last item is a `return`, and where items stand. -/
def Item.mark (item : Item) : Bool × Location :=
  (item.isReturn, item.loc)

theorem Item.mark_getLastD {rest : List Item} {first : Item} :
    (rest.getLastD first).mark = (rest.map Item.mark).getLastD first.mark := by
  rw [List.getLastD_eq_getLast?, List.getLastD_eq_getLast?, List.getLast?_map]
  cases rest.getLast? <;> rfl

namespace Program

variable {builtins : Builtins}

/-- The faults about the program as a whole, behind those of its items. -/
def closing (hasModule : Bool) (first : Location) (last : Bool × Location) : List Fault :=
  (Report.require hasModule .noModuleVariable first).faults ++
    (Report.require last.1 .missingModuleReturn last.2).faults

theorem walk_cons {first : Item} {rest : List Item} {typeRegions commentRegions : List Span} :
    walk builtins options ⟨first :: rest, typeRegions, commentRegions⟩ =
      ⟨(checkItems options (.start builtins) (first :: rest)).value,
        (checkItems options (.start builtins) (first :: rest)).faults ++
          closing (checkItems options (.start builtins) (first :: rest)).value.2.module.var.isSome
            first.loc ((rest.map Item.mark).getLastD first.mark)⟩ := by
  rw [← Item.mark_getLastD]
  simp only [walk, Bind.bind, Report.bind, Pure.pure, Report.pure, List.append_nil]
  rfl

/-- **A program whose function body is replaced.**  Whatever the body, the other items are typed in
the same way, and the faults differ only in the segment of the function. -/
theorem walk_replace_body (builtins : Builtins) (options : Options) (before after : List Item)
    (decl : Function) :
    ∃ (first last : List Typed.Item) (typed : Typed.Function) (Θ : Context)
      (earlier later : List Fault), ∀ body typeRegions commentRegions, ∃ block,
        walk builtins options ⟨before ++ .function { decl with body := body } :: after, typeRegions,
            commentRegions⟩ =
          ⟨(first ++ .function { typed with body := block } :: last, Θ),
            earlier ++ ((Item.function { decl with body := body }).check options
              (checkItems options (.start builtins) before).value.2).faults ++ later⟩ := by
  obtain ⟨first, last, typed, Θ, earlier, later, h⟩ :=
    checkItems_replace_body options decl after before (.start builtins)
  cases before with
  | nil =>
    refine ⟨first, last, typed, Θ, earlier, later ++ closing Θ.module.var.isSome decl.loc
      ((after.map Item.mark).getLastD (false, decl.loc)), fun body _ _ => ?_⟩
    obtain ⟨block, hbody⟩ := h body
    refine ⟨block, ?_⟩
    rw [List.nil_append] at hbody ⊢
    rw [walk_cons, hbody, ← List.append_assoc]
    rfl
  | cons item before =>
    refine ⟨first, last, typed, Θ, earlier, later ++ closing Θ.module.var.isSome item.loc
      ((before.map Item.mark ++ (false, decl.loc) :: after.map Item.mark).getLastD item.mark),
      fun body _ _ => ?_⟩
    obtain ⟨block, hbody⟩ := h body
    refine ⟨block, ?_⟩
    rw [List.cons_append] at hbody ⊢
    rw [walk_cons, hbody, ← List.append_assoc, List.map_append, List.map_cons]
    rfl

end Program

end Source

end LuaTyping
