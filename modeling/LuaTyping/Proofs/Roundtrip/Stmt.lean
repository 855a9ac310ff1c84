import LuaTyping.Proofs.Roundtrip.Expr

/-!
# Statements in JSON

The JSON values that stand for declarations and statements, and how they are read.  The optional
members of a statement are missing, null or there; the block of an `else` is the one of them that
the recursion goes through (`readElse_of_found`).
-/

namespace LuaTyping

open Json

/-! ### Spans and declarations -/

namespace Span

/-- The JSON values that stand for the span. -/
def Written (span : Span) : Json → Prop :=
  IsRecord [.required "start" (· = .ofUInt64 span.start), .required "end" (· = .ofUInt64 span.stop)]

theorem toJson_written (span : Span) : span.Written span.toJson :=
  .of_fills (.keep rfl (.keep rfl .nil))

theorem ofJson?_of_written (span : Span) (json : Json) (h : span.Written json) :
    ofJson? json = some span := by
  obtain ⟨fields, rfl, hstart, hstop, -⟩ := h.found (by decide : ["start", "end"].Nodup)
  simp [ofJson?, record?, hstart.exact uint64? (uint64?_ofUInt64 _),
    hstop.exact uint64? (uint64?_ofUInt64 _)]

end Span

namespace Source

namespace Decl

/-- The JSON values that stand for the declared name. -/
def Written (decl : Decl) : Json → Prop :=
  IsRecord [.required "name" (· = .string decl.name),
    ⟨"type", IsOption TypeExpr.Written decl.type, decl.type = none⟩, decl.loc.member]

theorem toJson_written (decl : Decl) : decl.Written decl.toJson :=
  .of_fills (.keep rfl (.keep (isOption_ofOption TypeExpr.toJson_written decl.type)
    (.keep decl.loc.toJson_written .nil)))

theorem ofJson?_of_written (decl : Decl) (json : Json) (h : decl.Written json) :
    ofJson? json = some decl := by
  obtain ⟨fields, rfl, hname, htype, hloc, -⟩ := h.found (by decide : ["name", "type", "loc"].Nodup)
  have htype := htype.optional rfl TypeExpr.ofJson?_of_written
  simp [ofJson?, record?, hname.exact string? rfl, htype, decl.loc.locField_of_found hloc]

/-- The JSON values that stand for the declarations. -/
def AllWritten (decls : List Decl) : Json → Prop :=
  IsArray (Each Written decls)

theorem declsToJson_written (decls : List Decl) : AllWritten decls (declsToJson decls) :=
  ⟨_, rfl, each_map toJson_written decls⟩

theorem list?_of_written {decls : List Decl} {json : Json} (h : AllWritten decls json) :
    list? ofJson? json = some decls :=
  (itemByItem_each Written).list?_eq ofJson?_of_written h

end Decl

/-! ### Statements -/

namespace Stmt

mutual

/-- The JSON values that stand for the statement. -/
def Written : Stmt → Json → Prop
  | .declare decls values loc, json =>
    json.IsVariant "Local" [.required "decls" (Decl.AllWritten decls),
      ⟨"values", Expr.AllWritten values, values = []⟩, loc.member]
  | .assign targets values loc, json =>
    json.IsVariant "Assign" [.required "targets" (Expr.AllWritten targets),
      .required "values" (Expr.AllWritten values), loc.member]
  | .call expr loc, json => json.IsVariant "Call" [.required "call" expr.Written, loc.member]
  | .block body loc, json =>
    json.IsVariant "Do" [.required "body" (IsArray (BlockWritten body)), loc.member]
  | .whileDo condition body loc, json =>
    json.IsVariant "While" [.required "condition" condition.Written,
      .required "body" (IsArray (BlockWritten body)), loc.member]
  | .repeatUntil body condition loc, json =>
    json.IsVariant "Repeat" [.required "body" (IsArray (BlockWritten body)),
      .required "condition" condition.Written, loc.member]
  | .branch condition thenBlock arms elseBlock loc, json =>
    json.IsVariant "If" [.required "condition" condition.Written,
      .required "then_block" (IsArray (BlockWritten thenBlock)),
      ⟨"elseif_blocks", IsArray (ArmsWritten arms), arms = []⟩,
      ⟨"else_block", ElseWritten elseBlock, elseBlock = none⟩, loc.member]
  | .numericFor decl start limit step body loc, json =>
    json.IsVariant "ForNum" [.required "decl" decl.Written, .required "start" start.Written,
      .required "limit" limit.Written, ⟨"step", IsOption Expr.Written step, step = none⟩,
      .required "body" (IsArray (BlockWritten body)), loc.member]
  | .genericFor decls values body loc, json =>
    json.IsVariant "ForIn" [.required "decls" (Decl.AllWritten decls),
      .required "values" (Expr.AllWritten values),
      .required "body" (IsArray (BlockWritten body)), loc.member]
  | .ret values loc, json =>
    json.IsVariant "Return" [.required "values" (Expr.AllWritten values), loc.member]
  | .brk loc, json => json.IsVariant "Break" [loc.member]

/-- The lists of JSON values that stand for the statements. -/
def BlockWritten : List Stmt → List Json → Prop
  | [], jsons => jsons = []
  | stmt :: rest, jsons =>
    ∃ first others, jsons = first :: others ∧ Written stmt first ∧ BlockWritten rest others

/-- The lists of JSON values that stand for the `elseif`s: pairs of a condition and a block. -/
def ArmsWritten : List Arm → List Json → Prop
  | [], jsons => jsons = []
  | ⟨condition, body⟩ :: rest, jsons =>
    ∃ first second others, jsons = .array [first, second] :: others ∧ condition.Written first ∧
      second.IsArray (BlockWritten body) ∧ ArmsWritten rest others

/-- The JSON values that stand for the block of an `else`. -/
def ElseWritten : Option (List Stmt) → Json → Prop
  | none, json => json = .null
  | some body, json => json.IsArray (BlockWritten body)

end

mutual

/-- The canonical form stands for the statement. -/
theorem toJson_written : ∀ stmt : Stmt, Written stmt stmt.toJson
  | .declare decls values loc =>
    .of_fills (.keep (Decl.declsToJson_written decls) (.keep (Expr.exprsToJson_written values)
      (.keep loc.toJson_written .nil)))
  | .assign targets values loc =>
    .of_fills (.keep (Expr.exprsToJson_written targets) (.keep (Expr.exprsToJson_written values)
      (.keep loc.toJson_written .nil)))
  | .call expr loc => .of_fills (.keep expr.toJson_written (.keep loc.toJson_written .nil))
  | .block body loc =>
    .of_fills (.keep ⟨_, rfl, blockToJson_written body⟩ (.keep loc.toJson_written .nil))
  | .whileDo condition body loc =>
    .of_fills (.keep condition.toJson_written (.keep ⟨_, rfl, blockToJson_written body⟩
      (.keep loc.toJson_written .nil)))
  | .repeatUntil body condition loc =>
    .of_fills (.keep ⟨_, rfl, blockToJson_written body⟩ (.keep condition.toJson_written
      (.keep loc.toJson_written .nil)))
  | .branch condition thenBlock arms elseBlock loc =>
    .of_fills (.keep condition.toJson_written (.keep ⟨_, rfl, blockToJson_written thenBlock⟩
      (.keep ⟨_, rfl, armsToJson_written arms⟩ (.keep (elseToJson_written elseBlock)
        (.keep loc.toJson_written .nil)))))
  | .numericFor decl start limit step body loc =>
    .of_fills (.keep decl.toJson_written (.keep start.toJson_written (.keep limit.toJson_written
      (.keep (isOption_ofOption Expr.toJson_written step) (.keep ⟨_, rfl, blockToJson_written body⟩
        (.keep loc.toJson_written .nil))))))
  | .genericFor decls values body loc =>
    .of_fills (.keep (Decl.declsToJson_written decls) (.keep (Expr.exprsToJson_written values)
      (.keep ⟨_, rfl, blockToJson_written body⟩ (.keep loc.toJson_written .nil))))
  | .ret values loc =>
    .of_fills (.keep (Expr.exprsToJson_written values) (.keep loc.toJson_written .nil))
  | .brk loc => .of_fills (.keep loc.toJson_written .nil)

theorem blockToJson_written : ∀ stmts : List Stmt, BlockWritten stmts (blockToJson stmts)
  | [] => rfl
  | stmt :: rest => ⟨_, _, rfl, toJson_written stmt, blockToJson_written rest⟩

theorem armsToJson_written : ∀ arms : List Arm, ArmsWritten arms (armsToJson arms)
  | [] => rfl
  | ⟨condition, body⟩ :: rest =>
    ⟨_, _, _, rfl, condition.toJson_written, ⟨_, rfl, blockToJson_written body⟩,
      armsToJson_written rest⟩

theorem elseToJson_written : ∀ body : Option (List Stmt), ElseWritten body (elseToJson body)
  | none => rfl
  | some body => ⟨_, rfl, blockToJson_written body⟩

end

mutual

/-- **Every value that stands for a statement is read as it.** -/
theorem read_of_written : ∀ {stmt : Stmt} {json : Json} {fuel : Nat}, Written stmt json →
    json.depth < fuel → Stmt.read fuel json = some stmt
  | _, _, 0, _, hfuel => absurd hfuel (Nat.not_lt_zero _)
  | .declare decls values loc, _, fuel + 1, h, _ => by
    obtain ⟨fields, rfl, hdecls, hvalues, hloc, -⟩ :=
      h.found (by decide : ["decls", "values", "loc"].Nodup)
    have hdecls := hdecls.required fun _ hjson _ => Decl.list?_of_written hjson
    have hvalues := hvalues.defaulted fun _ hjson _ => Expr.list?_of_written hjson
    simp [Stmt.read, hdecls, hvalues, loc.locField_of_found hloc]
  | .assign targets values loc, _, fuel + 1, h, _ => by
    obtain ⟨fields, rfl, htargets, hvalues, hloc, -⟩ :=
      h.found (by decide : ["targets", "values", "loc"].Nodup)
    have htargets := htargets.required fun _ hjson _ => Expr.list?_of_written hjson
    have hvalues := hvalues.required fun _ hjson _ => Expr.list?_of_written hjson
    simp [Stmt.read, htargets, hvalues, loc.locField_of_found hloc]
  | .call expr loc, _, fuel + 1, h, _ => by
    obtain ⟨fields, rfl, hexpr, hloc, -⟩ := h.found (by decide : ["call", "loc"].Nodup)
    have hexpr := hexpr.required fun _ hjson _ => Expr.ofJson?_of_written _ _ hjson
    simp [Stmt.read, hexpr, loc.locField_of_found hloc]
  | .block body loc, _, fuel + 1, h, hfuel => by
    obtain ⟨fields, rfl, hbody, hloc, -⟩ := h.found (by decide : ["body", "loc"].Nodup)
    have hdepth := depth_of_tagged hfuel
    have hbody := hbody.required fun _ hjson hlt =>
      hjson.list?_eq (Nat.lt_trans hlt hdepth) fun _ => readBlock_of_written
    simp [Stmt.read, hbody, loc.locField_of_found hloc]
  | .whileDo condition body loc, _, fuel + 1, h, hfuel => by
    obtain ⟨fields, rfl, hcondition, hbody, hloc, -⟩ :=
      h.found (by decide : ["condition", "body", "loc"].Nodup)
    have hdepth := depth_of_tagged hfuel
    have hcondition := hcondition.required fun _ hjson _ => Expr.ofJson?_of_written _ _ hjson
    have hbody := hbody.required fun _ hjson hlt =>
      hjson.list?_eq (Nat.lt_trans hlt hdepth) fun _ => readBlock_of_written
    simp [Stmt.read, hcondition, hbody, loc.locField_of_found hloc]
  | .repeatUntil body condition loc, _, fuel + 1, h, hfuel => by
    obtain ⟨fields, rfl, hbody, hcondition, hloc, -⟩ :=
      h.found (by decide : ["body", "condition", "loc"].Nodup)
    have hdepth := depth_of_tagged hfuel
    have hbody := hbody.required fun _ hjson hlt =>
      hjson.list?_eq (Nat.lt_trans hlt hdepth) fun _ => readBlock_of_written
    have hcondition := hcondition.required fun _ hjson _ => Expr.ofJson?_of_written _ _ hjson
    simp [Stmt.read, hbody, hcondition, loc.locField_of_found hloc]
  | .branch condition thenBlock arms elseBlock loc, _, fuel + 1, h, hfuel => by
    obtain ⟨fields, rfl, hcondition, hthen, harms, helse, hloc, -⟩ := h.found
      (by decide : ["condition", "then_block", "elseif_blocks", "else_block", "loc"].Nodup)
    have hdepth := depth_of_tagged hfuel
    have hcondition := hcondition.required fun _ hjson _ => Expr.ofJson?_of_written _ _ hjson
    have hthen := hthen.required fun _ hjson hlt =>
      hjson.list?_eq (Nat.lt_trans hlt hdepth) fun _ => readBlock_of_written
    have harms := harms.defaulted fun _ hjson hlt =>
      hjson.list?_eq (Nat.lt_trans hlt hdepth) fun _ => readArms_of_written
    simp [Stmt.read, hcondition, hthen, harms, readElse_of_found helse hdepth,
      loc.locField_of_found hloc]
  | .numericFor decl start limit step body loc, _, fuel + 1, h, hfuel => by
    obtain ⟨fields, rfl, hdecl, hstart, hlimit, hstep, hbody, hloc, -⟩ := h.found
      (by decide : ["decl", "start", "limit", "step", "body", "loc"].Nodup)
    have hdepth := depth_of_tagged hfuel
    have hdecl := hdecl.required fun _ hjson _ => Decl.ofJson?_of_written _ _ hjson
    have hstart := hstart.required fun _ hjson _ => Expr.ofJson?_of_written _ _ hjson
    have hlimit := hlimit.required fun _ hjson _ => Expr.ofJson?_of_written _ _ hjson
    have hstep := hstep.optional rfl Expr.ofJson?_of_written
    have hbody := hbody.required fun _ hjson hlt =>
      hjson.list?_eq (Nat.lt_trans hlt hdepth) fun _ => readBlock_of_written
    simp [Stmt.read, hdecl, hstart, hlimit, hstep, hbody, loc.locField_of_found hloc]
  | .genericFor decls values body loc, _, fuel + 1, h, hfuel => by
    obtain ⟨fields, rfl, hdecls, hvalues, hbody, hloc, -⟩ := h.found
      (by decide : ["decls", "values", "body", "loc"].Nodup)
    have hdepth := depth_of_tagged hfuel
    have hdecls := hdecls.required fun _ hjson _ => Decl.list?_of_written hjson
    have hvalues := hvalues.required fun _ hjson _ => Expr.list?_of_written hjson
    have hbody := hbody.required fun _ hjson hlt =>
      hjson.list?_eq (Nat.lt_trans hlt hdepth) fun _ => readBlock_of_written
    simp [Stmt.read, hdecls, hvalues, hbody, loc.locField_of_found hloc]
  | .ret values loc, _, fuel + 1, h, _ => by
    obtain ⟨fields, rfl, hvalues, hloc, -⟩ := h.found (by decide : ["values", "loc"].Nodup)
    have hvalues := hvalues.required fun _ hjson _ => Expr.list?_of_written hjson
    simp [Stmt.read, hvalues, loc.locField_of_found hloc]
  | .brk loc, _, fuel + 1, h, _ => by
    obtain ⟨fields, rfl, hloc, -⟩ := h.found (by decide : ["loc"].Nodup)
    simp [Stmt.read, loc.locField_of_found hloc]

theorem readBlock_of_written : ∀ {stmts : List Stmt} {jsons : List Json} {fuel : Nat},
    BlockWritten stmts jsons → depthItems jsons < fuel → jsons.mapM (Stmt.read fuel) = some stmts
  | [], _, _, h, _ => by
    cases h
    rfl
  | stmt :: rest, _, fuel, h, hfuel => by
    obtain ⟨first, others, rfl, hfirst, hothers⟩ := h
    rw [depthItems, Nat.max_lt] at hfuel
    simp [List.mapM_cons, read_of_written hfirst hfuel.1, readBlock_of_written hothers hfuel.2]

theorem readArms_of_written : ∀ {arms : List Arm} {jsons : List Json} {fuel : Nat},
    ArmsWritten arms jsons → depthItems jsons < fuel →
      jsons.mapM (Arm.ofJson? (Stmt.read fuel)) = some arms
  | [], _, _, h, _ => by
    cases h
    rfl
  | ⟨condition, body⟩ :: rest, _, fuel, h, hfuel => by
    obtain ⟨first, second, others, rfl, hcondition, hbody, hothers⟩ := h
    rw [depthItems, Nat.max_lt] at hfuel
    have hsecond : second.depth < fuel :=
      Nat.lt_of_le_of_lt (depth_le_depthItems (List.mem_cons_of_mem _ List.mem_cons_self))
        (Nat.lt_of_succ_lt hfuel.1)
    have hbody := hbody.list?_eq hsecond fun _ => readBlock_of_written
    simp [List.mapM_cons, Arm.ofJson?, Expr.ofJson?_of_written _ _ hcondition, hbody,
      readArms_of_written hothers hfuel.2]

theorem readElse_of_found : ∀ {elseBlock : Option (List Stmt)} {fields : List (String × Json)}
    {fuel : Nat}, (Member.mk "else_block" (ElseWritten elseBlock) (elseBlock = none)).Found fields →
      (Json.object fields).depth < fuel →
        optional fields "else_block" (list? (Stmt.read fuel)) = some elseBlock
  | none, _, _, h, _ => h.optional_none fun _ hjson => hjson
  | some _, _, _, h, hdepth =>
    h.optional_some rfl fun _ hjson hlt =>
      hjson.list?_eq (Nat.lt_trans hlt hdepth) fun _ => readBlock_of_written

end

theorem ofJson?_of_written (stmt : Stmt) (json : Json) (h : Written stmt json) :
    Stmt.ofJson? json = some stmt :=
  read_of_written h (Nat.lt_succ_self _)

theorem list?_of_written {stmts : List Stmt} {json : Json} (h : json.IsArray (BlockWritten stmts)) :
    list? Stmt.ofJson? json = some stmts :=
  ItemByItem.list?_eq ⟨id, id⟩ ofJson?_of_written h

end Stmt

end Source

end LuaTyping
