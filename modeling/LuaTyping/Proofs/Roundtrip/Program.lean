import LuaTyping.Proofs.Roundtrip.Stmt

/-!
# Programs in JSON

A program is exchanged as a JSON value (`Program.toJson`) and read back from it (`Program.ofJson?`).
`Program.Written` are the values that stand for a program: the one that is written, and those that
differ from it by the liberties of records, anywhere inside.  In every object for a record, fields
that have their default value can be missing, fields that the record does not have can be added, and
the fields can come in any order.  The object around the contents of a form has its one field.

Every value that stands for a program is read as that program (`toJson_roundtrip`).
-/

namespace LuaTyping

open Json

/-! ### Functions -/

namespace Source

namespace FunctionName

/-- The JSON values that stand for the name of a function. -/
def Written : FunctionName → Json → Prop
  | .plain name, json => json = .tagged "Local" (.string name)
  | .member module field, json =>
    json.IsVariant "Field" [.required "module" (· = .string module),
      .required "field" (· = .string field)]

theorem toJson_written (name : FunctionName) : name.Written name.toJson := by
  cases name with
  | plain name => exact rfl
  | member module field => exact .of_fills (.keep rfl (.keep rfl .nil))

theorem ofJson?_of_written {name : FunctionName} {json : Json} (h : name.Written json) :
    ofJson? json = some name := by
  cases name with
  | plain name =>
    rw [show json = .tagged "Local" (.string name) from h]
    rfl
  | member module field =>
    obtain ⟨fields, rfl, hmodule, hfield, -⟩ := h.found (by decide : ["module", "field"].Nodup)
    simp [ofJson?, hmodule.exact string? rfl, hfield.exact string? rfl]

end FunctionName

namespace Function

/-- The JSON values that stand for the function. -/
def Written (decl : Function) : Json → Prop :=
  IsRecord [.required "name" decl.name.Written, .required "params" (Decl.AllWritten decl.params),
    ⟨"returns", IsArray (TypeExpr.ListWritten decl.returns), decl.returns = []⟩,
    .required "body" (IsArray (Stmt.BlockWritten decl.body)), decl.loc.member]

theorem toJson_written (decl : Function) : decl.Written decl.toJson :=
  .of_fills (.keep decl.name.toJson_written (.keep (Decl.declsToJson_written decl.params)
    (.keep ⟨_, rfl, TypeExpr.listToJson_written decl.returns⟩
      (.keep ⟨_, rfl, Stmt.blockToJson_written decl.body⟩ (.keep decl.loc.toJson_written .nil)))))

theorem ofJson?_of_written {decl : Function} {json : Json} (h : decl.Written json) :
    ofJson? json = some decl := by
  obtain ⟨fields, rfl, hname, hparams, hreturns, hbody, hloc, -⟩ := h.found
    (by decide : ["name", "params", "returns", "body", "loc"].Nodup)
  have hname := hname.required fun _ hjson _ => FunctionName.ofJson?_of_written hjson
  have hparams := hparams.required fun _ hjson _ => Decl.list?_of_written hjson
  have hreturns := hreturns.defaulted fun _ hjson _ => TypeExpr.list?_of_written hjson
  have hbody := hbody.required fun _ hjson _ => Stmt.list?_of_written hjson
  simp [ofJson?, record?, hname, hparams, hreturns, hbody, decl.loc.locField_of_found hloc]

end Function

/-! ### Items and programs -/

namespace Item

/-- The JSON values that stand for the item. -/
def Written : Item → Json → Prop
  | .var decls values loc, json =>
    json.IsVariant "Var" [.required "decls" (Decl.AllWritten decls),
      ⟨"values", Expr.AllWritten values, values = []⟩, loc.member]
  | .function decl, json => ∃ contents, json = .tagged "Func" contents ∧ decl.Written contents
  | .assign targets values loc, json =>
    json.IsVariant "Assign" [.required "targets" (Expr.AllWritten targets),
      .required "values" (Expr.AllWritten values), loc.member]
  | .record name fields loc, json =>
    json.IsVariant "Record" [.required "name" (· = .string name),
      .required "fields" (Decl.AllWritten fields), loc.member]
  | .alias name type loc, json =>
    json.IsVariant "Typealias" [.required "name" (· = .string name), .required "type" type.Written,
      loc.member]
  | .ret values loc, json =>
    json.IsVariant "Return" [.required "values" (Expr.AllWritten values), loc.member]

theorem toJson_written (item : Item) : item.Written item.toJson := by
  cases item with
  | var decls values loc =>
    exact .of_fills (.keep (Decl.declsToJson_written decls)
      (.keep (Expr.exprsToJson_written values) (.keep loc.toJson_written .nil)))
  | function decl => exact ⟨_, rfl, decl.toJson_written⟩
  | assign targets values loc =>
    exact .of_fills (.keep (Expr.exprsToJson_written targets)
      (.keep (Expr.exprsToJson_written values) (.keep loc.toJson_written .nil)))
  | record name fields loc =>
    exact .of_fills (.keep rfl (.keep (Decl.declsToJson_written fields)
      (.keep loc.toJson_written .nil)))
  | «alias» name type loc =>
    exact .of_fills (.keep rfl (.keep type.toJson_written (.keep loc.toJson_written .nil)))
  | ret values loc =>
    exact .of_fills (.keep (Expr.exprsToJson_written values) (.keep loc.toJson_written .nil))

theorem ofJson?_of_written (item : Item) (json : Json) (h : item.Written json) :
    ofJson? json = some item := by
  cases item with
  | var decls values loc =>
    obtain ⟨fields, rfl, hdecls, hvalues, hloc, -⟩ :=
      h.found (by decide : ["decls", "values", "loc"].Nodup)
    have hdecls := hdecls.required fun _ hjson _ => Decl.list?_of_written hjson
    have hvalues := hvalues.defaulted fun _ hjson _ => Expr.list?_of_written hjson
    simp [ofJson?, hdecls, hvalues, loc.locField_of_found hloc]
  | function decl =>
    obtain ⟨contents, rfl, hdecl⟩ := h
    simp [ofJson?, Function.ofJson?_of_written hdecl]
  | assign targets values loc =>
    obtain ⟨fields, rfl, htargets, hvalues, hloc, -⟩ :=
      h.found (by decide : ["targets", "values", "loc"].Nodup)
    have htargets := htargets.required fun _ hjson _ => Expr.list?_of_written hjson
    have hvalues := hvalues.required fun _ hjson _ => Expr.list?_of_written hjson
    simp [ofJson?, htargets, hvalues, loc.locField_of_found hloc]
  | record name decls loc =>
    obtain ⟨fields, rfl, hname, hdecls, hloc, -⟩ :=
      h.found (by decide : ["name", "fields", "loc"].Nodup)
    have hdecls := hdecls.required fun _ hjson _ => Decl.list?_of_written hjson
    simp [ofJson?, hname.exact string? rfl, hdecls, loc.locField_of_found hloc]
  | «alias» name type loc =>
    obtain ⟨fields, rfl, hname, htype, hloc, -⟩ :=
      h.found (by decide : ["name", "type", "loc"].Nodup)
    have htype := htype.required fun _ hjson _ => TypeExpr.ofJson?_of_written _ _ hjson
    simp [ofJson?, hname.exact string? rfl, htype, loc.locField_of_found hloc]
  | ret values loc =>
    obtain ⟨fields, rfl, hvalues, hloc, -⟩ := h.found (by decide : ["values", "loc"].Nodup)
    have hvalues := hvalues.required fun _ hjson _ => Expr.list?_of_written hjson
    simp [ofJson?, hvalues, loc.locField_of_found hloc]

end Item

namespace Program

/-- The JSON values that stand for the program. -/
def Written (program : Program) : Json → Prop :=
  IsRecord [.required "items" (IsArray (Each Item.Written program.items)),
    ⟨"type_regions", IsArray (Each Span.Written program.typeRegions),
      program.typeRegions = []⟩,
    ⟨"comment_regions", IsArray (Each Span.Written program.commentRegions),
      program.commentRegions = []⟩]

theorem toJson_written (program : Program) : program.Written program.toJson :=
  .of_fills (.keep ⟨_, rfl, each_map Item.toJson_written program.items⟩
    (.keep ⟨_, rfl, each_map Span.toJson_written program.typeRegions⟩
      (.keep ⟨_, rfl, each_map Span.toJson_written program.commentRegions⟩ .nil)))

theorem ofJson?_of_written {program : Program} {json : Json} (h : program.Written json) :
    ofJson? json = some program := by
  obtain ⟨fields, rfl, hitems, htypes, hcomments, -⟩ := h.found
    (by decide : ["items", "type_regions", "comment_regions"].Nodup)
  have hitems := hitems.required fun _ hjson _ =>
    (itemByItem_each Item.Written).list?_eq Item.ofJson?_of_written hjson
  have htypes := htypes.defaulted fun _ hjson _ =>
    (itemByItem_each Span.Written).list?_eq Span.ofJson?_of_written hjson
  have hcomments := hcomments.defaulted fun _ hjson _ =>
    (itemByItem_each Span.Written).list?_eq Span.ofJson?_of_written hjson
  simp [ofJson?, record?, hitems, htypes, hcomments]

/-- **Programs survive the exchange.**  What is written for a program is read as that program, and
so is every value that differs from it by the liberties of records: default values that are left
out, fields that are added and fields that are moved, in any of its objects. -/
theorem toJson_roundtrip (program : Program) :
    ofJson? program.toJson = some program ∧ program.Written program.toJson ∧
      ∀ json, program.Written json → ofJson? json = some program :=
  ⟨ofJson?_of_written program.toJson_written, program.toJson_written,
    fun _ => ofJson?_of_written⟩

/-- A module without fields. -/
def bareModule : Program where
  items := [.var [⟨"m", some .module, .nowhere⟩] [.init [] .nowhere] .nowhere,
    .ret [.name "m" (.lineCol 2 8)] (.lineCol 2 1)]
  typeRegions := []
  commentRegions := []

/-- The module without fields as a terse tool would write it: no default values, a note of its own
and the fields in another order. -/
def bareModuleJson : Json :=
  let place := fun (line col : UInt64) =>
    Json.object [("col", .ofUInt64 col), ("line", .ofUInt64 line)]
  .object [("items", .array [
    .tagged "Var" (.object [
      ("values", .array [.tagged "InitList" (.object [("fields", .array [])])]),
      ("note", .bool true),
      ("decls", .array [.object [("type", .string "Module"), ("name", .string "m")]])]),
    .tagged "Return" (.object [("loc", place 2 1),
      ("values", .array [.tagged "Name" (.object [("name", .string "m"), ("loc", place 2 8)])])])])]

theorem bareModule_written : bareModule.Written bareModuleJson := by
  have hplace : ∀ line col, (Location.lineCol line col).Written
      (.object [("col", .ofUInt64 col), ("line", .ofUInt64 line)]) := fun line col =>
    ⟨_, _, [], rfl, .keep rfl (.keep rfl (.leave rfl .nil)), by simp, .swap _ _ _⟩
  have hdecl : Decl.Written ⟨"m", some .module, .nowhere⟩
      (.object [("type", .string "Module"), ("name", .string "m")]) :=
    ⟨_, _, [], rfl, .keep rfl (.keep rfl (.leave rfl .nil)), by simp, .swap _ _ _⟩
  have hempty : Expr.Written (.init [] .nowhere)
      (.tagged "InitList" (.object [("fields", .array [])])) :=
    .of_fills (.keep ⟨_, rfl, rfl⟩ (.leave rfl .nil))
  have hname : Expr.Written (.name "m" (.lineCol 2 8)) (.tagged "Name" (.object
      [("name", .string "m"), ("loc", .object [("col", .ofUInt64 8), ("line", .ofUInt64 2)])])) :=
    .of_fills (.keep rfl (.keep (hplace 2 8) .nil))
  have hvar : Item.Written (.var [⟨"m", some .module, .nowhere⟩] [.init [] .nowhere] .nowhere) _ :=
    ⟨_, rfl, _, _, [("note", .bool true)], rfl,
      .keep ⟨_, rfl, _, _, rfl, hdecl, rfl⟩
        (.keep ⟨_, rfl, _, _, rfl, hempty, rfl⟩ (.leave rfl .nil)),
      by simp [Member.required, Location.member], @List.perm_append_comm _ [_, _] [_]⟩
  have hret : Item.Written (.ret [.name "m" (.lineCol 2 8)] (.lineCol 2 1)) _ :=
    ⟨_, rfl, _, _, [], rfl,
      .keep ⟨_, rfl, _, _, rfl, hname, rfl⟩ (.keep (hplace 2 1) .nil), by simp, .swap _ _ _⟩
  exact .of_fills (.keep ⟨_, rfl, _, _, rfl, hvar, _, _, rfl, hret, rfl⟩
    (.leave rfl (.leave rfl .nil)))

theorem bareModule_roundtrip :
    bareModule.Written bareModuleJson ∧ ofJson? bareModuleJson = some bareModule :=
  ⟨bareModule_written, (toJson_roundtrip bareModule).2.2 bareModuleJson bareModule_written⟩

end Program

end Source

end LuaTyping
