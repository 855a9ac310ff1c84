import LuaTyping.Proofs.Roundtrip.Record

/-!
# Expressions in JSON

`Written` says of a node which JSON values stand for it: the one that `toJson` writes, and the
others that differ from it by the liberties of records in any of its objects.  The readers give the
node back for all of them (`read_of_written`), with as much fuel as the value is deep.  Like the
writers, this goes by recursion over the node.
-/

namespace LuaTyping

open Json

/-! ### Scalars, locations and operators -/

theorem Json.uint64?_ofUInt64 (value : UInt64) : uint64? (.ofUInt64 value) = some value := by
  have hfits : (0 : Int) ≤ value.toNat ∧ (value.toNat : Int).toNat < UInt64.size :=
    ⟨Int.natCast_nonneg _, value.toNat_lt_size⟩
  rw [ofUInt64, uint64?, if_pos hfits, Int.toNat_natCast, UInt64.ofNat_toNat]

theorem Json.int64?_ofInt64 (value : Int64) : int64? (.ofInt64 value) = some value := by
  have hfits : Int64.minValue.toInt ≤ value.toInt ∧ value.toInt ≤ Int64.maxValue.toInt :=
    ⟨value.minValue_le_toInt, value.toInt_le⟩
  rw [ofInt64, int64?, if_pos hfits, Int64.ofInt_toInt]

namespace Location

/-- The JSON values that stand for the location. -/
def Written (loc : Location) : Json → Prop :=
  IsRecord [.required "line" (· = .ofUInt64 loc.line), .required "col" (· = .ofUInt64 loc.col),
    ⟨"offset", (· = .ofUInt64 loc.offset), loc.offset = 0⟩]

/-- The location as a field of a node. -/
def member (loc : Location) : Member :=
  ⟨"loc", loc.Written, loc = .nowhere⟩

theorem toJson_written (loc : Location) : loc.Written loc.toJson :=
  .of_fills (.keep rfl (.keep rfl (.keep rfl .nil)))

theorem ofJson?_of_written {loc : Location} {json : Json} (h : loc.Written json) :
    ofJson? json = some loc := by
  obtain ⟨fields, rfl, hline, hcol, hoffset, -⟩ :=
    h.found (by decide : ["line", "col", "offset"].Nodup)
  have hoffset : defaulted fields "offset" uint64? 0 = some loc.offset := by
    refine hoffset.defaulted ?_
    rintro _ rfl -
    exact uint64?_ofUInt64 loc.offset
  simp [ofJson?, record?, hline.exact uint64? (uint64?_ofUInt64 _),
    hcol.exact uint64? (uint64?_ofUInt64 _), hoffset]

theorem locField_of_found {loc : Location} {fields : List (String × Json)}
    (h : loc.member.Found fields) : locField fields = some loc :=
  h.defaulted fun _ hjson _ => ofJson?_of_written hjson

end Location

theorem UnaryOp.ofJson?_name (op : UnaryOp) : UnaryOp.ofJson? (.string op.name) = some op := by
  cases op <;> rfl

theorem BinaryOp.ofJson?_name (op : BinaryOp) : BinaryOp.ofJson? (.string op.name) = some op := by
  cases op <;> rfl

theorem Json.depth_of_tagged {tag : String} {contents : Json} {fuel : Nat}
    (h : (tagged tag contents).depth < fuel + 1) : contents.depth < fuel := by
  rw [depth_tagged] at h
  exact Nat.lt_of_succ_lt_succ h

/-! ### Type expressions -/

namespace TypeExpr

mutual

/-- The JSON values that stand for the type expression. -/
def Written : TypeExpr → Json → Prop
  | .nil, json => json = .string "Nil"
  | .boolean, json => json = .string "Boolean"
  | .integer, json => json = .string "Integer"
  | .float, json => json = .string "Float"
  | .string, json => json = .string "String"
  | .any, json => json = .string "Any"
  | .module, json => json = .string "Module"
  | .name text loc, json => json.IsVariant "Name" [.required "name" (· = .string text), loc.member]
  | .array elem loc, json => json.IsVariant "Array" [.required "elem" (Written elem), loc.member]
  | .table fields loc, json =>
    json.IsVariant "Table" [.required "fields" (IsArray (FieldsWritten fields)), loc.member]
  | .function params returns loc, json =>
    json.IsVariant "Function" [.required "params" (IsArray (ListWritten params)),
      ⟨"returns", IsArray (ListWritten returns), returns = []⟩, loc.member]

/-- The lists of JSON values that stand for the type expressions. -/
def ListWritten : List TypeExpr → List Json → Prop
  | [], jsons => jsons = []
  | type :: rest, jsons =>
    ∃ first others, jsons = first :: others ∧ Written type first ∧ ListWritten rest others

/-- The lists of JSON values that stand for the fields of a table type. -/
def FieldsWritten : List TypeField → List Json → Prop
  | [], jsons => jsons = []
  | ⟨key, type, loc⟩ :: rest, jsons =>
    ∃ first others, jsons = first :: others ∧
      first.IsRecord [.required "name" (· = .string key), .required "type" (Written type),
        loc.member] ∧ FieldsWritten rest others

end

mutual

/-- The canonical form stands for the type expression. -/
theorem toJson_written : ∀ type : TypeExpr, Written type type.toJson
  | .nil | .boolean | .integer | .float | .string | .any | .module => rfl
  | .name _ loc => .of_fills (.keep rfl (.keep loc.toJson_written .nil))
  | .array elem loc => .of_fills (.keep (toJson_written elem) (.keep loc.toJson_written .nil))
  | .table fields loc =>
    .of_fills (.keep ⟨_, rfl, fieldsToJson_written fields⟩ (.keep loc.toJson_written .nil))
  | .function params returns loc =>
    .of_fills (.keep ⟨_, rfl, listToJson_written params⟩
      (.keep ⟨_, rfl, listToJson_written returns⟩ (.keep loc.toJson_written .nil)))

theorem listToJson_written : ∀ types : List TypeExpr, ListWritten types (listToJson types)
  | [] => rfl
  | type :: rest => ⟨_, _, rfl, toJson_written type, listToJson_written rest⟩

theorem fieldsToJson_written : ∀ fields : List TypeField, FieldsWritten fields (fieldsToJson fields)
  | [] => rfl
  | ⟨_, type, loc⟩ :: rest =>
    ⟨_, _, rfl, .of_fills (.keep rfl (.keep (toJson_written type)
      (.keep loc.toJson_written .nil))), fieldsToJson_written rest⟩

end

mutual

/-- **Every value that stands for a type expression is read as it.** -/
theorem read_of_written : ∀ {type : TypeExpr} {json : Json} {fuel : Nat}, Written type json →
    json.depth < fuel → TypeExpr.read fuel json = some type
  | _, _, 0, _, hfuel => absurd hfuel (Nat.not_lt_zero _)
  | .nil, _, fuel + 1, h, _ | .boolean, _, fuel + 1, h, _ | .integer, _, fuel + 1, h, _
  | .float, _, fuel + 1, h, _ | .string, _, fuel + 1, h, _ | .any, _, fuel + 1, h, _
  | .module, _, fuel + 1, h, _ => by
    cases h
    rfl
  | .name text loc, _, fuel + 1, h, _ => by
    obtain ⟨fields, rfl, hname, hloc, -⟩ := h.found (by decide : ["name", "loc"].Nodup)
    simp [TypeExpr.read, hname.exact string? rfl, loc.locField_of_found hloc]
  | .array elem loc, _, fuel + 1, h, hfuel => by
    obtain ⟨fields, rfl, helem, hloc, -⟩ := h.found (by decide : ["elem", "loc"].Nodup)
    have hdepth := depth_of_tagged hfuel
    have helem := helem.required fun _ hjson hlt => read_of_written hjson (Nat.lt_trans hlt hdepth)
    simp [TypeExpr.read, helem, loc.locField_of_found hloc]
  | .table fieldTypes loc, _, fuel + 1, h, hfuel => by
    obtain ⟨fields, rfl, hfields, hloc, -⟩ := h.found (by decide : ["fields", "loc"].Nodup)
    have hdepth := depth_of_tagged hfuel
    have hfields := hfields.required fun _ hjson hlt =>
      hjson.list?_eq (Nat.lt_trans hlt hdepth) fun _ => readFields_of_written
    simp [TypeExpr.read, hfields, loc.locField_of_found hloc]
  | .function params returns loc, _, fuel + 1, h, hfuel => by
    obtain ⟨fields, rfl, hparams, hreturns, hloc, -⟩ :=
      h.found (by decide : ["params", "returns", "loc"].Nodup)
    have hdepth := depth_of_tagged hfuel
    have hparams := hparams.required fun _ hjson hlt =>
      hjson.list?_eq (Nat.lt_trans hlt hdepth) fun _ => readList_of_written
    have hreturns := hreturns.defaulted fun _ hjson hlt =>
      hjson.list?_eq (Nat.lt_trans hlt hdepth) fun _ => readList_of_written
    simp [TypeExpr.read, hparams, hreturns, loc.locField_of_found hloc]

theorem readList_of_written : ∀ {types : List TypeExpr} {jsons : List Json} {fuel : Nat},
    ListWritten types jsons → depthItems jsons < fuel →
      jsons.mapM (TypeExpr.read fuel) = some types
  | [], _, _, h, _ => by
    cases h
    rfl
  | type :: rest, _, fuel, h, hfuel => by
    obtain ⟨first, others, rfl, hfirst, hothers⟩ := h
    rw [depthItems, Nat.max_lt] at hfuel
    simp [List.mapM_cons, read_of_written hfirst hfuel.1, readList_of_written hothers hfuel.2]

theorem readFields_of_written : ∀ {fieldTypes : List TypeField} {jsons : List Json} {fuel : Nat},
    FieldsWritten fieldTypes jsons → depthItems jsons < fuel →
      jsons.mapM (TypeField.ofJson? (TypeExpr.read fuel)) = some fieldTypes
  | [], _, _, h, _ => by
    cases h
    rfl
  | ⟨key, type, loc⟩ :: rest, _, fuel, h, hfuel => by
    obtain ⟨first, others, rfl, hfirst, hothers⟩ := h
    rw [depthItems, Nat.max_lt] at hfuel
    obtain ⟨fields, rfl, hname, htype, hloc, -⟩ :=
      hfirst.found (by decide : ["name", "type", "loc"].Nodup)
    have htype := htype.required fun _ hjson hlt =>
      read_of_written hjson (Nat.lt_trans hlt hfuel.1)
    have hfield : TypeField.ofJson? (TypeExpr.read fuel) (.object fields) =
        some ⟨key, type, loc⟩ := by
      simp [TypeField.ofJson?, record?, hname.exact string? rfl, htype, loc.locField_of_found hloc]
    simp [List.mapM_cons, hfield, readFields_of_written hothers hfuel.2]

end

theorem ofJson?_of_written (type : TypeExpr) (json : Json) (h : Written type json) :
    TypeExpr.ofJson? json = some type :=
  read_of_written h (Nat.lt_succ_self _)

theorem list?_of_written {types : List TypeExpr} {json : Json}
    (h : json.IsArray (ListWritten types)) : list? TypeExpr.ofJson? json = some types :=
  ItemByItem.list?_eq ⟨id, id⟩ ofJson?_of_written h

end TypeExpr

/-! ### Expressions -/

namespace Source.Expr

mutual

/-- The JSON values that stand for the expression. -/
def Written : Expr → Json → Prop
  | .nil loc, json => json.IsVariant "Nil" [loc.member]
  | .boolean value loc, json =>
    json.IsVariant "Boolean" [.required "value" (· = .bool value), loc.member]
  | .integer value loc, json =>
    json.IsVariant "Integer" [.required "value" (· = .ofInt64 value), loc.member]
  | .float value loc, json =>
    json.IsVariant "Float" [.required "value" (· = .float value), loc.member]
  | .string value loc, json =>
    json.IsVariant "String" [.required "value" (· = .string value), loc.member]
  | .init entries loc, json =>
    json.IsVariant "InitList" [.required "fields" (IsArray (EntriesWritten entries)), loc.member]
  | .name text loc, json => json.IsVariant "Name" [.required "name" (· = .string text), loc.member]
  | .index base key loc, json =>
    json.IsVariant "Index" [.required "object" (Written base), .required "index" (Written key),
      loc.member]
  | .field base key loc, json =>
    json.IsVariant "Field" [.required "object" (Written base),
      .required "field" (· = .string key), loc.member]
  | .call callee args loc, json =>
    json.IsVariant "Call" [.required "callee" (Written callee),
      .required "args" (IsArray (ListWritten args)), loc.member]
  | .unary op operand loc, json =>
    json.IsVariant "Unary" [.required "op" (· = .string op.name),
      .required "operand" (Written operand), loc.member]
  | .binary left op right loc, json =>
    json.IsVariant "Binary" [.required "left" (Written left), .required "op" (· = .string op.name),
      .required "right" (Written right), loc.member]
  | .cast expr target loc, json =>
    json.IsVariant "Cast" [.required "expr" (Written expr), .required "target" target.Written,
      loc.member]
  | .paren expr loc, json => json.IsVariant "Paren" [.required "expr" (Written expr), loc.member]

/-- The lists of JSON values that stand for the expressions. -/
def ListWritten : List Expr → List Json → Prop
  | [], jsons => jsons = []
  | expr :: rest, jsons =>
    ∃ first others, jsons = first :: others ∧ Written expr first ∧ ListWritten rest others

/-- The lists of JSON values that stand for the entries of a constructor. -/
def EntriesWritten : List Entry → List Json → Prop
  | [], jsons => jsons = []
  | .positional value :: rest, jsons =>
    ∃ contents others, jsons = .tagged "Positional" contents :: others ∧ Written value contents ∧
      EntriesWritten rest others
  | .named key value loc :: rest, jsons =>
    ∃ first others, jsons = first :: others ∧
      first.IsVariant "Named" [.required "name" (· = .string key),
        .required "value" (Written value), loc.member] ∧ EntriesWritten rest others

end

mutual

/-- The canonical form stands for the expression. -/
theorem toJson_written : ∀ expr : Expr, Written expr expr.toJson
  | .nil loc => .of_fills (.keep loc.toJson_written .nil)
  | .boolean _ loc | .integer _ loc | .float _ loc | .string _ loc | .name _ loc =>
    .of_fills (.keep rfl (.keep loc.toJson_written .nil))
  | .init entries loc =>
    .of_fills (.keep ⟨_, rfl, entriesToJson_written entries⟩ (.keep loc.toJson_written .nil))
  | .index base key loc =>
    .of_fills (.keep (toJson_written base) (.keep (toJson_written key)
      (.keep loc.toJson_written .nil)))
  | .field base _ loc =>
    .of_fills (.keep (toJson_written base) (.keep rfl (.keep loc.toJson_written .nil)))
  | .call callee args loc =>
    .of_fills (.keep (toJson_written callee) (.keep ⟨_, rfl, listToJson_written args⟩
      (.keep loc.toJson_written .nil)))
  | .unary _ operand loc =>
    .of_fills (.keep rfl (.keep (toJson_written operand) (.keep loc.toJson_written .nil)))
  | .binary left _ right loc =>
    .of_fills (.keep (toJson_written left) (.keep rfl (.keep (toJson_written right)
      (.keep loc.toJson_written .nil))))
  | .cast expr target loc =>
    .of_fills (.keep (toJson_written expr) (.keep target.toJson_written
      (.keep loc.toJson_written .nil)))
  | .paren expr loc => .of_fills (.keep (toJson_written expr) (.keep loc.toJson_written .nil))

theorem listToJson_written : ∀ exprs : List Expr, ListWritten exprs (listToJson exprs)
  | [] => rfl
  | expr :: rest => ⟨_, _, rfl, toJson_written expr, listToJson_written rest⟩

theorem entriesToJson_written : ∀ entries : List Entry,
    EntriesWritten entries (entriesToJson entries)
  | [] => rfl
  | .positional value :: rest => ⟨_, _, rfl, toJson_written value, entriesToJson_written rest⟩
  | .named _ value loc :: rest =>
    ⟨_, _, rfl, .of_fills (.keep rfl (.keep (toJson_written value)
      (.keep loc.toJson_written .nil))), entriesToJson_written rest⟩

end

mutual

/-- **Every value that stands for an expression is read as it.** -/
theorem read_of_written : ∀ {expr : Expr} {json : Json} {fuel : Nat}, Written expr json →
    json.depth < fuel → Expr.read fuel json = some expr
  | _, _, 0, _, hfuel => absurd hfuel (Nat.not_lt_zero _)
  | .nil loc, _, fuel + 1, h, _ => by
    obtain ⟨fields, rfl, hloc, -⟩ := h.found (by decide : ["loc"].Nodup)
    simp [Expr.read, loc.locField_of_found hloc]
  | .boolean value loc, _, fuel + 1, h, _ => by
    obtain ⟨fields, rfl, hvalue, hloc, -⟩ := h.found (by decide : ["value", "loc"].Nodup)
    simp [Expr.read, hvalue.exact bool? rfl, loc.locField_of_found hloc]
  | .integer value loc, _, fuel + 1, h, _ => by
    obtain ⟨fields, rfl, hvalue, hloc, -⟩ := h.found (by decide : ["value", "loc"].Nodup)
    simp [Expr.read, hvalue.exact int64? (int64?_ofInt64 value), loc.locField_of_found hloc]
  | .float value loc, _, fuel + 1, h, _ => by
    obtain ⟨fields, rfl, hvalue, hloc, -⟩ := h.found (by decide : ["value", "loc"].Nodup)
    simp [Expr.read, hvalue.exact float? rfl, loc.locField_of_found hloc]
  | .string value loc, _, fuel + 1, h, _ => by
    obtain ⟨fields, rfl, hvalue, hloc, -⟩ := h.found (by decide : ["value", "loc"].Nodup)
    simp [Expr.read, hvalue.exact string? rfl, loc.locField_of_found hloc]
  | .init entries loc, _, fuel + 1, h, hfuel => by
    obtain ⟨fields, rfl, hentries, hloc, -⟩ := h.found (by decide : ["fields", "loc"].Nodup)
    have hdepth := depth_of_tagged hfuel
    have hentries := hentries.required fun _ hjson hlt =>
      hjson.list?_eq (Nat.lt_trans hlt hdepth) fun _ => readEntries_of_written
    simp [Expr.read, hentries, loc.locField_of_found hloc]
  | .name text loc, _, fuel + 1, h, _ => by
    obtain ⟨fields, rfl, hname, hloc, -⟩ := h.found (by decide : ["name", "loc"].Nodup)
    simp [Expr.read, hname.exact string? rfl, loc.locField_of_found hloc]
  | .index base key loc, _, fuel + 1, h, hfuel => by
    obtain ⟨fields, rfl, hbase, hkey, hloc, -⟩ :=
      h.found (by decide : ["object", "index", "loc"].Nodup)
    have hdepth := depth_of_tagged hfuel
    have hbase := hbase.required fun _ hjson hlt =>
      read_of_written hjson (Nat.lt_trans hlt hdepth)
    have hkey := hkey.required fun _ hjson hlt => read_of_written hjson (Nat.lt_trans hlt hdepth)
    simp [Expr.read, hbase, hkey, loc.locField_of_found hloc]
  | .field base key loc, _, fuel + 1, h, hfuel => by
    obtain ⟨fields, rfl, hbase, hkey, hloc, -⟩ :=
      h.found (by decide : ["object", "field", "loc"].Nodup)
    have hdepth := depth_of_tagged hfuel
    have hbase := hbase.required fun _ hjson hlt =>
      read_of_written hjson (Nat.lt_trans hlt hdepth)
    simp [Expr.read, hbase, hkey.exact string? rfl, loc.locField_of_found hloc]
  | .call callee args loc, _, fuel + 1, h, hfuel => by
    obtain ⟨fields, rfl, hcallee, hargs, hloc, -⟩ :=
      h.found (by decide : ["callee", "args", "loc"].Nodup)
    have hdepth := depth_of_tagged hfuel
    have hcallee := hcallee.required fun _ hjson hlt =>
      read_of_written hjson (Nat.lt_trans hlt hdepth)
    have hargs := hargs.required fun _ hjson hlt =>
      hjson.list?_eq (Nat.lt_trans hlt hdepth) fun _ => readList_of_written
    simp [Expr.read, hcallee, hargs, loc.locField_of_found hloc]
  | .unary op operand loc, _, fuel + 1, h, hfuel => by
    obtain ⟨fields, rfl, hop, hoperand, hloc, -⟩ :=
      h.found (by decide : ["op", "operand", "loc"].Nodup)
    have hdepth := depth_of_tagged hfuel
    have hoperand := hoperand.required fun _ hjson hlt =>
      read_of_written hjson (Nat.lt_trans hlt hdepth)
    simp [Expr.read, hop.exact UnaryOp.ofJson? op.ofJson?_name, hoperand,
      loc.locField_of_found hloc]
  | .binary left op right loc, _, fuel + 1, h, hfuel => by
    obtain ⟨fields, rfl, hleft, hop, hright, hloc, -⟩ :=
      h.found (by decide : ["left", "op", "right", "loc"].Nodup)
    have hdepth := depth_of_tagged hfuel
    have hleft := hleft.required fun _ hjson hlt => read_of_written hjson (Nat.lt_trans hlt hdepth)
    have hright := hright.required fun _ hjson hlt =>
      read_of_written hjson (Nat.lt_trans hlt hdepth)
    simp [Expr.read, hleft, hop.exact BinaryOp.ofJson? op.ofJson?_name, hright,
      loc.locField_of_found hloc]
  | .cast expr target loc, _, fuel + 1, h, hfuel => by
    obtain ⟨fields, rfl, hexpr, htarget, hloc, -⟩ :=
      h.found (by decide : ["expr", "target", "loc"].Nodup)
    have hdepth := depth_of_tagged hfuel
    have hexpr := hexpr.required fun _ hjson hlt => read_of_written hjson (Nat.lt_trans hlt hdepth)
    have htarget := htarget.required fun json hjson _ => target.ofJson?_of_written json hjson
    simp [Expr.read, hexpr, htarget, loc.locField_of_found hloc]
  | .paren expr loc, _, fuel + 1, h, hfuel => by
    obtain ⟨fields, rfl, hexpr, hloc, -⟩ := h.found (by decide : ["expr", "loc"].Nodup)
    have hdepth := depth_of_tagged hfuel
    have hexpr := hexpr.required fun _ hjson hlt => read_of_written hjson (Nat.lt_trans hlt hdepth)
    simp [Expr.read, hexpr, loc.locField_of_found hloc]

theorem readList_of_written : ∀ {exprs : List Expr} {jsons : List Json} {fuel : Nat},
    ListWritten exprs jsons → depthItems jsons < fuel → jsons.mapM (Expr.read fuel) = some exprs
  | [], _, _, h, _ => by
    cases h
    rfl
  | expr :: rest, _, fuel, h, hfuel => by
    obtain ⟨first, others, rfl, hfirst, hothers⟩ := h
    rw [depthItems, Nat.max_lt] at hfuel
    simp [List.mapM_cons, read_of_written hfirst hfuel.1, readList_of_written hothers hfuel.2]

theorem readEntries_of_written : ∀ {entries : List Entry} {jsons : List Json} {fuel : Nat},
    EntriesWritten entries jsons → depthItems jsons < fuel →
      jsons.mapM (Entry.ofJson? (Expr.read fuel)) = some entries
  | [], _, _, h, _ => by
    cases h
    rfl
  | .positional value :: rest, _, fuel, h, hfuel => by
    obtain ⟨contents, others, rfl, hvalue, hothers⟩ := h
    rw [depthItems, Nat.max_lt, depth_tagged] at hfuel
    simp [List.mapM_cons, Entry.ofJson?, read_of_written hvalue (Nat.lt_of_succ_lt hfuel.1),
      readEntries_of_written hothers hfuel.2]
  | .named key value loc :: rest, _, fuel, h, hfuel => by
    obtain ⟨first, others, rfl, hfirst, hothers⟩ := h
    rw [depthItems, Nat.max_lt] at hfuel
    obtain ⟨fields, rfl, hname, hvalue, hloc, -⟩ :=
      hfirst.found (by decide : ["name", "value", "loc"].Nodup)
    rw [depth_tagged] at hfuel
    have hvalue := hvalue.required fun _ hjson hlt =>
      read_of_written hjson (Nat.lt_trans hlt (Nat.lt_of_succ_lt hfuel.1))
    simp [List.mapM_cons, Entry.ofJson?, hname.exact string? rfl, hvalue,
      loc.locField_of_found hloc, readEntries_of_written hothers hfuel.2]

end

theorem ofJson?_of_written (expr : Expr) (json : Json) (h : Written expr json) :
    Expr.ofJson? json = some expr :=
  read_of_written h (Nat.lt_succ_self _)

/-- The JSON values that stand for the expressions. -/
def AllWritten (exprs : List Expr) : Json → Prop :=
  IsArray (ListWritten exprs)

theorem exprsToJson_written (exprs : List Expr) : AllWritten exprs (exprsToJson exprs) :=
  ⟨_, rfl, listToJson_written exprs⟩

theorem list?_of_written {exprs : List Expr} {json : Json} (h : AllWritten exprs json) :
    list? Expr.ofJson? json = some exprs :=
  ItemByItem.list?_eq ⟨id, id⟩ ofJson?_of_written h

end Source.Expr

end LuaTyping
