import LuaTyping.Diagnostic
import LuaTyping.Proofs.Roundtrip.Expr
import LuaTyping.Proofs.Text.Reading

/-!
# Diagnostics as texts

Tools get a diagnostic as a text.  The text is a JSON object by the grammar of the format, and the
object that is read from it shows the diagnostic: its kind by name, its message and file whatever
characters they hold, and its locations (`Diagnostic.render_faithful`).  A related location is there
exactly if the diagnostic has one, so that different diagnostics have different texts.
-/

namespace LuaTyping

open Json

theorem DiagnosticKind.ofName?_name (kind : DiagnosticKind) : ofName? kind.name = some kind := by
  cases kind <;> rfl

/-- Fields with different names and plain values. -/
theorem Json.fieldsPlain_of_nodup {fields : List (String × Json)}
    (hnames : (fields.map Prod.fst).Nodup) (hvalues : ∀ field ∈ fields, field.2.Plain) :
    FieldsPlain fields := by
  induction fields with
  | nil => trivial
  | cons field rest ih =>
    rw [List.map_cons, List.nodup_cons] at hnames
    rw [List.forall_mem_cons] at hvalues
    exact ⟨hvalues.1, hnames.1, ih hnames.2 hvalues.2⟩

theorem Location.toJson_plain (loc : Location) : loc.toJson.Plain := by
  have hword : ∀ word : UInt64, (Json.ofUInt64 word).Plain := by
    intro word
    have hsize := word.toNat_lt_size
    exact ⟨by omega, by omega⟩
  refine fieldsPlain_of_nodup (by decide : ["line", "col", "offset"].Nodup) ?_
  simp only [List.forall_mem_cons]
  exact ⟨hword loc.line, hword loc.col, hword loc.offset, by simp⟩

namespace Diagnostic

/-- Reads a diagnostic from its JSON form. -/
def ofJson? (json : Json) : Option Diagnostic := do
  let fields ← json.fields?
  let kind ← required fields "kind" string?
  return { kind := ← DiagnosticKind.ofName? kind
           message := ← required fields "message" string?
           location := ← required fields "location" Location.ofJson?
           filename := ← required fields "filename" string?
           related := ← optional fields "related" Location.ofJson? }

/-- The JSON form as a record, from which a missing related location is left out. -/
theorem toJson_isRecord (diagnostic : Diagnostic) :
    diagnostic.toJson.IsRecord [.required "kind" (· = .string diagnostic.kind.name),
      .required "message" (· = .string diagnostic.message),
      .required "location" diagnostic.location.Written,
      .required "filename" (· = .string diagnostic.filename),
      ⟨"related", IsOption Location.Written diagnostic.related, diagnostic.related = none⟩] := by
  obtain ⟨kind, message, location, filename, related⟩ := diagnostic
  refine .of_fills (.keep rfl (.keep rfl (.keep location.toJson_written (.keep rfl ?_))))
  cases related with
  | none => exact .leave rfl .nil
  | some loc => exact .keep loc.toJson_written .nil

theorem ofJson?_toJson (diagnostic : Diagnostic) : ofJson? diagnostic.toJson = some diagnostic := by
  obtain ⟨fields, hfields, hkind, hmessage, hlocation, hfilename, hrelated, -⟩ :=
    diagnostic.toJson_isRecord.found
      (by decide : ["kind", "message", "location", "filename", "related"].Nodup)
  have hlocation := hlocation.required fun _ hjson _ => Location.ofJson?_of_written hjson
  have hrelated := hrelated.optional rfl fun _ _ hjson => Location.ofJson?_of_written hjson
  simp [ofJson?, hfields, hkind.exact string? rfl, DiagnosticKind.ofName?_name,
    hmessage.exact string? rfl, hlocation, hfilename.exact string? rfl, hrelated]

theorem fields_names (diagnostic : Diagnostic) : diagnostic.fields.map Prod.fst =
    ["kind", "message", "location", "filename"] ++
      if diagnostic.related.isSome then ["related"] else [] := by
  obtain ⟨kind, message, location, filename, related⟩ := diagnostic
  cases related <;> rfl

theorem toJson_plain (diagnostic : Diagnostic) : diagnostic.toJson.Plain := by
  refine fieldsPlain_of_nodup ?_ ?_
  · rw [fields_names]
    split <;> decide
  · rw [fields, List.forall_mem_append]
    refine ⟨?_, fun field hfield => ?_⟩
    · simp only [List.forall_mem_cons]
      exact ⟨trivial, trivial, diagnostic.location.toJson_plain, trivial, by simp⟩
    · obtain ⟨loc, -, rfl⟩ := Option.map_eq_some_iff.mp (Option.mem_toList.mp hfield)
      exact loc.toJson_plain

theorem related_mem_fields_iff {diagnostic : Diagnostic} :
    "related" ∈ diagnostic.fields.map Prod.fst ↔ diagnostic.related.isSome = true := by
  rw [fields_names]
  split <;> simp [*]

/-- **The text of a diagnostic is faithful.**  It is well-formed JSON, and it is read as an object
that shows the diagnostic with all its parts; a related location is present exactly if there is one.
Only quotation marks, backslashes and control characters are not written as themselves.  A text
belongs to one diagnostic only. -/
theorem render_faithful (diagnostic : Diagnostic) :
    WellFormed diagnostic.toJson.render ∧
      (∃ fields, Json.parse diagnostic.toJson.render = some (.object fields) ∧
        ofJson? (.object fields) = some diagnostic ∧
          ("related" ∈ fields.map Prod.fst ↔ diagnostic.related.isSome = true)) ∧
      (∀ c : Char, escape c = [c] ↔ c ≠ '"' ∧ c ≠ '\\' ∧ 32 ≤ c.toNat) ∧
        ∀ other : Diagnostic, other.toJson.render = diagnostic.toJson.render ↔
          other = diagnostic := by
  refine ⟨wellFormed_render _, ⟨diagnostic.fields, parse_render diagnostic.toJson_plain,
    diagnostic.ofJson?_toJson, related_mem_fields_iff⟩, fun c => Grammar.escape_eq_singleton_iff,
    fun other => ⟨fun h => ?_, fun h => ?_⟩⟩
  · have hjson : some other.toJson = some diagnostic.toJson := by
      rw [← parse_render other.toJson_plain, ← parse_render diagnostic.toJson_plain, h]
    have hread : some other = some diagnostic := by
      rw [← other.ofJson?_toJson, ← diagnostic.ofJson?_toJson, Option.some.inj hjson]
    exact Option.some.inj hread
  · rw [h]

end Diagnostic

end LuaTyping
