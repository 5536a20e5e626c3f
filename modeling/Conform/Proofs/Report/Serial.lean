/-
Module: Conform.Proofs.Report.Serial
Purpose: Diagnostics in a JSON document. A printed diagnostic is read back as the diagnostic, and so is a
  list of them. A report is read back from its own text, whatever its paths and messages are, so different
  reports have different texts. The document that shows a report is read back as a whole, and its fields
  are those that were written.
Main exports: JsonSource.diagnostic?_source, JsonSource.mapM_diagnostic?_source,
  JsonSource.report?_source, Report.texts_read_back, Report.ofText?_jsonOutput, Report.fields?_document,
  Report.parse?_jsonOutput
-/
import Conform.Command.Output
import Conform.Proofs.Json.CompactText

namespace Conform

open Json

/-! ### Diagnostics -/

namespace JsonSource

/-- A printed diagnostic is read back as the diagnostic. -/
theorem diagnostic?_source (d : Diagnostic) : diagnostic? d.toJson.source = some d := by
  have hfields : fields? ["path", "kind", "message"] d.toJson.source =
      some [.string (TextUnit.ofString d.path), .string (TextUnit.ofString d.rule.name),
        .string (TextUnit.ofString d.message)] := by
    simp [Diagnostic.toJson, source, sourceMembers, fields?, decodedMembers?, only?]
  rw [diagnostic?, hfields]
  simp [asString?, rule?, Rule.ofName?_name]

/-- Printed diagnostics are read back one by one. -/
theorem mapM_diagnostic?_source (items : List Diagnostic) :
    (sourceItems (items.map Diagnostic.toJson)).mapM diagnostic? = some items := by
  induction items with
  | nil => rfl
  | cons d rest ih =>
    rw [List.map_cons, sourceItems, List.mapM_cons, diagnostic?_source, ih]
    rfl

/-- A printed report is read back as the report. -/
theorem report?_source (r : Report) : report? r.toJson.source = some r := by
  have hfields : fields? ["items"] r.toJson.source =
      some [.array (sourceItems (r.items.map Diagnostic.toJson))] := by
    simp [Report.toJson, source, sourceMembers, fields?, decodedMembers?, only?]
  rw [report?, hfields]
  simp [mapM_diagnostic?_source]

end JsonSource

/-! ### Reports -/

namespace Report

/-- Printed diagnostics are objects with distinct keys, without numbers and without nested parts. -/
theorem diagnostics_printable (items : List Diagnostic) :
    ProperItems (items.map Diagnostic.toJson) ∧ ReadsBackItems (items.map Diagnostic.toJson) ∧
      depthItems (items.map Diagnostic.toJson) ≤ 1 := by
  induction items with
  | nil => exact ⟨trivial, trivial, Nat.zero_le 1⟩
  | cons d rest ih =>
    obtain ⟨hproper, hreads, hdepth⟩ := ih
    have hkeys : (["path", "kind", "message"] : List String).Nodup := by decide
    have hitem : d.toJson.Proper := ⟨hkeys, trivial, trivial, trivial, trivial⟩
    refine ⟨⟨hitem, hproper⟩, ⟨⟨trivial, trivial, trivial, trivial⟩, hreads⟩, ?_⟩
    exact Nat.max_le.2 ⟨Nat.le_refl 1, hdepth⟩

/-- A report has distinct keys in each object, no numbers, and it nests three levels at most. -/
theorem toJson_printable (report : Report) :
    report.toJson.Proper ∧ report.toJson.ReadsBack ∧ report.toJson.depth ≤ 3 := by
  obtain ⟨hproper, hreads, hdepth⟩ := diagnostics_printable report.items
  refine ⟨⟨by simp, hproper, trivial⟩, ⟨hreads, trivial⟩, ?_⟩
  simp only [toJson, depth, depthMembers]
  omega

/-- A report is read back from its compact text. -/
theorem ofText?_compact_toJson (report : Report) : ofText? report.toJson.compact = some report := by
  rw [ofText?, Json.ofText?_compact report.toJson_printable.2.1, Option.bind_some,
    JsonSource.report?_source]

/-- A report is read back from its indented text. -/
theorem ofText?_pretty_toJson (report : Report) : ofText? report.toJson.pretty = some report := by
  have htree : JsonSource.ofText? (report.toJson.pretty ++ "") = some report.toJson.source :=
    Json.ofText?_pretty report.toJson_printable.2.1 fun _ h => absurd h List.not_mem_nil
  rw [String.append_empty] at htree
  rw [ofText?, htree, Option.bind_some, JsonSource.report?_source]

/-- A text that a report is read back from tells it from all others. -/
theorem injective_of_ofText? {print : Report → String}
    (h : ∀ report, ofText? (print report) = some report) :
    Function.Injective print := by
  intro report other htext
  have hread := h report
  rw [htext, h other] at hread
  exact (Option.some.inj hread).symm

/-- A report of any length, with any texts for paths and messages, is printed as a JSON document that is
    read back as the same report, with its diagnostics in the same order, from the compact and from the
    indented text. So the text of a report tells it from all others. -/
theorem texts_read_back (report : Report) :
    Json.parse? report.toJson.compact = some report.toJson ∧
    ofText? report.toJson.compact = some report ∧ ofText? report.toJson.pretty = some report ∧
    ∀ other : Report, (other.toJson.compact = report.toJson.compact ↔ other = report) ∧
      (other.toJson.pretty = report.toJson.pretty ↔ other = report) := by
  obtain ⟨hproper, hreads, hdepth⟩ := report.toJson_printable
  refine ⟨Json.parse?_compact hproper hreads (Nat.le_trans hdepth (by decide)),
    report.ofText?_compact_toJson, report.ofText?_pretty_toJson, fun other => ⟨?_, ?_⟩⟩
  · exact (injective_of_ofText? ofText?_compact_toJson).eq_iff
  · exact (injective_of_ofText? ofText?_pretty_toJson).eq_iff

end Report

/-! ### Documents -/

namespace Report

variable (report : Report) (limit : Option UInt64) (time schema subject : String)

/-- The fields of the document for a report. -/
theorem fields?_document : (report.document limit time schema subject).source.fields?
      ["valid", "error_count", "errors"] =
    some [.bool report.isEmpty, (countJson report.size).source,
      .array (sourceItems ((report.shown limit).map Diagnostic.toJson))] := by
  simp [document, source, sourceMembers, JsonSource.fields?, JsonSource.decodedMembers?, JsonSource.only?]

/-- The document has distinct keys in each object, its number reads back, and it nests three levels at
    most. -/
theorem document_printable : (report.document limit time schema subject).Proper ∧
    (report.document limit time schema subject).ReadsBack ∧
      (report.document limit time schema subject).depth ≤ 3 := by
  obtain ⟨hproper, hreads, hdepth⟩ := diagnostics_printable (report.shown limit)
  refine ⟨⟨?_, ?_⟩, ?_, ?_⟩
  · simp
  · exact ⟨trivial, trivial, trivial, trivial, trivial, hproper, trivial⟩
  · exact ⟨trivial, trivial, trivial, trivial, Number.readsBack_integer _, hreads, trivial⟩
  · simp only [document, countJson, depth, depthMembers]
    omega

/-- A line break is a blank. -/
theorem isBlank_of_mem_lineBreak : ∀ c ∈ "\n".toList, Token.isBlank c = true :=
  List.all_eq_true.1 (by decide)

/-- The printed document spells one tree, that of the document. -/
theorem ofText?_jsonOutput : JsonSource.ofText? (report.jsonOutput limit time schema subject) =
    some (report.document limit time schema subject).source :=
  ofText?_pretty (report.document_printable limit time schema subject).2.1 isBlank_of_mem_lineBreak

/-- The printed document is read back as a value. -/
theorem parse?_jsonOutput : Json.parse? (report.jsonOutput limit time schema subject) =
    some (report.document limit time schema subject) := by
  obtain ⟨hproper, hreads, hdepth⟩ := report.document_printable limit time schema subject
  exact parse?_pretty hproper hreads (Nat.le_trans hdepth (by decide)) isBlank_of_mem_lineBreak

end Report

end Conform
