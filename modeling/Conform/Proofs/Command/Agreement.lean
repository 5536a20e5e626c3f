/-
Module: Conform.Proofs.Command.Agreement
Purpose: The two ways of showing a report agree. The lines of text and the JSON document show the same
  first diagnostics, and both tell how many there are. The document is read back from the text that is
  printed, whatever characters stand in paths and messages. A larger limit shows the same diagnostics and
  more.
Main exports: NoSmaller, Report.textLines_eq, Report.value?_countJson, Command.reported_agree
-/
import Conform.Proofs.Command.ErrorLines
import Conform.Proofs.Report.Serial

namespace Conform

/-! ### Limits -/

/-- A limit is at least another. No limit is the largest. -/
def NoSmaller (larger limit : Option UInt64) : Prop := ∀ n, larger = some n → ∃ m, limit = some m ∧ m ≤ n

/-- A larger limit shows no fewer diagnostics. -/
theorem shownCount_mono {limit larger : Option UInt64} (h : NoSmaller larger limit) (n : Nat) :
    shownCount limit n ≤ shownCount larger n := by
  cases larger with
  | none => exact shownCount_le limit n
  | some most =>
    obtain ⟨m, rfl, hle⟩ := h most rfl
    have hnat : m.toNat ≤ most.toNat := UInt64.le_iff_toNat_le.1 hle
    exact Nat.le_min.2 ⟨Nat.le_trans (Nat.min_le_left _ _) hnat, Nat.min_le_right _ _⟩

namespace Report

variable (report : Report) (limit : Option UInt64)

/-- The text has a line for each diagnostic that is shown, and one that counts the others if there are
    any. -/
theorem textLines_eq : report.textLines limit =
    (report.items.take (shownCount limit report.size)).map
      (fun d => "schema validation error: " ++ d.text) ++
      if 0 < report.size - shownCount limit report.size then
        ["(" ++ toString (report.size - shownCount limit report.size) ++ " more diagnostics not shown)"]
      else [] := by
  have hlength : (report.shown limit).length = shownCount limit report.size := by
    rw [shown_eq_take, List.length_take]
    exact Nat.min_eq_left (shownCount_le limit report.size)
  rw [textLines, hidden, hlength, shown_eq_take]

/-- The number that counts the diagnostics is printed and read back. It is the count, as long as that fits
    a word. -/
theorem value?_countJson (n : Nat) : ∃ count : Integer64,
    (countJson n).source.value? = some (.number (.integer count)) ∧ (n < 2 ^ 64 → count.value = n) := by
  refine ⟨⟨min n (2 ^ 64 - 1), by omega, by omega⟩, ?_, ?_⟩
  · exact Json.toJson?_source (countJson n) trivial (Number.readsBack_integer _) (Nat.zero_le _)
  · intro hfits
    simp only
    omega

end Report

namespace Command

/-- For every report and every limit the two ways of showing it agree. The first diagnostics up to the
    limit are shown, never more than there are; those that are left out are counted.

    As text, the error output has a line for each of them and one with the count of the others if there
    are any. As JSON, the standard output is one document; its errors are read back, one by one, as the
    same diagnostics, its count is that of all diagnostics, and it is valid exactly for an empty report. A
    larger limit shows the same diagnostics and more. -/
theorem reported_agree (report : Report) (limit : Option UInt64) (descriptor : Bool)
    (time schema subject : String) :
    let count := shownCount limit report.size
    let shown := report.items.take count
    let left := report.size - count
    let text := reported ⟨.text, limit, descriptor⟩ report time schema subject
    let json := reported ⟨.json, limit, descriptor⟩ report time schema subject
    (shown.length = count ∧ count + left = report.size) ∧
    (text.stdout = "" ∧ text.stderr = String.join
      ((shown.map (fun d => "schema validation error: " ++ d.text) ++
        if 0 < left then ["(" ++ toString left ++ " more diagnostics not shown)"] else []).map
          (· ++ "\n"))) ∧
    (json.stderr = "" ∧ Json.parse? json.stdout = some (report.document limit time schema subject) ∧
      ∃ source valid total errors, JsonSource.ofText? json.stdout = some source ∧
        source.fields? ["valid", "error_count", "errors"] = some [valid, total, .array errors] ∧
        errors.length = count ∧ errors.mapM JsonSource.diagnostic? = some shown ∧
        (∃ b, valid.value? = some (.bool b) ∧ (b = true ↔ report.items = [])) ∧
        ∃ n : Integer64, total.value? = some (.number (.integer n)) ∧
          (report.size < 2 ^ 64 → n.value = report.size)) ∧
    ∀ larger, NoSmaller larger limit → shown <+: report.items.take (shownCount larger report.size) := by
  intro count shown left text json
  have hle : count ≤ report.size := shownCount_le limit report.size
  have hshown : report.shown limit = shown := shown_eq_take limit report
  have hlength : shown.length = count := by
    rw [List.length_take]
    exact Nat.min_eq_left hle
  refine ⟨⟨hlength, Nat.add_sub_of_le hle⟩, ⟨rfl, ?_⟩, ⟨rfl, ?_, ?_⟩, ?_⟩
  · change String.join ((report.textLines limit).map (· ++ "\n")) = _
    rw [report.textLines_eq limit]
  · exact report.parse?_jsonOutput limit time schema subject
  · refine ⟨_, _, _, _, report.ofText?_jsonOutput limit time schema subject,
      report.fields?_document limit time schema subject, ?_, ?_, ⟨report.isEmpty, rfl, ?_⟩,
      Report.value?_countJson report.size⟩
    · rw [Json.length_sourceItems, List.length_map, hshown, hlength]
    · rw [JsonSource.mapM_diagnostic?_source, hshown]
    · exact List.isEmpty_iff
  · intro larger hlarger
    exact List.take_prefix_take_left (shownCount_mono hlarger report.size)

end Command

end Conform
