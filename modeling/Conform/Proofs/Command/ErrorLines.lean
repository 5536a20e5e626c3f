/-
Module: Conform.Proofs.Command.ErrorLines
Purpose: What the command writes to its error output. In text format there is a line for each diagnostic
  that is shown and one for those that are not, and a reference error has one line. Only line breaks in
  names of members, single type names and references add lines; values never do.
Main exports: shownCount, errorLines, Command.run_text_lines
-/
import Conform.Proofs.Check.Walk
import Conform.Proofs.Command.Loaded
import Conform.Proofs.Report.Lines

namespace Conform

/-! ### Lines shown -/

/-- How many of a number of diagnostics are shown. -/
def shownCount : Option UInt64 → Nat → Nat
  | none, n => n
  | some limit, n => min limit.toNat n

/-- The lines about findings: one for each that is shown, and one that counts the others if
    there are any. -/
def errorLines (limit : Option UInt64) (findings : List Finding) : List String :=
  (findings.take (shownCount limit findings.length)).map
      (fun f => "schema validation error: " ++ f.diagnostic.text) ++
    if shownCount limit findings.length < findings.length then
      ["(" ++ toString (findings.length - shownCount limit findings.length) ++
        " more diagnostics not shown)"]
    else []

section Shown

variable (limit : Option UInt64) (findings : List Finding)

/-- A limited report shows its first diagnostics. -/
theorem shown_eq_take (report : Report) :
    report.shown limit = report.items.take (shownCount limit report.size) := by
  cases limit with
  | none => rw [Report.shown, shownCount, Report.size, List.take_length]
  | some cap => rw [Report.shown, shownCount, Report.size, ← List.take_eq_take_min]

/-- A limited report on findings shows the first of them. -/
theorem shown_append : (Report.empty.append findings).shown limit =
    (findings.take (shownCount limit findings.length)).map Finding.diagnostic := by
  rw [shown_eq_take, Report.size, Report.items_append, Report.items_empty, List.nil_append,
    List.length_map, List.map_take]

theorem shownCount_le (n : Nat) : shownCount limit n ≤ n := by
  cases limit with
  | none => exact Nat.le_refl n
  | some cap => exact Nat.min_le_right _ _

/-- The lines of the text output are those about the findings. -/
theorem textLines_append :
    (Report.empty.append findings).textLines limit = errorLines limit findings := by
  have hshown : ((findings.take (shownCount limit findings.length)).map Finding.diagnostic).length =
      shownCount limit findings.length := by
    rw [List.length_map, List.length_take, Nat.min_eq_left (shownCount_le limit _)]
  have hsize : (Report.empty.append findings).size = findings.length := by simp [Report.size]
  have hhidden : (Report.empty.append findings).hidden limit =
      findings.length - shownCount limit findings.length := by
    rw [Report.hidden, shown_append, hshown, hsize]
  rw [Report.textLines, shown_append, hhidden, errorLines, List.map_map]
  congr 1
  simp only [Nat.sub_pos_iff_lt]

/-- There is a line for each finding that is shown, and one more if some are not. -/
theorem length_errorLines : (errorLines limit findings).length = shownCount limit findings.length +
    if shownCount limit findings.length < findings.length then 1 else 0 := by
  rw [errorLines, List.length_append, List.length_map, List.length_take,
    Nat.min_eq_left (shownCount_le limit _)]
  split <;> rfl

/-- The line breaks of the lines about findings are those of the texts that they show as they are. -/
theorem lineBreaks_join_errorLines : lineBreaks (String.join (errorLines limit findings)) =
    lineBreaks (String.join
      ((findings.take (shownCount limit findings.length)).flatMap Finding.verbatim)) := by
  have hword : lineBreaks "schema validation error: " = 0 := by decide +kernel
  have hnote : ∀ n : Nat, lineBreaks ("(" ++ toString n ++ " more diagnostics not shown)") = 0 := by
    intro n
    have hwords : lineBreaks "(" = 0 ∧ lineBreaks " more diagnostics not shown)" = 0 := by decide +kernel
    rw [lineBreaks_append, lineBreaks_append, hwords.1, hwords.2, lineBreaks_toString]
  have hlines : ∀ shown : List Finding,
      lineBreaks (String.join (shown.map fun f => "schema validation error: " ++ f.diagnostic.text)) =
        lineBreaks (String.join (shown.map fun f => f.diagnostic.text)) := by
    intro shown
    induction shown with
    | nil => rfl
    | cons f rest ih =>
      rw [List.map_cons, String.join_cons, lineBreaks_append, lineBreaks_append, hword, ih, List.map_cons,
        String.join_cons, lineBreaks_append, Nat.zero_add]
  rw [errorLines, String.join_append, lineBreaks_append, hlines, lineBreaks_join_text]
  split
  · rw [String.join_cons, lineBreaks_append, hnote]
    rfl
  · rfl

/-- What is written about findings has a line for each that is shown, one more if some are not, and one
    more for each line break in the texts that are shown as they are. -/
theorem length_linesOf_errorLines :
    (linesOf (String.join ((errorLines limit findings).map (· ++ "\n")))).length =
      shownCount limit findings.length +
        (if shownCount limit findings.length < findings.length then 1 else 0) +
        lineBreaks (String.join
          ((findings.take (shownCount limit findings.length)).flatMap Finding.verbatim)) := by
  rw [length_linesOf_join, lineBreaks_join_errorLines, length_errorLines]

/-- Without such line breaks the lines are those about the findings. -/
theorem linesOf_errorLines (h : ∀ text ∈ (findings.take (shownCount limit findings.length)).flatMap
      Finding.verbatim, lineBreaks text = 0) :
    linesOf (String.join ((errorLines limit findings).map (· ++ "\n"))) = errorLines limit findings := by
  refine linesOf_join_of_unbroken (lineBreaks_join_eq_zero_iff.1 ?_)
  rw [lineBreaks_join_errorLines]
  exact lineBreaks_join_eq_zero_iff.2 h

end Shown

/-! ### Lines of a run -/

namespace Command

section Outputs

variable {time : String} {arguments : Arguments} {settings : Settings} {schema value : Json}

/-- In text format, the lines about what a check finds go to the error output. -/
theorem stderr_outputs_of_ok {report : Report} (htext : settings.format = .text)
    (hcheck : check schema value = .ok report) :
    (outputs time arguments (.ok (settings, schema, value))).stderr = String.join
      ((errorLines settings.maxReported (visit schema schema .whole value).findings).map
        (· ++ "\n")) := by
  rw [outputs, judged, hcheck]
  dsimp only
  rw [reported, htext, (check_eq_ok_iff.1 hcheck).2, ← textLines_append]
  rfl

/-- A reference error is written to the error output. -/
theorem stderr_outputs_of_error {e : ReferenceError} (hcheck : check schema value = .error e) :
    (outputs time arguments (.ok (settings, schema, value))).stderr =
      String.join (["schema error: " ++ e.message].map (· ++ "\n")) := by
  rw [outputs, judged, hcheck]
  dsimp only
  rw [failed, Failure.message_reference]
  rfl

end Outputs

/-- What is written about a reference error is one line, and one more for each line break in the
    references; without such line breaks it is the line about the error. -/
theorem linesOf_errorLine (e : ReferenceError) :
    (linesOf (String.join (["schema error: " ++ e.message].map (· ++ "\n")))).length =
        1 + lineBreaks (String.join e.verbatim) ∧
      ((∀ text ∈ e.verbatim, lineBreaks text = 0) →
        linesOf (String.join (["schema error: " ++ e.message].map (· ++ "\n"))) =
          ["schema error: " ++ e.message]) := by
  have hbreaks : lineBreaks ("schema error: " ++ e.message) = lineBreaks (String.join e.verbatim) := by
    have hword : lineBreaks "schema error: " = 0 := by decide +kernel
    rw [lineBreaks_append, hword, e.lineBreaks_message, Nat.zero_add]
  refine ⟨?_, fun hunbroken => linesOf_join_of_unbroken fun text htext => ?_⟩
  · rw [length_linesOf_join, String.join_cons, lineBreaks_append, hbreaks]
    rfl
  · rw [List.mem_singleton.1 htext, hbreaks]
    exact lineBreaks_join_eq_zero_iff.2 hunbroken

/-- In text format, a run whose documents load writes to its error output a line for each diagnostic that
    is shown, one that counts the others if there are any, and one more for each line break in the names
    of members and the single type names that the shown diagnostics are written with; a run that ends in a
    reference error writes one line, and one more for each line break in the references. Without such line
    breaks the lines are those about the findings, or the one about the error. The text of a report has a
    line for each diagnostic and one more for each such line break. -/
theorem run_text_lines {input : StateM Tree ByteArray} {environment : Environment} {time : String}
    {line : List String} {arguments : Arguments} {tree after : Tree} {settings : Settings}
    {schema value : Json}
    (hline : parseArguments line = .run arguments)
    (hloaded : (loaded input environment arguments).run tree = (.ok (settings, schema, value), after))
    (htext : settings.format = .text) :
    let stderr := ((Command.run input environment time line).run tree).1.stderr
    let findings := (visit schema schema .whole value).findings
    let count := shownCount settings.maxReported findings.length
    let verbatim := (findings.take count).flatMap Finding.verbatim
    (∀ report, check schema value = .ok report →
      report.items = findings.map Finding.diagnostic ∧
      (linesOf stderr).length = count + (if count < findings.length then 1 else 0) +
        lineBreaks (String.join verbatim) ∧
      ((∀ text ∈ verbatim, lineBreaks text = 0) →
        linesOf stderr = errorLines settings.maxReported findings) ∧
      (linesOf report.text).length =
        findings.length + lineBreaks (String.join (findings.flatMap Finding.verbatim))) ∧
    ∀ e, check schema value = .error e →
      (linesOf stderr).length = 1 + lineBreaks (String.join e.verbatim) ∧
      ((∀ text ∈ e.verbatim, lineBreaks text = 0) →
        linesOf stderr = ["schema error: " ++ e.message]) := by
  intro stderr findings count verbatim
  have hrun : stderr = (outputs time arguments (.ok (settings, schema, value))).stderr :=
    congrArg (fun result => result.1.stderr) (run_of_loaded hline hloaded)
  refine ⟨fun report hcheck => ?_, fun e hcheck => ?_⟩
  · have hreport := (check_eq_ok_iff.1 hcheck).2
    rw [hrun, stderr_outputs_of_ok htext hcheck]
    refine ⟨?_, length_linesOf_errorLines settings.maxReported findings,
      linesOf_errorLines settings.maxReported findings, ?_⟩
    · rw [hreport, Report.items_append, Report.items_empty, List.nil_append]
    · rw [hreport, length_linesOf_report]
  · rw [hrun, stderr_outputs_of_error hcheck]
    exact linesOf_errorLine e

/-- A run that shows one of two diagnostics: the value in the first has a line break, which is printed as
    an escape, so there is one line for it and one that counts the other diagnostic. -/
theorem run_text_lines_limited :
    let schema : Json := .object [("const", .string "x\ny"), ("required", .array [.string "a"])]
    let tree : Tree := ⟨[(["s.json"], .file schema.compact.toUTF8),
      (["v.json"], .file "\x7b\x7d".toUTF8)], []⟩
    let made : StateM Tree Outputs :=
      Command.run (pure .empty) {} "" ["s.json", "v.json", "--max-reported", "1"]
    linesOf (made.run tree).1.stderr =
      ["schema validation error: $: expected const \"x\\ny\", got \x7b\x7d",
        "(1 more diagnostics not shown)"] := by
  intro schema tree made
  have hline : parseArguments ["s.json", "v.json", "--max-reported", "1"] =
      .run ⟨"s.json", "v.json", none, some 1, none, false⟩ := by decide +kernel
  let load : StateM Tree _ := loaded (pure .empty) {} ⟨"s.json", "v.json", none, some 1, none, false⟩
  have htexts : texts? (load.run tree).1 =
      some (⟨.text, some 1, false⟩, schema.compact, (Json.object []).compact) := by decide +kernel
  have hloaded : load.run tree = (.ok (⟨.text, some 1, false⟩, schema, .object []), (load.run tree).2) :=
    Prod.ext (eq_ok_of_texts? htexts) rfl
  have hends : (visit schema schema .whole (.object [])).failure = none := by decide +kernel
  obtain ⟨-, -, hlines, -⟩ :=
    (@run_text_lines _ _ "" _ _ _ _ _ _ _ hline hloaded rfl).1 _ (check_eq_ok_iff.2 ⟨hends, rfl⟩)
  exact (hlines (by decide +kernel)).trans (by decide +kernel)

/-- A missing member whose name has a line break: there is one diagnostic, but two lines in the error
    output and in the text of the report. A reference with a line break is written on three lines. -/
theorem run_text_lines_split :
    let schema : Json := .object [("required", .array [.string "a\nb"])]
    let referring : Json := .object [("$ref", .string "#/a\nb")]
    let tree : Tree := ⟨[(["s.json"], .file schema.compact.toUTF8),
      (["r.json"], .file referring.compact.toUTF8), (["v.json"], .file "\x7b\x7d".toUTF8)], []⟩
    let made : StateM Tree Outputs := Command.run (pure .empty) {} "" ["s.json", "v.json"]
    let failed : StateM Tree Outputs := Command.run (pure .empty) {} "" ["r.json", "v.json"]
    let report : Report := ⟨[⟨"$.a\nb", .missingRequired, "missing required property"⟩]⟩
    check schema (.object []) = .ok report ∧
      (made.run tree).1.stderr = "schema validation error: $.a\nb: missing required property\n" ∧
      linesOf (made.run tree).1.stderr =
        ["schema validation error: $.a", "b: missing required property"] ∧
      linesOf report.text = ["$.a", "b: missing required property"] ∧
      linesOf (failed.run tree).1.stderr =
        ["schema error: $ref path '#/a", "b' segment 'a", "b' missing from schema"] := by
  intro schema referring tree made failed report
  exact ⟨check_eq_ok_iff.2 (by decide +kernel), by decide +kernel, by decide +kernel, by decide +kernel,
    by decide +kernel⟩

end Command

end Conform
