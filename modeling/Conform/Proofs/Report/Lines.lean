/-
Module: Conform.Proofs.Report.Lines
Purpose: Lines of a report. A diagnostic is written on one line, but for the texts that its line shows as
  they are: names of members on the way to the place, and a type name that stands alone. Each line break
  in such a text adds a line. Values and lists of type names are printed as compact JSON, which has no
  line break.
Main exports: linesOf, lineBreaks, length_linesOf_join, linesOf_join_of_unbroken, Finding.verbatim,
  ReferenceError.verbatim, Finding.lineBreaks_text, ReferenceError.lineBreaks_message
-/
import Conform.Command.Output
import Conform.Proofs.Json.Text
import Conform.Schema.Reference

namespace Conform

/-! ### Lines of a text -/

/-- The pieces of a text between its line breaks. -/
def piecesOf (text : String) : List String := (text.toList.splitOn '\n').map String.ofList

/-- The lines of a text. A line break ends a line, and behind the last one there is no line if there is no
    text. -/
def linesOf (text : String) : List String :=
  if (piecesOf text).getLast? = some "" then (piecesOf text).dropLast else piecesOf text

/-- How many line breaks a text has. -/
def lineBreaks (text : String) : Nat := text.toList.count '\n'

@[simp] theorem lineBreaks_empty : lineBreaks "" = 0 := rfl

@[simp] theorem lineBreaks_append (first second : String) :
    lineBreaks (first ++ second) = lineBreaks first + lineBreaks second := by
  simp [lineBreaks]

theorem lineBreaks_join_eq_zero_iff {texts : List String} :
    lineBreaks (String.join texts) = 0 ↔ ∀ text ∈ texts, lineBreaks text = 0 := by
  induction texts with
  | nil => simp
  | cons text rest ih =>
    rw [String.join_cons, lineBreaks_append, Nat.add_eq_zero_iff, ih, List.forall_mem_cons]

/-- The line breaks of texts with a separator between them. -/
theorem lineBreaks_intercalate {separator : String} (h : lineBreaks separator = 0) :
    ∀ texts : List String, lineBreaks (separator.intercalate texts) = lineBreaks (String.join texts)
  | [] => rfl
  | [text] => by simp
  | text :: next :: rest => by
    rw [String.intercalate_cons_cons, lineBreaks_append, lineBreaks_append, h,
      lineBreaks_intercalate h (next :: rest), Nat.add_zero, String.join_cons (s := text),
      lineBreaks_append]

/-- A text with a line break behind it: the pieces of the text come first. -/
theorem piecesOf_append_newline (text rest : String) :
    piecesOf (text ++ "\n" ++ rest) = piecesOf text ++ piecesOf rest := by
  have hchars : (text ++ "\n" ++ rest).toList = text.toList ++ '\n' :: rest.toList := by simp
  rw [piecesOf, hchars, List.splitOn_append_cons_self, List.map_append]
  rfl

/-- A text without line breaks is one piece. -/
theorem piecesOf_of_unbroken {text : String} (h : lineBreaks text = 0) : piecesOf text = [text] := by
  rw [piecesOf, List.splitOn_eq_singleton (List.count_eq_zero.1 h)]
  simp

/-- A text has one piece more than it has line breaks. -/
theorem length_piecesOf (text : String) : (piecesOf text).length = lineBreaks text + 1 := by
  rw [piecesOf, lineBreaks, List.length_map]
  induction text.toList with
  | nil => rfl
  | cons c rest ih =>
    rw [List.splitOn_cons_eq_if_modifyHead, List.count_cons]
    by_cases hc : (c == '\n') = true <;> simp [hc, ih]

/-- The lines of texts that are written with a line break behind each are their pieces. -/
theorem linesOf_join (texts : List String) :
    linesOf (String.join (texts.map (· ++ "\n"))) = texts.flatMap piecesOf := by
  have hpieces : piecesOf (String.join (texts.map (· ++ "\n"))) = texts.flatMap piecesOf ++ [""] := by
    induction texts with
    | nil => rfl
    | cons text rest ih =>
      rw [List.map_cons, String.join_cons, piecesOf_append_newline, ih, List.flatMap_cons,
        List.append_assoc]
  rw [linesOf, hpieces]
  simp

/-- There is a line for each text, and one more for each line break in them. -/
theorem length_linesOf_join (texts : List String) :
    (linesOf (String.join (texts.map (· ++ "\n")))).length =
      texts.length + lineBreaks (String.join texts) := by
  rw [linesOf_join]
  induction texts with
  | nil => rfl
  | cons text rest ih =>
    rw [List.flatMap_cons, List.length_append, ih, length_piecesOf, String.join_cons, lineBreaks_append,
      List.length_cons]
    omega

/-- Without line breaks in them, the texts are the lines. -/
theorem linesOf_join_of_unbroken {texts : List String} (h : ∀ text ∈ texts, lineBreaks text = 0) :
    linesOf (String.join (texts.map (· ++ "\n"))) = texts := by
  rw [linesOf_join, List.flatMap_congr fun text htext => piecesOf_of_unbroken (h text htext)]
  simp

/-! ### Printed values -/

namespace Json

/-- A line break is escaped. -/
theorem newline_not_mem_escape (c : Char) : '\n' ∉ escape c := by
  have hdigit : ∀ m < 16, '\n' ≠ m.digitChar := by decide
  rw [escape]
  split_ifs with h1 h2 h3 h4 h5 h6 h7 h8
  · decide
  · decide
  · decide
  · decide
  · decide
  · decide
  · decide
  · have hhigh := hdigit (c.toNat / 16) (by omega)
    have hlow := hdigit (c.toNat % 16) (by omega)
    simp [hhigh, hlow]
  · simpa using fun h => h5 h.symm

theorem newline_not_mem_quoted (s : String) : '\n' ∉ quoted s := by
  simp [quoted, newline_not_mem_escape]

mutual

/-- The compact form of a value has no line break. -/
theorem newline_not_mem_chars : ∀ v : Json, '\n' ∉ v.chars
  | .null => by decide
  | .bool true => by decide
  | .bool false => by decide
  | .number n => fun h => absurd (Number.isNumeric_of_mem_text n _ h) (by decide)
  | .string s => newline_not_mem_quoted s
  | .array [] => by decide
  | .array (item :: rest) => by
    simp [chars, newline_not_mem_chars item, newline_not_mem_itemsTail rest]
  | .object [] => by decide
  | .object ((key, value) :: rest) => by
    simp [chars, newline_not_mem_quoted key, newline_not_mem_chars value,
      newline_not_mem_membersTail rest]

theorem newline_not_mem_itemsTail : ∀ items : List Json, '\n' ∉ itemsTail items
  | [] => by decide
  | item :: rest => by
    simp [itemsTail, newline_not_mem_chars item, newline_not_mem_itemsTail rest]

theorem newline_not_mem_membersTail : ∀ members : List (String × Json), '\n' ∉ membersTail members
  | [] => by decide
  | (key, value) :: rest => by
    simp [membersTail, newline_not_mem_quoted key, newline_not_mem_chars value,
      newline_not_mem_membersTail rest]

end

@[simp] theorem lineBreaks_compact (v : Json) : lineBreaks v.compact = 0 := by
  rw [lineBreaks, compact, String.toList_ofList]
  exact List.count_eq_zero.2 (newline_not_mem_chars v)

@[simp] theorem lineBreaks_compactList (items : List Json) : lineBreaks (compactList items) = 0 :=
  lineBreaks_compact (.array items)

end Json

theorem lineBreaks_toString (n : Nat) : lineBreaks (toString n) = 0 := by
  rw [lineBreaks, Nat.toString_eq_repr, Nat.toList_repr]
  exact List.count_eq_zero.2 fun h => absurd (isDigit_of_mem_toDigits_ten h) (by decide)

@[simp] theorem Kind.lineBreaks_name (kind : Kind) : lineBreaks kind.name = 0 := by
  cases kind <;> decide

/-! ### Lines of diagnostics -/

/-- The names of members on the way to a place. -/
def Location.names : Location → List String
  | .whole => []
  | .member parent key => parent.names ++ [key]
  | .element parent _ => parent.names

/-- The type name that a message shows as it is: a single one, not a list. -/
def Violation.typeName? : Violation → Option String
  | .typeMismatch ⟨.string name⟩ _ => some name
  | _ => none

/-- The texts that the line of a finding shows as they are. -/
def Finding.verbatim (f : Finding) : List String := f.location.names ++ f.violation.typeName?.toList

/-- The line breaks of a place are those of the names on the way. -/
theorem Location.lineBreaks_text (place : Location) :
    lineBreaks place.text = lineBreaks (String.join place.names) := by
  induction place with
  | whole => rfl
  | member parent key ih =>
    have hdot : lineBreaks "." = 0 := by decide
    simp [text, names, ih, hdot]
  | element parent i ih =>
    have hbrackets : lineBreaks "[" = 0 ∧ lineBreaks "]" = 0 := by decide
    rw [text, lineBreaks_append, lineBreaks_append, lineBreaks_append, lineBreaks_toString, ih,
      hbrackets.1, hbrackets.2]
    rfl

/-- A declaration shows a single type name as it is. -/
theorem TypeDeclaration.lineBreaks_text (expected : TypeDeclaration) (found : Kind) :
    lineBreaks expected.text =
      lineBreaks (String.join (Violation.typeMismatch expected found).typeName?.toList) := by
  rcases expected with ⟨written⟩
  cases written with
  | string name => simp [text, Violation.typeName?]
  | _ => exact Json.lineBreaks_compact _

/-- The line breaks of a message are those of a single type name. -/
theorem Violation.lineBreaks_message (violation : Violation) :
    lineBreaks violation.message = lineBreaks (String.join violation.typeName?.toList) := by
  have hgot : lineBreaks ", got " = 0 := by decide +kernel
  cases violation with
  | typeMismatch expected found =>
    have hmessage : (typeMismatch expected found).message =
        "expected type " ++ expected.text ++ ", got " ++ found.name := rfl
    have hwords : lineBreaks "expected type " = 0 := by decide +kernel
    rw [hmessage, ← expected.lineBreaks_text found]
    simp [hwords, hgot]
  | constMismatch expected found =>
    have hmessage : (constMismatch expected found).message =
        "expected const " ++ expected.compact ++ ", got " ++ found.compact := rfl
    have hwords : lineBreaks "expected const " = 0 := by decide +kernel
    simp [hmessage, typeName?, hwords, hgot]
  | enumMismatch allowed found =>
    have hmessage : (enumMismatch allowed found).message =
        "expected one of " ++ Json.compactList allowed ++ ", got " ++ found.compact := rfl
    have hwords : lineBreaks "expected one of " = 0 := by decide +kernel
    simp [hmessage, typeName?, hwords, hgot]
  | notAnObject found =>
    have hmessage : (notAnObject found).message = "expected object, got " ++ found.name := rfl
    have hwords : lineBreaks "expected object, got " = 0 := by decide +kernel
    simp [hmessage, typeName?, hwords]
  | notAnArray found =>
    have hmessage : (notAnArray found).message = "expected array, got " ++ found.name := rfl
    have hwords : lineBreaks "expected array, got " = 0 := by decide +kernel
    simp [hmessage, typeName?, hwords]
  | missingRequired | additionalProperty | duplicateItem => decide +kernel

/-- The line breaks of a line about a finding are those of the texts that it shows as they are. -/
theorem Finding.lineBreaks_text (f : Finding) :
    lineBreaks f.diagnostic.text = lineBreaks (String.join f.verbatim) := by
  have hcolon : lineBreaks ": " = 0 := by decide
  simp [Diagnostic.text, Finding.diagnostic, verbatim, Location.lineBreaks_text,
    Violation.lineBreaks_message, hcolon]

/-- The line breaks of the lines about findings are those of the texts that they show as they are. -/
theorem lineBreaks_join_text (findings : List Finding) :
    lineBreaks (String.join (findings.map fun f => f.diagnostic.text)) =
      lineBreaks (String.join (findings.flatMap Finding.verbatim)) := by
  induction findings with
  | nil => rfl
  | cons f rest ih =>
    rw [List.map_cons, String.join_cons, lineBreaks_append, ih, f.lineBreaks_text, List.flatMap_cons,
      String.join_append, lineBreaks_append]

/-- A report has a line for each diagnostic, and one more for each line break in the texts that are shown
    as they are. -/
theorem length_linesOf_report (findings : List Finding) :
    (linesOf (Report.empty.append findings).text).length =
      findings.length + lineBreaks (String.join (findings.flatMap Finding.verbatim)) := by
  have hlines : (Report.empty.append findings).lines = findings.map fun f => f.diagnostic.text := by
    simp only [Report.lines, Report.items_append, Report.items_empty, List.nil_append, List.map_map]
    rfl
  rw [Report.text, hlines, length_linesOf_join, lineBreaks_join_text, List.length_map]

/-! ### Lines of reference errors -/

namespace ReferenceError

/-- The texts that the line of a reference error shows as they are. -/
def verbatim : ReferenceError → List String
  | .notLocal reference => [reference]
  | .missingKey reference key => [reference, key]
  | .notAnObject reference => [reference]
  | .cycle chain => chain

/-- The line breaks of a reference error are those of the references that it shows. -/
theorem lineBreaks_message (e : ReferenceError) :
    lineBreaks e.message = lineBreaks (String.join e.verbatim) := by
  cases e with
  | notLocal reference =>
    have hmessage : (notLocal reference).message = "unsupported $ref target: " ++ reference := rfl
    have hwords : lineBreaks "unsupported $ref target: " = 0 := by decide +kernel
    simp [hmessage, verbatim, hwords]
  | missingKey reference key =>
    have hmessage : (missingKey reference key).message =
        "$ref path '" ++ reference ++ "' segment '" ++ key ++ "' missing from schema" := rfl
    have hwords : lineBreaks "$ref path '" = 0 ∧ lineBreaks "' segment '" = 0 ∧
        lineBreaks "' missing from schema" = 0 := by decide +kernel
    simp [hmessage, verbatim, hwords]
  | notAnObject reference =>
    have hmessage : (notAnObject reference).message =
        "$ref '" ++ reference ++ "' does not resolve to an object" := rfl
    have hwords : lineBreaks "$ref '" = 0 ∧ lineBreaks "' does not resolve to an object" = 0 := by
      decide +kernel
    simp [hmessage, verbatim, hwords]
  | cycle chain =>
    have hmessage : (cycle chain).message = "cyclic $ref chain: " ++ " -> ".intercalate chain := rfl
    have hwords : lineBreaks "cyclic $ref chain: " = 0 := by decide +kernel
    rw [hmessage, lineBreaks_append, hwords, lineBreaks_intercalate (by decide) chain, Nat.zero_add]
    rfl

end ReferenceError

end Conform
