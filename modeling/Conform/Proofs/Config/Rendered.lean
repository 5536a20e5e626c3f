/-
Module: Conform.Proofs.Config.Rendered
Purpose: The document of some settings reads back: every line of it is one statement, the statements make
  the tables of the document, and these hold the format, the count unless it is left out, and the mark for
  descriptors.
Main exports: Settings.written, Settings.render?_eq_none_iff, Settings.ofDocument?_render
-/
import Conform.Config.Document
import Conform.Config.Settings
import Conform.Proofs.Toml.Lines

namespace Conform

/-! ### Lines of the document -/

namespace Toml

open Scanner

/-- The line with the count is read as a pair. -/
theorem takes_line_count {n : Nat} (hn : n < 2 ^ 63) :
    Takes line ("max_reported = ".toList ++ Nat.toDigits 10 n ++ ['\n'])
      (some (.pair [] "max_reported" (.integer n))) := by
  intro rest
  have htext : "max_reported = ".toList ++ Nat.toDigits 10 n ++ ['\n'] ++ rest =
      "max_reported = ".toList ++ (Nat.toDigits 10 n ++ '\n' :: rest) := by
    simp only [List.append_assoc, List.singleton_append]
  have hblanks : skipBlanks (' ' :: (Nat.toDigits 10 n ++ '\n' :: rest)) =
      Nat.toDigits 10 n ++ '\n' :: rest :=
    skipBlanks_digits (fun c hc => isDigit_of_mem_toDigits_ten hc) rest
  have hpair : pair (value maxDepth) ("max_reported = ".toList ++ (Nat.toDigits 10 n ++ '\n' :: rest)) =
      some ((([], "max_reported"), .integer n), '\n' :: rest) := by
    have hkey : key ("max_reported = ".toList ++ (Nat.toDigits 10 n ++ '\n' :: rest)) =
        some (([], "max_reported"), '=' :: ' ' :: (Nat.toDigits 10 n ++ '\n' :: rest)) := rfl
    have hequals : expect '=' ('=' :: ' ' :: (Nat.toDigits 10 n ++ '\n' :: rest)) =
        some ((), ' ' :: (Nat.toDigits 10 n ++ '\n' :: rest)) := rfl
    rw [pair, hkey]
    simp only [Option.bind_eq_bind, Option.bind_some, hequals, hblanks, value_toDigits hn]
    rfl
  have hstatement : statement ("max_reported = ".toList ++ (Nat.toDigits 10 n ++ '\n' :: rest)) =
      some (.pair [] "max_reported" (.integer n), '\n' :: rest) :=
    congrArg (Option.map _) hpair
  have hfirst : skipBlanks ("max_reported = ".toList ++ (Nat.toDigits 10 n ++ '\n' :: rest)) =
      "max_reported = ".toList ++ (Nat.toDigits 10 n ++ '\n' :: rest) := rfl
  rw [htext, line, hfirst, hstatement]
  rfl

/-- The line with the format is read as a pair. -/
theorem takes_line_format (format : ReportFormat) :
    Takes line ("format = \"".toList ++ format.name.toList ++ "\"\n".toList)
      (some (.pair [] "format" (.string format.name))) := by
  cases format with
  | text => exact fun _ => rfl
  | json => exact fun _ => rfl

/-- The line with the mark for descriptors is read as a pair. -/
theorem takes_line_descriptor (descriptor : Bool) :
    Takes line ("descriptor = ".toList ++ (toString descriptor).toList ++ ['\n'])
      (some (.pair [] "descriptor" (.bool descriptor))) := by
  cases descriptor with
  | false => exact fun _ => rfl
  | true => exact fun _ => rfl

end Toml

/-! ### The document -/

namespace Settings

open Toml

/-- The lines of the document with the statements that they are read as; the count has its line unless it
    is left out. -/
def lines (settings : Settings) : List (List Char × Option Statement) :=
  ("[output]\n".toList, some (.table [] "output")) ::
    ("format = \"".toList ++ settings.format.name.toList ++ "\"\n".toList,
      some (.pair [] "format" (.string settings.format.name))) ::
    (settings.maxReported.toList.map fun n =>
      ("max_reported = ".toList ++ Nat.toDigits 10 n.toNat ++ ['\n'],
        some (.pair [] "max_reported" (.integer n.toNat)))) ++
    [(['\n'], none), ("[schema]\n".toList, some (.table [] "schema")),
      ("descriptor = ".toList ++ (toString settings.descriptor).toList ++ ['\n'],
        some (.pair [] "descriptor" (.bool settings.descriptor)))]

/-- What the document holds: the count, unless it is left out, between the format and the mark for
    descriptors. -/
def written (settings : Settings) : Entries ConfigValue :=
  [("output", .table (("format", .string settings.format.name) ::
      settings.maxReported.toList.map fun n => ("max_reported", .integer n.toNat))),
    ("schema", .table [("descriptor", .bool settings.descriptor)])]

variable {settings : Settings} {text : String}

/-- Settings make no document exactly if they have a count that does not fit. -/
theorem render?_eq_none_iff :
    settings.render? = none ↔ ∃ n, settings.maxReported = some n ∧ 2 ^ 63 ≤ n.toNat := by
  rw [render?]
  cases settings.maxReported with
  | none => simp
  | some n => simp

/-- A document with a count has one that fits. -/
theorem lt_of_render? (h : settings.render? = some text) :
    ∀ n ∈ settings.maxReported, n.toNat < 2 ^ 63 := by
  intro n hn
  apply Nat.lt_of_not_le
  intro hlarge
  rw [render?_eq_none_iff.2 ⟨n, hn, hlarge⟩] at h
  cases h

/-- The characters of the document around the line with the count. -/
theorem toList_document (limit : String) : (render?.document settings limit).toList =
    "[output]\n".toList ++ ("format = \"".toList ++ settings.format.name.toList ++ "\"\n".toList) ++
      limit.toList ++ ['\n'] ++ "[schema]\n".toList ++
      ("descriptor = ".toList ++ (toString settings.descriptor).toList ++ ['\n']) := by
  have hhead : "[output]\nformat = \"".toList = "[output]\n".toList ++ "format = \"".toList := rfl
  have htail : "\n[schema]\ndescriptor = ".toList = ['\n'] ++ "[schema]\n".toList ++
      "descriptor = ".toList := rfl
  unfold render?.document
  simp only [String.toList_append, hhead, htail, List.append_assoc]
  rfl

/-- The document is made of its lines. -/
theorem toList_of_render? (h : settings.render? = some text) :
    text.toList = (settings.lines.map Prod.fst).flatten := by
  have hfits := lt_of_render? h
  rcases settings with ⟨format, maxReported, descriptor⟩
  rw [render?] at h
  cases maxReported with
  | none =>
    rw [← Option.some.inj h, toList_document]
    simp [lines]
  | some n =>
    dsimp only at h
    rw [if_pos (hfits n rfl)] at h
    rw [← Option.some.inj h, toList_document]
    simp [lines]

/-- Each line of the document is read as its statement. -/
theorem takes_of_mem_lines (h : settings.render? = some text) :
    ∀ piece ∈ settings.lines, piece.1 ≠ [] ∧ Scanner.Takes line piece.1 piece.2 := by
  intro piece hpiece
  simp only [lines, List.mem_append, List.mem_cons, List.mem_map, Option.mem_toList, List.not_mem_nil,
    or_false] at hpiece
  rcases hpiece with (rfl | rfl | ⟨n, hn, rfl⟩) | rfl | rfl | rfl
  · exact ⟨by simp, fun _ => rfl⟩
  · exact ⟨by simp, takes_line_format settings.format⟩
  · exact ⟨by simp, takes_line_count (lt_of_render? h n hn)⟩
  · exact ⟨by simp, fun _ => rfl⟩
  · exact ⟨by simp, fun _ => rfl⟩
  · exact ⟨by simp, takes_line_descriptor settings.descriptor⟩

/-- The document is read as the statements of its lines. -/
theorem lines?_of_render? (h : settings.render? = some text) :
    lines? text.toList = some (settings.lines.filterMap Prod.snd) := by
  have hmany : Scanner.many line text.toList = (settings.lines.map Prod.snd, []) := by
    rw [toList_of_render? h, Scanner.many_flatten (takes_of_mem_lines h)]
  have hmark : ∀ rest, text.toList ≠ '\ufeff' :: rest := by
    intro rest heq
    rw [toList_of_render? h, lines] at heq
    exact absurd (List.cons.inj heq).1 (by decide)
  rw [lines?]
  · simp [hmany]
  · exact hmark

/-- The document reads back. -/
theorem ofDocument?_render (h : settings.render? = some text) :
    ConfigValue.ofDocument? text = some settings.written := by
  rw [ConfigValue.ofDocument?, parse?, lines?_of_render? h]
  rcases settings with ⟨format, maxReported, descriptor⟩
  cases maxReported with
  | none => rfl
  | some n => rfl

end Settings

end Conform
