/-
Module: Conform.Proofs.Toml.Lines
Purpose: Reading TOML text line by line. A scanner that takes a piece of text from the front, whatever
  stands behind the piece, reads any number of such pieces in a row; decimal digits at the end of a line
  are read as the number they spell.
Main exports: Scanner.Takes, Scanner.many_flatten, Toml.integer?_toDigits, Toml.value_toDigits
-/
import Conform.Proofs.Numeric.DoubleText
import Conform.Toml.Document

namespace Conform

/-- A digit is no character that is not a digit. -/
theorem ne_of_isDigit {c mark : Char} (hc : c.isDigit = true) (hmark : mark.isDigit = false) :
    c ≠ mark := by
  rintro rfl
  rw [hc] at hmark
  cases hmark

/-! ### Pieces of text -/

namespace Scanner

variable {α : Type} {scan : Scanner α}

/-- The scanner takes exactly this piece from the front of a text, whatever stands behind it. -/
def Takes (scan : Scanner α) (piece : List Char) (a : α) : Prop :=
  ∀ rest, scan (piece ++ rest) = some (a, rest)

/-- Pieces in a row are read one by one, as long as the bound has a character for each of them. -/
theorem manyWithin_flatten {pieces : List (List Char × α)} {bound : List Char}
    (htakes : ∀ piece ∈ pieces, piece.1 ≠ [] ∧ scan.Takes piece.1 piece.2)
    (hbound : pieces.length ≤ bound.length) :
    manyWithin scan bound (pieces.map Prod.fst).flatten = (pieces.map Prod.snd, []) := by
  induction pieces generalizing bound with
  | nil => cases bound <;> rfl
  | cons piece pieces ih =>
    rcases piece with ⟨text, a⟩
    obtain ⟨⟨hne, hscan⟩, hrest⟩ := List.forall_mem_cons.1 htakes
    obtain ⟨c, cs, rfl⟩ := List.exists_cons_of_ne_nil hne
    cases bound with
    | nil => cases hbound
    | cons b bound =>
      have hmore := ih hrest (Nat.le_of_succ_le_succ hbound)
      have hfirst := hscan (pieces.map Prod.fst).flatten
      rw [List.map_cons, List.flatten_cons, List.cons_append, manyWithin, ← List.cons_append, hfirst]
      · simp only [hmore, List.map_cons]
      · exact List.cons_ne_nil _ _

/-- Pieces that are not empty are no more than their characters. -/
theorem length_le_length_flatten {pieces : List (List Char × α)} (hne : ∀ piece ∈ pieces, piece.1 ≠ []) :
    pieces.length ≤ (pieces.map Prod.fst).flatten.length := by
  induction pieces with
  | nil => exact Nat.zero_le _
  | cons piece pieces ih =>
    obtain ⟨hpiece, hrest⟩ := List.forall_mem_cons.1 hne
    have hfirst : 0 < piece.1.length := List.length_pos_iff.2 hpiece
    have hmore := ih hrest
    rw [List.map_cons, List.flatten_cons, List.length_append, List.length_cons]
    omega

/-- Pieces in a row are read one by one. -/
theorem many_flatten {pieces : List (List Char × α)}
    (htakes : ∀ piece ∈ pieces, piece.1 ≠ [] ∧ scan.Takes piece.1 piece.2) :
    many scan (pieces.map Prod.fst).flatten = (pieces.map Prod.snd, []) :=
  manyWithin_flatten htakes (length_le_length_flatten fun piece h => (htakes piece h).1)

/-- A character that is no digit and no line feed does not follow digits at the end of a line. -/
theorem expect_digits {mark : Char} (hdigit : mark.isDigit = false) (hline : mark ≠ '\n')
    {digits : List Char} (h : ∀ c ∈ digits, c.isDigit = true) (rest : List Char) :
    expect mark (digits ++ '\n' :: rest) = none := by
  cases digits with
  | nil => exact if_neg hline.symm
  | cons c digits =>
    exact if_neg (ne_of_isDigit (h c List.mem_cons_self) hdigit)

/-- A number of fixed width in front of a line feed leaves digits and the line feed. -/
theorem number_digits {width least most n : Nat} {digits rest after : List Char}
    (h : ∀ c ∈ digits, c.isDigit = true)
    (hnumber : number width least most (digits ++ '\n' :: rest) = some (n, after)) :
    ∃ behind, (∀ c ∈ behind, c.isDigit = true) ∧ after = behind ++ '\n' :: rest := by
  rw [number] at hnumber
  split at hnumber
  · rename_i hfits
    obtain ⟨hlength, hall, -⟩ := hfits
    cases hnumber
    -- Were the number longer than the digits, it would reach over the line feed, which is no digit.
    have hwidth : width ≤ digits.length := by
      apply Nat.le_of_not_lt
      intro hlong
      have hmem : '\n' ∈ (digits ++ '\n' :: rest).take width := by
        rw [List.take_append, List.take_cons (by omega)]
        exact List.mem_append_right _ List.mem_cons_self
      exact absurd (List.all_eq_true.1 hall _ hmem) (by decide)
    refine ⟨digits.drop width, fun c hc => h c (List.mem_of_mem_drop hc), ?_⟩
    rw [List.drop_append_of_le_length hwidth]
  · cases hnumber

/-- Behind a number of fixed width at the end of a line of digits stands no mark. -/
theorem expect_of_number_digits {width least most n : Nat} {mark : Char} (hdigit : mark.isDigit = false)
    (hline : mark ≠ '\n') {digits rest after : List Char} (h : ∀ c ∈ digits, c.isDigit = true)
    (hnumber : number width least most (digits ++ '\n' :: rest) = some (n, after)) :
    expect mark after = none := by
  obtain ⟨behind, hbehind, rfl⟩ := number_digits h hnumber
  exact expect_digits hdigit hline hbehind rest

end Scanner

namespace Toml

open Scanner

/-! ### Digits at the end of a line -/

section Digits

variable {digits : List Char} (hdigits : ∀ c ∈ digits, c.isDigit = true)
include hdigits

/-- Digits at the end of a line are no moment. -/
theorem moment_digits (rest : List Char) : moment (digits ++ '\n' :: rest) = none := by
  have hday : day (digits ++ '\n' :: rest) = none := by
    rw [day, Option.bind_eq_bind, Option.bind_eq_none_iff]
    rintro ⟨year, after⟩ hyear
    dsimp only
    rw [expect_of_number_digits (by decide) (by decide) hdigits hyear, Option.bind_eq_bind,
      Option.bind_none]
  rw [moment, hday]
  dsimp only
  rw [timeOfDay, Option.bind_eq_bind, Option.bind_eq_none_iff]
  rintro ⟨hours, after⟩ hhours
  dsimp only
  rw [expect_of_number_digits (by decide) (by decide) hdigits hhours, Option.bind_eq_bind,
    Option.bind_none]

/-- A character that no digit is, is none of the digits. -/
theorem not_mem_digits {c : Char} (hc : c.isDigit = false) : c ∉ digits :=
  fun hmem => ne_of_isDigit (hdigits c hmem) hc rfl

/-- Digits have no sign. -/
theorem signed_digits : signed digits = (false, digits) := by
  cases digits with
  | nil => rfl
  | cons c rest =>
    have hminus : c ≠ '-' := ne_of_isDigit (hdigits c List.mem_cons_self) (by decide)
    have hplus : c ≠ '+' := ne_of_isDigit (hdigits c List.mem_cons_self) (by decide)
    simp [signed, hminus, hplus]

/-- Digits without underscores are one group. -/
theorem ungrouped?_digits (hne : digits ≠ []) : ungrouped? Char.isDigit digits = some digits := by
  have hgroups : digits.splitOn '_' = [digits] :=
    List.splitOn_eq_singleton (not_mem_digits hdigits (by decide))
  have hall : ([digits].all fun group => !group.isEmpty && group.all Char.isDigit) = true := by
    simpa [hne] using hdigits
  rw [ungrouped?, hgroups, if_pos hall, List.flatten_singleton]

/-- Digits are the digits of a decimal number, for they have no letter of another base. -/
theorem unboundedInteger?_digits :
    unboundedInteger? digits = (decimalDigits? digits).map fun digits =>
      (Nat.ofDigitChars 10 digits 0 : Int) := by
  have hbase : ∀ {letter : Char} {rest : List Char}, letter.isDigit = false →
      digits ≠ '0' :: letter :: rest := by
    rintro letter rest hletter rfl
    exact not_mem_digits hdigits hletter (List.mem_cons_of_mem _ List.mem_cons_self)
  rw [unboundedInteger?.eq_def]
  split
  · exact absurd rfl (hbase (by decide))
  · exact absurd rfl (hbase (by decide))
  · exact absurd rfl (hbase (by decide))
  · rw [signed_digits hdigits]
    rfl

/-- No blanks stand in front of digits. -/
theorem skipBlanks_digits (rest : List Char) :
    skipBlanks (digits ++ '\n' :: rest) = digits ++ '\n' :: rest := by
  cases digits with
  | nil => rfl
  | cons c digits =>
    have hblank : isBlank c = false := by
      rw [← Bool.not_eq_true]
      intro hblank
      rcases Bool.or_eq_true_iff.1 hblank with hc | hc <;>
        exact not_mem_digits hdigits (by rw [eq_of_beq hc]; decide) List.mem_cons_self
    rw [List.cons_append, skipBlanks, List.dropWhile_cons_of_neg (by rw [hblank]; decide)]

/-- Digits at the end of a line begin no string. -/
theorem quoted_digits (rest : List Char) : quoted (digits ++ '\n' :: rest) = none := by
  cases digits with
  | nil => rfl
  | cons c digits =>
    have hne {quote : Char} : quote.isDigit = false → c ≠ quote :=
      ne_of_isDigit (hdigits c List.mem_cons_self)
    rw [List.cons_append, quoted.eq_def]
    split
    · rename_i heq
      exact absurd (List.cons.inj heq).1 (hne (by decide))
    · rename_i heq
      exact absurd (List.cons.inj heq).1 (hne (by decide))
    · rename_i heq
      exact absurd (List.cons.inj heq).1 (hne (by decide))
    · rename_i heq
      exact absurd (List.cons.inj heq).1 (hne (by decide))
    · rfl

/-- Digits at the end of a line begin no array and no table. -/
theorem value_digits (levels : Nat) (rest : List Char) :
    value levels (digits ++ '\n' :: rest) = plain (digits ++ '\n' :: rest) := by
  cases levels with
  | zero => rfl
  | succ levels =>
    cases digits with
    | nil => rfl
    | cons c digits =>
      have hne {bracket : Char} : bracket.isDigit = false → c ≠ bracket :=
        ne_of_isDigit (hdigits c List.mem_cons_self)
      rw [List.cons_append, value.eq_def]
      split
      · rename_i heq
        exact absurd (List.cons.inj heq).1 (hne (by decide))
      · rename_i heq
        exact absurd (List.cons.inj heq).1 (hne (by decide))
      · rfl

end Digits

/-- Decimal digits are read as the number they spell. -/
theorem integer?_toDigits {n : Nat} (hn : n < 2 ^ 63) :
    integer? (Nat.toDigits 10 n) = some (n : Int) := by
  have hdigits : ∀ c ∈ Nat.toDigits 10 n, c.isDigit = true := fun c hc => isDigit_of_mem_toDigits_ten hc
  have hread : Nat.ofDigitChars 10 (Nat.toDigits 10 n) 0 = n := Nat.ofDigitChars_ten_toDigits
  have hleading : (Nat.toDigits 10 n).length = 1 ∨ (Nat.toDigits 10 n).head? ≠ some '0' := by
    rcases Nat.eq_zero_or_pos n with rfl | hpos
    · exact Or.inl (by decide)
    · exact Or.inr (head?_toDigits_ne_zero hpos)
  have hdecimal : decimalDigits? (Nat.toDigits 10 n) = some (Nat.toDigits 10 n) := by
    rw [decimalDigits?, ungrouped?_digits hdigits Nat.toDigits_ne_nil, Option.filter_some]
    exact if_pos (by simpa using hleading)
  have hfits : -2 ^ 63 ≤ (n : Int) ∧ (n : Int) < 2 ^ 63 := by omega
  rw [integer?, unboundedInteger?_digits hdigits, hdecimal, Option.map_some, hread, Option.filter_some]
  exact if_pos (decide_eq_true hfits)

/-- Decimal digits are the word for the number they spell. -/
theorem word?_toDigits {n : Nat} (hn : n < 2 ^ 63) : word? (Nat.toDigits 10 n) = some (.integer n) := by
  have hname : ∀ {c : Char} {cs : List Char}, c.isDigit = false → Nat.toDigits 10 n ≠ c :: cs := by
    intro c cs hc heq
    have hdigit : c.isDigit = true := isDigit_of_mem_toDigits_ten (heq ▸ List.mem_cons_self)
    exact ne_of_isDigit hdigit hc rfl
  rw [word?, if_neg (hname (by decide)), if_neg (hname (by decide)), integer?_toDigits hn]

/-- Decimal digits at the end of a line are the value that they spell. -/
theorem value_toDigits {n : Nat} (hn : n < 2 ^ 63) (levels : Nat) (rest : List Char) :
    value levels (Nat.toDigits 10 n ++ '\n' :: rest) = some (.integer n, '\n' :: rest) := by
  have hdigits : ∀ c ∈ Nat.toDigits 10 n, c.isDigit = true := fun c hc => isDigit_of_mem_toDigits_ten hc
  have hchars : ∀ c ∈ Nat.toDigits 10 n, isWordChar c = true := by
    intro c hc
    simp [isWordChar, Char.isAlphanum, hdigits c hc]
  have htake : (Nat.toDigits 10 n ++ '\n' :: rest).takeWhile isWordChar = Nat.toDigits 10 n := by
    rw [List.takeWhile_append_of_pos hchars, List.takeWhile_cons_of_neg (by decide), List.append_nil]
  have hdrop : (Nat.toDigits 10 n ++ '\n' :: rest).dropWhile isWordChar = '\n' :: rest := by
    rw [List.dropWhile_append_of_pos hchars, List.dropWhile_cons_of_neg (by decide)]
  rw [value_digits hdigits, plain, quoted_digits hdigits, moment_digits hdigits, htake, hdrop,
    word?_toDigits hn]
  rfl

end Toml
end Conform
