/-
Module: Conform.Scanner
Purpose: Reading a piece of text from the front of a longer one.
Main exports: Scanner, Scanner.many, Scanner.optional, Scanner.expect, Scanner.oneOf, Scanner.number
-/

namespace Conform

/-- Reads something from the front of a text, and says what text is left. -/
abbrev Scanner (α : Type) := List Char → Option (α × List Char)

namespace Scanner

variable {α : Type}

/-! ### Repetition -/

/-- Read as long as there is text and the reading succeeds, at most once for each character of a
    bound. -/
def manyWithin (scan : Scanner α) : List Char → List Char → List α × List Char
  | [], text => ([], text)
  | _ :: _, [] => ([], [])
  | _ :: bound, text =>
    match scan text with
    | none => ([], text)
    | some (a, rest) =>
      let (more, rest) := manyWithin scan bound rest
      (a :: more, rest)

/-- Read as often as possible. Each reading is to take at least one character, so that there are no more
    readings than characters. -/
def many (scan : Scanner α) (text : List Char) : List α × List Char := manyWithin scan text text

/-- Read something that may be missing. -/
def optional (scan : Scanner Unit) : Scanner Unit := fun text => some ((scan text).getD ((), text))

/-! ### Characters -/

/-- Read one given character. -/
def expect (c : Char) : Scanner Unit
  | [] => none
  | d :: rest => if d = c then some ((), rest) else none

/-- Read one of some characters. -/
def oneOf (cs : List Char) : Scanner Char
  | [] => none
  | d :: rest => if d ∈ cs then some (d, rest) else none

/-- Read a number of exactly so many digits that lies between two bounds. -/
def number (width least most : Nat) : Scanner Nat := fun text =>
  let digits := text.take width
  let n := Nat.ofDigitChars 10 digits 0
  if digits.length = width ∧ digits.all Char.isDigit ∧ least ≤ n ∧ n ≤ most then
    some (n, text.drop width)
  else none

end Scanner
end Conform
