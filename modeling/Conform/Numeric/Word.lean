/-
Module: Conform.Numeric.Word
Purpose: Whole numbers that fit a word of 64 bits, read from decimal text.
Main exports: Word.signed?, Word.unsigned?
-/
import Conform.Numeric.Power

namespace Conform
namespace Word

/-- The number that a text of digits spells; none if there is something else or nothing in it. -/
def digits? (text : List Char) : Option Nat :=
  if text ≠ [] ∧ text.all Char.isDigit then some (Nat.ofDigitChars 10 text 0) else none

/-- The whole number that a text spells, with or without a sign, if it fits a signed word. -/
def signed? (text : List Char) : Option Int :=
  let number :=
    match text with
    | '-' :: rest => (digits? rest).map fun n => -(n : Int)
    | '+' :: rest => (digits? rest).map Int.ofNat
    | rest => (digits? rest).map Int.ofNat
  number.filter fun i => decide (-2 ^ 63 ≤ i ∧ i < 2 ^ 63)

/-- The number that a text of digits spells, if it fits an unsigned word. A plus sign may stand in
    front. -/
def unsigned? (text : List Char) : Option UInt64 :=
  let number :=
    match text with
    | '+' :: rest => digits? rest
    | rest => digits? rest
  (number.filter (· < 2 ^ 64)).map UInt64.ofNat

end Word
end Conform
