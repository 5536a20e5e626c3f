/-
Module: Conform.Toml.Scalar
Purpose: The unquoted values of TOML: truth values, whole numbers and floating-point numbers. Digits may
  be grouped by single underscores.
Main exports: Toml.integer?, Toml.float?, Toml.word?
-/
import Conform.Numeric.Hexadecimal
import Conform.Numeric.Power
import Conform.Toml.Value

namespace Conform
namespace Toml

/-- The digits without the underscores between them; none if an underscore has no digit on one side. -/
def ungrouped? (isDigit : Char → Bool) (text : List Char) : Option (List Char) :=
  let groups := text.splitOn '_'
  if groups.all fun group => !group.isEmpty && group.all isDigit then some groups.flatten else none

/-- The sign in front of a text, and the text behind it. -/
def signed (text : List Char) : Bool × List Char :=
  match text with
  | '-' :: rest => (true, rest)
  | '+' :: rest => (false, rest)
  | rest => (false, rest)

/-- Decimal digits without superfluous zeros in front. -/
def decimalDigits? (text : List Char) : Option (List Char) :=
  (ungrouped? Char.isDigit text).filter fun digits => digits.length = 1 || digits.head? != some '0'

/-- The number that digits of some base spell. -/
def inBase? (base : Nat) (digits : List Char) : Option Nat := do
  let digits ← ungrouped? (fun c => (Hexadecimal.digit? c).any (· < base)) digits
  digits.foldlM (fun n c => (Hexadecimal.digit? c).map (n * base + ·)) 0

/-- The whole number that a text spells, without regard to its size. -/
def unboundedInteger? (text : List Char) : Option Int :=
  match text with
  | '0' :: 'x' :: digits => (inBase? 16 digits).map Int.ofNat
  | '0' :: 'o' :: digits => (inBase? 8 digits).map Int.ofNat
  | '0' :: 'b' :: digits => (inBase? 2 digits).map Int.ofNat
  | text =>
    let (negative, digits) := signed text
    (decimalDigits? digits).map fun digits =>
      let n : Int := Nat.ofDigitChars 10 digits 0
      if negative then -n else n

/-- The whole number that a text spells, if it fits a signed word of 64 bits. -/
def integer? (text : List Char) : Option Int :=
  (unboundedInteger? text).filter fun i => decide (-2 ^ 63 ≤ i ∧ i < 2 ^ 63)

/-- The exponent at the end of a floating-point number; zero if there is none. -/
def exponent? : List Char → Option Int
  | [] => some 0
  | mark :: rest =>
    if mark = 'e' ∨ mark = 'E' then
      let (negative, digits) := signed rest
      (ungrouped? Char.isDigit digits).map fun digits =>
        let n : Int := Nat.ofDigitChars 10 digits 0
        if negative then -n else n
    else none

/-- The floating-point number that a text spells. A positive one must not be too large. -/
def float? (text : List Char) : Option Double :=
  let (negative, body) := signed text
  if body = ['i', 'n', 'f'] then some (.infinite negative)
  else if body = ['n', 'a', 'n'] then some .nan
  else do
    let inNumber := fun c : Char => c.isDigit || c == '_'
    let whole ← decimalDigits? (body.takeWhile inNumber)
    let rest := body.dropWhile inNumber
    let (fraction, rest) ←
      match rest with
      | '.' :: rest =>
        (ungrouped? Char.isDigit (rest.takeWhile inNumber)).map (·, rest.dropWhile inNumber)
      | [] => none
      | rest => some ([], rest)
    let exponent ← exponent? rest
    let x := Double.ofScaled negative (Nat.ofDigitChars 10 (whole ++ fraction) 0)
      (exponent - fraction.length)
    if x = .infinite false then none else some x

/-- The value that an unquoted text spells. -/
def word? (text : List Char) : Option Value :=
  if text = ['t', 'r', 'u', 'e'] then some (.bool true)
  else if text = ['f', 'a', 'l', 's', 'e'] then some (.bool false)
  else
    match integer? text with
    | some i => some (.integer i)
    | none => (float? text).map .float

end Toml
end Conform
