/-
Module: Conform.Json.Numeral
Purpose: The numerals of JSON text and the number each of them stands for.
  A numeral without point and exponent that fits a 64-bit word is a whole number. Every other numeral
  is a double, reached by one multiplication or a few divisions from the leading digits that fit 64
  bits, so the result is near the exact value but not always the nearest double.
Main exports: Numeral, Numeral.ofChars?, Numeral.value?
-/
import Conform.Json.Number

namespace Conform

/-- A numeral as written, by its digits. -/
structure Numeral where
  negative : Bool
  whole : List Char
  /-- The digits behind the point; empty without a point. -/
  fraction : List Char
  /-- The sign and the digits of the exponent. -/
  exponent : Option (Bool × List Char)
deriving DecidableEq, Repr

namespace Numeral

/-! ### Grammar -/

/-- The exponent at the end of a numeral: nothing, or the mark, a sign if any, and digits. -/
def exponentOfChars? : List Char → Option (Option (Bool × List Char))
  | [] => some none
  | mark :: rest =>
    if mark = 'e' ∨ mark = 'E' then
      let negative := rest.head? == some '-'
      let digits := if rest.head? = some '-' ∨ rest.head? = some '+' then rest.tail else rest
      if digits ≠ [] ∧ digits.all Char.isDigit then some (some (negative, digits)) else none
    else none

/-- The numeral with these characters: an optional minus sign, a whole part without superfluous zeros,
    then an optional fraction and an optional exponent. -/
def ofChars? (text : List Char) : Option Numeral :=
  let negative := text.head? == some '-'
  let text := if negative then text.tail else text
  let whole := text.takeWhile Char.isDigit
  let rest := text.dropWhile Char.isDigit
  if whole = [] ∨ (whole.head? = some '0' ∧ whole.length ≠ 1) then none
  else
    match rest with
    | '.' :: rest =>
      let fraction := rest.takeWhile Char.isDigit
      if fraction = [] then none
      else (exponentOfChars? (rest.dropWhile Char.isDigit)).map fun exponent =>
        ⟨negative, whole, fraction, exponent⟩
    | rest => (exponentOfChars? rest).map fun exponent => ⟨negative, whole, [], exponent⟩

/-! ### Value -/

/-- The largest significand that is kept. -/
def largestSignificand : Nat := 2 ^ 64 - 1

/-- Append digits to a significand as long as the result fits 64 bits; the digits that are left over
    come second. -/
def absorb (significand : Nat) : List Char → Nat × List Char
  | [] => (significand, [])
  | c :: rest =>
    let next := significand * 10 + (c.toNat - '0'.toNat)
    if next ≤ largestSignificand then absorb next rest else (significand, c :: rest)

/-- The double nearest to a power of ten, up to `10 ^ 308`. -/
def power (exponent : Nat) : Option Binary64 := Binary64.ofScaled? false 1 exponent

/-- Divide by `10 ^ 308` so many times; nothing is left to divide once the double is zero. -/
def lower : Nat → Binary64 → Option Binary64
  | 0, x => some x
  | steps + 1, x =>
    if x.isZero then some x
    else do lower steps (← x.div? (← power 308))

/-- Scale a double by a power of ten. Exponents below -308 take several divisions; exponents above 308
    are out of range unless the double is zero. -/
def scale (x : Binary64) (exponent : Int) : Option Binary64 :=
  if exponent < 0 then
    let places := exponent.natAbs
    do
      let x ← lower ((places - 1) / 308) x
      x.div? (← power ((places - 1) % 308 + 1))
  else if exponent ≤ 308 then do x.mul? (← power exponent.toNat)
  else if x.isZero then some x
  else none

/-- The largest absolute value of an exponent that is read. -/
def largestExponent : Nat := 2 ^ 31 - 1

/-- The numeral as a double. Digits that do not fit the significand are dropped: whole ones count in
    the exponent, fractional ones do not count at all. -/
def float? (n : Numeral) : Option Binary64 :=
  let (leading, dropped) := absorb 0 n.whole
  let (significand, ignored) := absorb leading n.fraction
  let shift : Int := dropped.length - (n.fraction.length - ignored.length : Nat)
  let written := (n.exponent.map fun e => Nat.ofDigitChars 10 e.2 0).getD 0
  let reversed := (n.exponent.map Prod.fst).getD false
  let magnitude :=
    if largestExponent < written then
      if reversed ∨ significand = 0 then some (Binary64.zero false) else none
    else do
      scale (← Binary64.ofRatio? false significand 1)
        (shift + if reversed then -(written : Int) else written)
  magnitude.map fun x => { x with negative := n.negative }

/-- The whole number that the numeral denotes, if it is written as one, fits 64 bits and is not
    negative zero. -/
def integer? (n : Numeral) : Option Integer64 :=
  if n.fraction = [] ∧ n.exponent = none then
    let magnitude := Nat.ofDigitChars 10 n.whole 0
    if n.negative ∧ magnitude = 0 then none
    else Integer64.ofInt? (if n.negative then -(magnitude : Int) else magnitude)
  else none

/-- The number the numeral denotes; none if it is too large. -/
def value? (n : Numeral) : Option Number :=
  match n.integer? with
  | some i => some (.integer i)
  | none => n.float?.map .float

end Numeral

end Conform
