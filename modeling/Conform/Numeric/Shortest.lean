/-
Module: Conform.Numeric.Shortest
Purpose: The decimal text of a double: the fewest digits that read back to it, then a layout that
  chooses between positional and exponential form.
Main exports: Scaled, Binary64.shortest, FloatLayout, FloatLayout.magnitude, FloatLayout.text
-/
import Conform.Numeric.Binary64

namespace Conform

/-- The decimal number `digits * 10 ^ exponent`. -/
structure Scaled where
  digits : Nat
  exponent : Int
deriving DecidableEq, Repr, Inhabited

namespace Binary64

/-- The decimal exponent of the leading digit of a double other than zero. Every such double is at
    least `10 ^ -324`, so scaling by that power keeps the leading digit. -/
def leadingExponent (x : Binary64) : Int :=
  ((Nat.toDigits 10 (x.units * 10 ^ 324 / unitsPerOne)).length : Int) - 325

/-- The two neighbours of the absolute value among the decimals of at most `count` digits, the nearer
    one first; on a tie the one whose last digit is even comes first. -/
def neighbours (x : Binary64) (count : Nat) : List Scaled :=
  let exponent := x.leadingExponent - (count - 1 : Nat)
  let num := if exponent < 0 then x.units * 10 ^ (-exponent).toNat else x.units
  let den := if exponent < 0 then unitsPerOne else unitsPerOne * 10 ^ exponent.toNat
  let lower := num / den
  if roundHalfEven num den = lower then [⟨lower, exponent⟩, ⟨lower + 1, exponent⟩]
  else [⟨lower + 1, exponent⟩, ⟨lower, exponent⟩]

/-- The decimal is nearer to this double's absolute value than to any other double. -/
def readsBack (x : Binary64) (d : Scaled) : Bool :=
  (ofScaled? false d.digits d.exponent).any (fun y => y.place == x.place)

/-- The absolute value in decimal, digit for digit. -/
def exact (x : Binary64) : Scaled := ⟨x.units * 5 ^ 1074, -1074⟩

/-- The decimal of fewest digits that reads back to the absolute value, and of those the nearest.
    Seventeen digits are always enough; the exact expansion stands in where none is found. -/
def shortest (x : Binary64) : Scaled :=
  ((List.range 17).findSome? fun n => (x.neighbours (n + 1)).find? x.readsBack).getD x.exact

end Binary64

/-- How a double is laid out. -/
structure FloatLayout where
  /-- The leading digit's exponents from which and up to which the positional form is used. -/
  lowest : Int
  highest : Int
deriving Repr

namespace FloatLayout

/-- The digits without the zeros at their end. -/
def significant (digits : Nat) : List Char :=
  ((Nat.toDigits 10 digits).reverse.dropWhile (· == '0')).reverse

/-- Digits around a point, at least one on each side. The leading digit counts `10 ^ exponent`. -/
def positional (digits : List Char) (exponent : Int) : List Char :=
  if exponent < 0 then
    '0' :: '.' :: (List.replicate (-exponent - 1).toNat '0' ++ digits)
  else
    let whole := exponent.toNat + 1
    let fraction := digits.drop whole
    (digits.take whole ++ List.replicate (whole - digits.length) '0')
      ++ '.' :: (if fraction.isEmpty then ['0'] else fraction)

/-- One digit before the point, no point without a fraction, and a signed exponent. -/
def exponential (digits : List Char) (exponent : Int) : List Char :=
  let fraction := digits.drop 1
  digits.take 1
    ++ (if fraction.isEmpty then [] else '.' :: fraction)
    ++ 'e' :: (if exponent < 0 then '-' else '+') :: Nat.toDigits 10 exponent.natAbs

/-- The text of the absolute value of a double. -/
def magnitude (layout : FloatLayout) (x : Binary64) : List Char :=
  if x.isZero then ['0', '.', '0']
  else
    let decimal := x.shortest
    let digits := significant decimal.digits
    let exponent := decimal.exponent + (Nat.toDigits 10 decimal.digits).length - 1
    if layout.lowest ≤ exponent ∧ exponent ≤ layout.highest then positional digits exponent
    else exponential digits exponent

/-- The text of a double: a minus sign if it is negative, then its absolute value. -/
def text (layout : FloatLayout) (x : Binary64) : List Char :=
  if x.negative then '-' :: layout.magnitude x else layout.magnitude x

end FloatLayout

end Conform
