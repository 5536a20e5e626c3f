/-
Module: Conform.Numeric.Binary64
Purpose: Finite double-precision numbers as exact multiples of `2 ^ -1074`, and rounding to them.
  A double is stored by its sign and by the place of its absolute value in the ascending list of all
  non-negative doubles, so comparing absolute values is comparing places. Arithmetic is exact on
  integers, then rounded once.
Main exports: Binary64, Binary64.units, Binary64.ofRatio?, Binary64.ofScaled?, Binary64.mul?,
  Binary64.div?, Binary64.toInt?
-/
import Conform.Numeric.Power
import Conform.Numeric.Rounding

namespace Conform

/-- A finite double: 52 bits of significand, eleven bits of exponent, both zeros apart. -/
structure Binary64 where
  /-- The sign, kept for zero too. -/
  negative : Bool
  /-- The place of the absolute value in the ascending list of non-negative doubles. -/
  place : Nat
  place_lt : place < 2047 * 2 ^ 52
deriving DecidableEq

namespace Binary64

/-- Zero with the given sign. -/
def zero (negative : Bool) : Binary64 := ⟨negative, 0, by decide⟩

instance : Inhabited Binary64 := ⟨zero false⟩

/-- How many binary places the significand at `place` is shifted up from the smallest unit. The
    first two binades share shift zero. -/
def shiftAt (place : Nat) : Nat := place / 2 ^ 52 - 1

/-- The significand at `place`, below `2 ^ 53`. -/
def significandAt (place : Nat) : Nat := place - shiftAt place * 2 ^ 52

/-- The absolute value as a multiple of `2 ^ -1074`. -/
def units (x : Binary64) : Nat := significandAt x.place * 2 ^ shiftAt x.place

/-- How many units make one. -/
def unitsPerOne : Nat := 2 ^ 1074

/-- The place of the double nearest to `num / den` units, a tie going to the even significand. The
    result may lie past the largest finite double. -/
def nearestPlace (num den : Nat) : Nat :=
  let shift := Nat.log2 (num / den) - 52
  shift * 2 ^ 52 + roundHalfEven num (den * 2 ^ shift)

/-- The finite double at a place, if there is one. -/
def atPlace? (negative : Bool) (place : Nat) : Option Binary64 :=
  if h : place < 2047 * 2 ^ 52 then some ⟨negative, place, h⟩ else none

/-- The double nearest to `num / den`; none when that is no finite one. -/
def ofRatio? (negative : Bool) (num den : Nat) : Option Binary64 :=
  atPlace? negative (nearestPlace (num * unitsPerOne) den)

/-- The double nearest to `digits * 10 ^ exponent`; none when that is no finite one. -/
def ofScaled? (negative : Bool) (digits : Nat) (exponent : Int) : Option Binary64 :=
  if 0 ≤ exponent then ofRatio? negative (digits * 10 ^ exponent.toNat) 1
  else ofRatio? negative digits (10 ^ (-exponent).toNat)

/-- The product, rounded; none on overflow. -/
def mul? (x y : Binary64) : Option Binary64 :=
  ofRatio? (x.negative != y.negative) (x.units * y.units) (unitsPerOne * unitsPerOne)

/-- The quotient by a double other than zero, rounded; none on overflow. -/
def div? (x y : Binary64) : Option Binary64 :=
  ofRatio? (x.negative != y.negative) x.units y.units

/-- Neither positive nor negative in value. -/
def isZero (x : Binary64) : Bool := x.place == 0

/-- No fractional part. -/
def isWhole (x : Binary64) : Bool := x.units % unitsPerOne == 0

/-- The integer part of the absolute value. -/
def floorAbs (x : Binary64) : Nat := x.units / unitsPerOne

/-- The value of a double without a fractional part. -/
def toInt? (x : Binary64) : Option Int :=
  if x.isWhole then some (if x.negative then -(x.floorAbs : Int) else x.floorAbs) else none

end Binary64

end Conform
