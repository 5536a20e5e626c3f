/-
Module: Conform.Numeric.Double
Purpose: Double-precision numbers with infinities and not-a-number, read from decimal notation and
  rounded to whole numbers.
Main exports: Double, Double.ofScaled, Double.isZero, Double.toWord
-/
import Conform.Numeric.Binary64

namespace Conform

/-- A double-precision number. -/
inductive Double where
  | finite (x : Binary64)
  | infinite (negative : Bool)
  | nan
deriving DecidableEq

namespace Double

/-- The double nearest to `digits * 10 ^ exponent`, infinite on overflow. Far outside the range of
    doubles the power of ten is not worked out. -/
def ofScaled (negative : Bool) (digits : Nat) (exponent : Int) : Double :=
  let leading := exponent + (Nat.toDigits 10 digits).length
  if digits = 0 ∨ leading < -400 then .finite (Binary64.zero negative)
  else if 400 < leading then .infinite negative
  else
    match Binary64.ofScaled? negative digits exponent with
    | some x => .finite x
    | none => .infinite negative

/-- Equal to zero of either sign. -/
def isZero : Double → Bool
  | .finite x => x.isZero
  | _ => false

/-- The nearest word of 64 bits, a tie going up; not-a-number becomes zero. -/
def toWord : Double → UInt64
  | .finite x =>
    if x.negative then 0
    else UInt64.ofNat (min (roundHalfUp x.units Binary64.unitsPerOne) (2 ^ 64 - 1))
  | .infinite negative => if negative then 0 else UInt64.ofNat (2 ^ 64 - 1)
  | .nan => 0

end Double
end Conform
