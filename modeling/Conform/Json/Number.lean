/-
Module: Conform.Json.Number
Purpose: The numbers of a JSON document: whole numbers of 64 bits, signed or unsigned, and doubles.
Main exports: Integer64, Number, Number.isWhole, Number.text, Number.reduced
-/
import Conform.Numeric.Shortest

namespace Conform

/-- A whole number that fits a signed or an unsigned word of 64 bits. -/
structure Integer64 where
  value : Int
  lower : -2 ^ 63 ≤ value
  upper : value < 2 ^ 64
deriving DecidableEq

namespace Integer64

/-- The word for a whole number, if it has one. -/
def ofInt? (n : Int) : Option Integer64 :=
  if h : -2 ^ 63 ≤ n ∧ n < 2 ^ 64 then some ⟨n, h.1, h.2⟩ else none

/-- Decimal digits behind an optional minus sign. -/
def text (n : Integer64) : List Char :=
  if n.value < 0 then '-' :: Nat.toDigits 10 n.value.natAbs else Nat.toDigits 10 n.value.natAbs

theorem ofInt?_value (n : Integer64) : ofInt? n.value = some n :=
  dif_pos ⟨n.lower, n.upper⟩

theorem value_of_ofInt? {i : Int} {n : Integer64} (h : ofInt? i = some n) : n.value = i := by
  unfold ofInt? at h
  split at h
  · cases h; rfl
  · cases h

end Integer64

/-- A JSON number: written without point and exponent and small enough, a whole number; otherwise a
    double. -/
inductive Number where
  | integer (n : Integer64)
  | float (x : Binary64)
deriving DecidableEq

namespace Number

/-- No fractional part, whichever way the number is stored. -/
def isWhole : Number → Bool
  | .integer _ => true
  | .float x => x.isWhole

/-- Doubles are positional from `10 ^ -5` to `10 ^ 15` and exponential outside. -/
def floatLayout : FloatLayout := ⟨-5, 15⟩

/-- The number as it is printed. -/
def text : Number → List Char
  | .integer n => n.text
  | .float x => floatLayout.text x

/-- The number for a double with the value `i`: below `2 ^ 53` in absolute value the whole number, which
    agrees with the double exactly there. -/
def narrow (x : Binary64) (i : Int) : Number :=
  if h : -2 ^ 53 < i ∧ i < 2 ^ 53 then .integer ⟨i, by omega, by omega⟩ else .float x

/-- Small integral doubles become whole numbers. -/
def reduced : Number → Number
  | .integer n => .integer n
  | .float x => x.toInt?.elim (.float x) (narrow x)

end Number

end Conform
