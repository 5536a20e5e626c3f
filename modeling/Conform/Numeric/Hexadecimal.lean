/-
Module: Conform.Numeric.Hexadecimal
Purpose: Hexadecimal digits, numbers and bytes.
Main exports: Hexadecimal.digit?, Hexadecimal.number?, Hexadecimal.ofBytes
-/

namespace Conform
namespace Hexadecimal

/-- The value of a digit in either case. -/
def digit? (c : Char) : Option Nat :=
  if c.isDigit then some (c.toNat - '0'.toNat)
  else if 'a' ≤ c ∧ c ≤ 'f' then some (c.toNat - 'a'.toNat + 10)
  else if 'A' ≤ c ∧ c ≤ 'F' then some (c.toNat - 'A'.toNat + 10)
  else none

/-- The value of a sequence of digits. -/
def number? (digits : List Char) : Option Nat :=
  digits.foldlM (fun n c => (digit? c).map (n * 16 + ·)) 0

/-- A byte as two lower-case digits. -/
def ofByte (b : UInt8) : List Char := [(b.toNat / 16).digitChar, (b.toNat % 16).digitChar]

/-- Bytes as lower-case digits, two for each. -/
def ofBytes (bytes : List UInt8) : String := String.ofList (bytes.flatMap ofByte)

end Hexadecimal
end Conform
