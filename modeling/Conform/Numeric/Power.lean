/-
Module: Conform.Numeric.Power
Purpose: Powers of naturals and integers are the built-in ones, also where powers in monoids are in scope:
  a power in the definition of a double is one term in every module.
Main exports: instPowBuiltIn
-/

namespace Conform

universe u

/-- The built-in powers with a natural exponent. -/
@[default_instance high]
instance (priority := high) instPowBuiltIn {α : Type u} [NatPow α] : Pow α Nat := instPowNat

end Conform
