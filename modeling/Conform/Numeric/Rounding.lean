/-
Module: Conform.Numeric.Rounding
Purpose: Rounding a quotient of natural numbers to a natural number.
Main exports: roundHalfEven, roundHalfUp
-/

namespace Conform

/-- The natural number nearest to `num / den`; a tie goes to the even neighbour. -/
def roundHalfEven (num den : Nat) : Nat :=
  let floor := num / den
  let twice := 2 * (num % den)
  if twice < den then floor
  else if den < twice then floor + 1
  else floor + floor % 2

/-- The natural number nearest to `num / den`; a tie goes up. -/
def roundHalfUp (num den : Nat) : Nat :=
  (2 * num + den) / (2 * den)

/-- A quotient without remainder is already rounded. -/
theorem roundHalfEven_mul_right {n den : Nat} (h : 0 < den) : roundHalfEven (n * den) den = n := by
  simp [roundHalfEven, h]

/-- A quotient without remainder is already rounded. -/
theorem roundHalfUp_mul_right {n den : Nat} (h : 0 < den) : roundHalfUp (n * den) den = n := by
  have : (2 * (n * den) + den) / (2 * den) = n := by
    apply Nat.div_eq_of_lt_le
    · have : 2 * (n * den) = n * (2 * den) := by ac_rfl
      omega
    · have : (n + 1) * (2 * den) = 2 * (n * den) + 2 * den := by
        rw [Nat.add_mul, Nat.one_mul]; ac_rfl
      omega
  exact this

end Conform
