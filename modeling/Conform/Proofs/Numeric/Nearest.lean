/-
Module: Conform.Proofs.Numeric.Nearest
Purpose: The decimal chosen for a double reads back to it. Rounding to a double depends on the quotient
  alone, a quotient that is a double rounds to itself, and so the exact expansion always reads back; the
  search for fewer digits only accepts decimals that do.
Main exports: Binary64.nearestPlace_mul_mul, Binary64.nearestPlace_units, Binary64.ofScaled?_shift,
  Binary64.readsBack_shortest
-/
import Conform.Numeric.Shortest

namespace Conform

/-- Rounding depends on the quotient only. -/
theorem roundHalfEven_mul_mul (num den : Nat) {k : Nat} (hk : 0 < k) :
    roundHalfEven (num * k) (den * k) = roundHalfEven num den := by
  have hdiv : num * k / (den * k) = num / den := Nat.mul_div_mul_right num den hk
  have hmod : num * k % (den * k) = num % den * k := Nat.mul_mod_mul_right k num den
  have hlow : 2 * (num % den * k) < den * k ↔ 2 * (num % den) < den := by
    rw [← Nat.mul_assoc]
    exact Nat.mul_lt_mul_right hk
  have hhigh : den * k < 2 * (num % den * k) ↔ den < 2 * (num % den) := by
    rw [← Nat.mul_assoc]
    exact Nat.mul_lt_mul_right hk
  simp only [roundHalfEven, hdiv, hmod, hlow, hhigh]

namespace Binary64

/-! ### Places -/

/-- The place nearest to a quotient depends on the quotient only. -/
theorem nearestPlace_mul_mul (num den : Nat) {k : Nat} (hk : 0 < k) :
    nearestPlace (num * k) (den * k) = nearestPlace num den := by
  have hdiv : num * k / (den * k) = num / den := Nat.mul_div_mul_right num den hk
  have hswap : den * k * 2 ^ (Nat.log2 (num / den) - 52) =
      den * 2 ^ (Nat.log2 (num / den) - 52) * k := by ac_rfl
  simp only [nearestPlace, hdiv, hswap, roundHalfEven_mul_mul _ _ hk]

/-- Equal quotients have the same nearest place. -/
theorem nearestPlace_congr {num den num' den' : Nat} (hd : 0 < den) (hd' : 0 < den')
    (h : num * den' = num' * den) : nearestPlace num den = nearestPlace num' den' := by
  rw [← nearestPlace_mul_mul num den hd', h, Nat.mul_comm den den', nearestPlace_mul_mul num' den' hd]

/-- The significand at a place has at most 53 bits, and exactly 53 once the place is shifted. -/
theorem significandAt_bounds (place : Nat) :
    significandAt place < 2 ^ 53 ∧ (0 < shiftAt place → 2 ^ 52 ≤ significandAt place) := by
  simp only [significandAt, shiftAt]
  omega

/-- The shift is read off the size of the absolute value. -/
theorem log2_units (x : Binary64) : Nat.log2 x.units - 52 = shiftAt x.place := by
  obtain ⟨hlt, hle⟩ := significandAt_bounds x.place
  rw [units]
  generalize significandAt x.place = m at hlt hle
  generalize shiftAt x.place = s at hle
  rcases Nat.eq_zero_or_pos s with rfl | hs
  · have hlog : Nat.log2 (m * 2 ^ 0) < 53 := by
      rcases Nat.eq_zero_or_pos m with rfl | hm
      · decide
      · rw [Nat.pow_zero, Nat.mul_one]
        exact (Nat.log2_lt (by omega)).2 hlt
    omega
  · have hm : 2 ^ 52 ≤ m := hle hs
    have hne : m * 2 ^ s ≠ 0 := Nat.mul_ne_zero (by omega) (by simp)
    have hup : m * 2 ^ s < 2 ^ (53 + s) := by
      rw [Nat.pow_add]
      exact Nat.mul_lt_mul_of_pos_right hlt (Nat.two_pow_pos s)
    have hdown : 2 ^ (52 + s) ≤ m * 2 ^ s := by
      rw [Nat.pow_add]
      exact Nat.mul_le_mul_right _ hm
    have hlog : Nat.log2 (m * 2 ^ s) < 53 + s := (Nat.log2_lt hne).2 hup
    have hlog' : 52 + s ≤ Nat.log2 (m * 2 ^ s) := (Nat.le_log2 hne).2 hdown
    omega

/-- A whole number of units that is a double is its own nearest double. -/
theorem nearestPlace_units (x : Binary64) : nearestPlace x.units 1 = x.place := by
  have hround : roundHalfEven x.units (1 * 2 ^ shiftAt x.place) = significandAt x.place := by
    rw [Nat.one_mul, units]
    exact roundHalfEven_mul_right (Nat.two_pow_pos _)
  have hplace : shiftAt x.place * 2 ^ 52 + significandAt x.place = x.place := by
    simp only [significandAt, shiftAt]
    omega
  simp only [nearestPlace, Nat.div_one, log2_units, hround, hplace]

/-! ### Decimals -/

/-- Equal quotients round to the same double. -/
theorem ofRatio?_congr (negative : Bool) {num den num' den' : Nat} (hd : 0 < den) (hd' : 0 < den')
    (h : num * den' = num' * den) : ofRatio? negative num den = ofRatio? negative num' den' := by
  have hscaled (u : Nat) : num * u * den' = num' * u * den := by
    rw [Nat.mul_right_comm, h, Nat.mul_right_comm]
  rw [ofRatio?, nearestPlace_congr hd hd' (hscaled unitsPerOne), ← ofRatio?]

/-- Digits shifted against the exponent spell the same decimal. -/
theorem ofScaled?_shift (negative : Bool) (digits shift : Nat) (exponent : Int) :
    ofScaled? negative (digits * 10 ^ shift) (exponent - shift) =
      ofScaled? negative digits exponent := by
  have hten (n : Nat) : 0 < 10 ^ n := Nat.pow_pos (by decide)
  rw [ofScaled?, ofScaled?]
  rcases Int.lt_or_le exponent 0 with hneg | hpos
  · have hexp : (-(exponent - shift)).toNat = shift + (-exponent).toNat := by omega
    rw [if_neg (by omega), if_neg (by omega), hexp]
    apply ofRatio?_congr negative (hten _) (hten _)
    rw [Nat.pow_add]
    ac_rfl
  · obtain ⟨e, rfl⟩ := Int.eq_ofNat_of_zero_le hpos
    rcases Nat.lt_or_ge e shift with hlt | hge
    · obtain ⟨k, rfl⟩ := Nat.exists_eq_add_of_lt hlt
      have hexp : (-((e : Int) - (e + k + 1 : Nat))).toNat = k + 1 := by omega
      rw [if_neg (by omega), if_pos (by omega), hexp, Int.toNat_natCast]
      apply ofRatio?_congr negative (hten _) Nat.one_pos
      rw [Nat.add_assoc, Nat.pow_add]
      ac_rfl
    · obtain ⟨k, rfl⟩ := Nat.exists_eq_add_of_le hge
      have hexp : (((shift + k : Nat) : Int) - shift).toNat = k := by omega
      rw [if_pos (by omega), if_pos (by omega), hexp, Int.toNat_natCast, Nat.pow_add, Nat.mul_assoc]

/-- A whole number of units, written out in decimal, is its own nearest double. -/
theorem nearestPlace_decimal (x : Binary64) (n : Nat) :
    nearestPlace (x.units * 5 ^ n * 2 ^ n) (10 ^ n) = x.place := by
  have hten : 5 ^ n * 2 ^ n = 10 ^ n := by rw [← Nat.mul_pow]
  rw [← nearestPlace_units x]
  apply nearestPlace_congr (Nat.pow_pos (by decide)) Nat.one_pos
  rw [Nat.mul_one, Nat.mul_assoc, hten]

/-- The exact expansion reads back. -/
theorem readsBack_exact (x : Binary64) : x.readsBack x.exact = true := by
  have hneg : ¬ (0 : Int) ≤ -1074 := by decide
  have hexp : (-(-1074 : Int)).toNat = 1074 := by decide
  have hratio : ofScaled? false x.exact.digits x.exact.exponent = atPlace? false x.place := by
    simp only [exact, ofScaled?, if_neg hneg, hexp, ofRatio?, unitsPerOne]
    rw [nearestPlace_decimal x 1074]
  simp only [readsBack, hratio, atPlace?, dif_pos x.place_lt, Option.any_some, beq_self_eq_true]

/-- The decimal chosen for a double reads back to it. -/
theorem readsBack_shortest (x : Binary64) : x.readsBack x.shortest = true := by
  rw [shortest]
  cases h : (List.range 17).findSome? fun n => (x.neighbours (n + 1)).find? x.readsBack with
  | none => exact readsBack_exact x
  | some d =>
    obtain ⟨n, _, hn⟩ := List.exists_of_findSome?_eq_some h
    exact List.find?_some hn

/-- Only a positive decimal reads back to a positive double. -/
theorem digits_pos_of_readsBack (x : Binary64) {d : Scaled} (hx : 0 < x.place)
    (h : x.readsBack d = true) : 0 < d.digits := by
  apply Nat.pos_of_ne_zero
  intro hzero
  have hplace (den : Nat) : nearestPlace (0 * unitsPerOne) den = 0 := by
    simp [nearestPlace, roundHalfEven]
  have hscaled : ofScaled? false d.digits d.exponent = some (zero false) := by
    rw [hzero, ofScaled?]
    split
    · rw [Nat.zero_mul, ofRatio?, hplace]
      rfl
    · rw [ofRatio?, hplace]
      rfl
  rw [readsBack, hscaled] at h
  simp only [Option.any_some, zero, beq_iff_eq] at h
  omega

/-- Two doubles that one decimal reads back to have the same absolute value. -/
theorem place_eq_of_readsBack {x y : Binary64} {d : Scaled} (hx : x.readsBack d = true)
    (hy : y.readsBack d = true) : x.place = y.place := by
  unfold readsBack at hx hy
  cases h : ofScaled? false d.digits d.exponent with
  | none => simp [h] at hx
  | some z =>
    simp only [h, Option.any_some, beq_iff_eq] at hx hy
    exact hx.symm.trans hy

end Binary64
end Conform
