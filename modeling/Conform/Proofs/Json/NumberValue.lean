/-
Module: Conform.Proofs.Json.NumberValue
Purpose: The rational number that a JSON number stands for, and how far canonical texts compare numbers by
  it. Numbers with one canonical text always have one value. Numbers with one value have one canonical
  text if they are stored alike, or below `2 ^ 53` in absolute value; a whole number and a double from
  there on are told apart.
Main exports: Binary64.signedUnits, Binary64.value, Number.value, Number.reduced_eq_reduced_iff,
  Json.Interchangeable, numbers_compared_by_value
-/
import Mathlib.Algebra.Order.Field.Rat
import Mathlib.Algebra.Order.Ring.Cast
import Mathlib.Algebra.Order.Ring.Int
import Mathlib.Data.Int.Cast.Lemmas
import Conform.Check
import Conform.Proofs.Json.Duplicates
import Conform.Proofs.Json.Normal
import Conform.Proofs.Schema.Keywords

namespace Conform

/-! ### Values of doubles -/

namespace Binary64

/-- The double as a multiple of `2 ^ -1074`, with its sign. -/
def signedUnits (x : Binary64) : Int := if x.negative then -(x.units : Int) else x.units

/-- The rational number that a double is. -/
def value (x : Binary64) : ℚ := x.signedUnits / unitsPerOne

variable {x y : Binary64} {i : Int}

theorem unitsPerOne_pos : 0 < unitsPerOne := by
  rw [unitsPerOne]
  apply Nat.pow_pos
  decide

/-- The sign does not change the number of units. -/
theorem natAbs_signedUnits (x : Binary64) : x.signedUnits.natAbs = x.units := by
  rw [signedUnits]
  split
  · rw [Int.natAbs_neg, Int.natAbs_natCast]
  · exact Int.natAbs_natCast _

/-- A double other than zero is known by its value. -/
theorem eq_of_signedUnits_eq (h : x.signedUnits = y.signedUnits) (hne : x.signedUnits ≠ 0) : x = y := by
  have hunits : x.units = y.units := by rw [← natAbs_signedUnits, h, natAbs_signedUnits]
  have hplace : x.place = y.place := by
    rw [← nearestPlace_units x, hunits, nearestPlace_units y]
  have hnegative : x.negative = y.negative := by
    rw [signedUnits, signedUnits, hunits] at h
    rw [signedUnits, hunits] at hne
    cases hx : x.negative <;> cases hy : y.negative <;> simp [hx, hy] at h hne ⊢ <;> omega
  cases x
  cases y
  simp only [mk.injEq]
  exact ⟨hnegative, hplace⟩

/-- A double has a whole value if it is that many ones. -/
theorem toInt?_eq_some_iff : x.toInt? = some i ↔ x.signedUnits = i * unitsPerOne := by
  have hpos := unitsPerOne_pos
  rw [toInt?, isWhole, floorAbs, signedUnits]
  generalize x.units = u
  generalize unitsPerOne = one at hpos
  constructor
  · intro h
    by_cases hwhole : (u % one == 0) = true
    · have hexact : u / one * one = u := Nat.div_mul_cancel (Nat.dvd_of_mod_eq_zero (eq_of_beq hwhole))
      rw [if_pos hwhole] at h
      rw [← Option.some.inj h, ← hexact, Nat.mul_div_cancel _ hpos]
      cases x.negative <;> simp
    · rw [if_neg hwhole] at h
      cases h
  · intro h
    -- The sign is that of `i`, so the number of units is the absolute value of `i` times one.
    have habs : u = i.natAbs * one := by
      have hu := congrArg Int.natAbs h
      rw [Int.natAbs_mul, Int.natAbs_natCast] at hu
      rw [← hu]
      cases x.negative <;> simp
    have hone : (one : Int) ≠ 0 := by omega
    have hwhole : (u % one == 0) = true := by simp [habs]
    rw [if_pos hwhole, habs, Nat.mul_div_cancel _ hpos]
    refine congrArg some (Int.eq_of_mul_eq_mul_right hone ?_)
    rw [← h, habs]
    cases x.negative <;> simp

end Binary64

/-! ### Values of numbers -/

namespace Number

/-- The rational number that a number is. -/
def value : Number → ℚ
  | .integer n => n.value
  | .float x => x.value

/-- The number is stored as a double. -/
def isFloat : Number → Bool
  | .integer _ => false
  | .float _ => true

/-- The number as a multiple of `2 ^ -1074`, with its sign. -/
def signedUnits : Number → Int
  | .integer n => n.value * Binary64.unitsPerOne
  | .float x => x.signedUnits

variable {a b : Number} {x y : Binary64} {n m : Integer64} {i : Int}

theorem value_eq_div (a : Number) : a.value = a.signedUnits / Binary64.unitsPerOne := by
  cases a with
  | integer n =>
    have hone : (Binary64.unitsPerOne : ℚ) ≠ 0 := Nat.cast_ne_zero.2 Binary64.unitsPerOne_pos.ne'
    rw [value, signedUnits, Int.cast_mul, Int.cast_natCast, mul_div_cancel_right₀ _ hone]
  | float x => rfl

/-- Numbers are equal in value if they are equally many units. -/
theorem value_eq_iff : a.value = b.value ↔ a.signedUnits = b.signedUnits := by
  have hone : (Binary64.unitsPerOne : ℚ) ≠ 0 := Nat.cast_ne_zero.2 Binary64.unitsPerOne_pos.ne'
  rw [value_eq_div, value_eq_div, div_left_inj' hone, Int.cast_inj]

/-- A number is the whole number `i` if it is that many ones. -/
theorem value_eq_intCast_iff : a.value = i ↔ a.signedUnits = i * Binary64.unitsPerOne := by
  have hone : (Binary64.unitsPerOne : ℚ) ≠ 0 := Nat.cast_ne_zero.2 Binary64.unitsPerOne_pos.ne'
  rw [value_eq_div, div_eq_iff hone, ← Int.cast_natCast (R := ℚ), ← Int.cast_mul, Int.cast_inj]

/-! ### Reduced numbers -/

/-- Reducing a double keeps its value. -/
theorem signedUnits_reduced (a : Number) : a.reduced.signedUnits = a.signedUnits := by
  cases a with
  | integer n => rfl
  | float x =>
    cases hx : x.toInt? with
    | none => rw [reduced_of_toInt?_none hx]
    | some i =>
      rw [reduced, hx, Option.elim_some, narrow]
      split
      · exact (Binary64.toInt?_eq_some_iff.1 hx).symm
      · rfl

/-- A double becomes a whole number if it has a whole value below `2 ^ 53`. -/
theorem reduced_float_eq_integer_iff :
    reduced (.float x) = .integer n ↔ x.toInt? = some n.value ∧ -2 ^ 53 < n.value ∧ n.value < 2 ^ 53 := by
  constructor
  · intro h
    cases hx : x.toInt? with
    | none =>
      rw [reduced_of_toInt?_none hx] at h
      cases h
    | some i =>
      by_cases hi : -2 ^ 53 < i ∧ i < 2 ^ 53
      · rw [reduced, hx, Option.elim_some, narrow, dif_pos hi] at h
        cases h
        exact ⟨rfl, hi⟩
      · rw [reduced_of_large hx hi] at h
        cases h
  · rintro ⟨hx, hn⟩
    exact reduced_of_small hx hn

/-- Doubles of one value are reduced to one number: they are one double, or the two zeros. -/
theorem reduced_float_congr (h : x.signedUnits = y.signedUnits) :
    reduced (.float x) = reduced (.float y) := by
  by_cases hzero : x.signedUnits = 0
  · have hx : x.toInt? = some 0 := Binary64.toInt?_eq_some_iff.2 (by rw [hzero, Int.zero_mul])
    have hy : y.toInt? = some 0 := Binary64.toInt?_eq_some_iff.2 (by rw [← h, hzero, Int.zero_mul])
    let nought : Integer64 := ⟨0, by decide, by decide⟩
    rw [reduced_of_small (i := nought) hx (by decide), reduced_of_small (i := nought) hy (by decide)]
  · rw [Binary64.eq_of_signedUnits_eq h hzero]

/-- The value is below `2 ^ 53` in absolute value: every whole number below it is a double. -/
def IsSmall (a : Number) : Prop := |a.value| < 2 ^ 53

theorem isSmall_integer_iff : (integer n).IsSmall ↔ -2 ^ 53 < n.value ∧ n.value < 2 ^ 53 := by
  have hlimit : (2 : ℚ) ^ 53 = ((2 ^ 53 : Int) : ℚ) := by norm_cast
  rw [IsSmall, value, hlimit, ← Int.cast_abs, Int.cast_lt, abs_lt]

/-- The numbers are equal in value, and they are stored alike or below `2 ^ 53`. -/
structure Identified (a b : Number) : Prop where
  value : a.value = b.value
  storage : a.isFloat = b.isFloat ∨ a.IsSmall

theorem Identified.symm (h : a.Identified b) : b.Identified a where
  value := h.value.symm
  storage := h.storage.imp Eq.symm fun hsmall => by rwa [IsSmall, ← h.value]

/-- A whole number and a double are reduced to one number if they are equal in value and small. -/
theorem reduced_float_eq_integer_iff_identified :
    reduced (.float x) = .integer n ↔ Identified (.integer n) (.float x) := by
  have hvalue : x.toInt? = some n.value ↔ (integer n).value = (float x).value := by
    rw [Binary64.toInt?_eq_some_iff, value_eq_iff, eq_comm]
    rfl
  rw [reduced_float_eq_integer_iff, hvalue, ← isSmall_integer_iff]
  constructor
  · rintro ⟨hv, hsmall⟩
    exact ⟨hv, Or.inr hsmall⟩
  · rintro ⟨hv, hlike | hsmall⟩
    · cases hlike
    · exact ⟨hv, hsmall⟩

/-- Numbers are reduced to one number exactly if they are identified. -/
theorem reduced_eq_reduced_iff : a.reduced = b.reduced ↔ a.Identified b := by
  cases a with
  | integer n =>
    cases b with
    | integer m =>
      constructor
      · intro h
        cases h
        exact ⟨rfl, Or.inl rfl⟩
      · rintro ⟨hvalue, -⟩
        have hnm : n.value = m.value := Int.cast_injective hvalue
        cases n
        cases m
        cases hnm
        rfl
    | float y => exact eq_comm.trans reduced_float_eq_integer_iff_identified
  | float x =>
    cases b with
    | integer m =>
      exact reduced_float_eq_integer_iff_identified.trans ⟨Identified.symm, Identified.symm⟩
    | float y =>
      constructor
      · intro h
        have hunits : (float x).signedUnits = (float y).signedUnits := by
          rw [← signedUnits_reduced, h, signedUnits_reduced]
        exact ⟨value_eq_iff.2 hunits, Or.inl rfl⟩
      · rintro ⟨hvalue, -⟩
        exact reduced_float_congr (value_eq_iff.1 hvalue)

/-- A number has no fractional part if it is a whole number in value. -/
theorem isWhole_iff : a.isWhole = true ↔ ∃ i : Int, a.value = i := by
  cases a with
  | integer n => simp [isWhole, value]
  | float x =>
    simp only [value_eq_intCast_iff, signedUnits, ← Binary64.toInt?_eq_some_iff]
    rw [isWhole, Binary64.toInt?]
    cases x.isWhole <;> simp

end Number

/-! ### Keywords that compare values -/

namespace Json

variable {a b : Number} {schema value : Json} {listed : List Json}

/-- Numbers are equivalent exactly if they are identified. -/
theorem equivalent_number_iff : (Json.number a).equivalent (.number b) = true ↔ a.Identified b := by
  rw [equivalent_iff, normalize, normalize, Json.number.injEq, Number.reduced_eq_reduced_iff]

/-- Numbers that are identified have one canonical text. -/
theorem canonicalText_number_eq_iff :
    (Json.number a).canonicalText = (Json.number b).canonicalText ↔ a.Identified b := by
  rw [← equivalent_number_iff, equivalent, beq_iff_eq]

/-- A number is called an integer exactly if it is a whole number in value. -/
theorem kind_number_eq_integer_iff : (Json.number a).kind = .integer ↔ ∃ i : Int, a.value = i := by
  rw [kind, ← Number.isWhole_iff]
  cases a.isWhole <;> simp

/-- A number under `const` allows the numbers identified with it. -/
theorem constViolations_number_eq_nil_iff (hconst : schema.get? "const" = some (.number b)) :
    (Node.ofJson schema).constViolations (.number a) = [] ↔ a.Identified b := by
  rw [Node.constViolations_ofJson_eq_nil_iff, ConstAllows, hconst, ← canonicalText_number_eq_iff]
  simp

/-- Only numbers that it is identified with have the canonical text of a number. -/
theorem canonicalText_number_eq_iff_exists :
    (Json.number a).canonicalText = value.canonicalText ↔ ∃ b, value = .number b ∧ a.Identified b := by
  constructor
  · intro h
    have hnormal : (Json.number a).normalize = value.normalize := canonicalText_eq_iff.1 h
    cases value with
    | number b => exact ⟨b, rfl, canonicalText_number_eq_iff.1 h⟩
    | _ => cases hnormal
  · rintro ⟨b, rfl, hidentified⟩
    exact canonicalText_number_eq_iff.2 hidentified

/-- Values under `enum` allow the numbers that are identified with a number among them. -/
theorem enumViolations_number_eq_nil_iff (henum : schema.get? "enum" = some (.array listed)) :
    (Node.ofJson schema).enumViolations (.number a) = [] ↔ ∃ b, .number b ∈ listed ∧ a.Identified b := by
  rw [Node.enumViolations_ofJson_eq_nil_iff, EnumAllows, henum]
  constructor
  · intro hallows
    obtain ⟨candidate, hmem, htext⟩ := hallows listed rfl
    obtain ⟨b, rfl, hidentified⟩ := canonicalText_number_eq_iff_exists.1 htext
    exact ⟨b, hmem, hidentified⟩
  · rintro ⟨b, hmem, hidentified⟩ allowed hallowed
    cases hallowed
    exact ⟨.number b, hmem, canonicalText_number_eq_iff.2 hidentified⟩

/-- Where elements have to differ, a number is reported if one before it is identified with it. -/
theorem duplicateItem_mem_duplicateFindings {items : List Json} {i j : Nat} (place : Location)
    (hwants : schema.WantsDistinct) (hji : j < i) (hb : items[j]? = some (.number b))
    (ha : items[i]? = some (.number a)) (h : a.Identified b) :
    ⟨place.element i, .duplicateItem⟩ ∈ (Node.ofJson schema).duplicateFindings place items := by
  have hdigest : (Json.number b).fingerprint = (Json.number a).fingerprint := by
    rw [fingerprint, fingerprint, canonicalText_number_eq_iff.2 h]
  have htwin : HasEarlierTwin items i := ⟨_, ha, j, _, hji, hb, hdigest⟩
  rw [Node.duplicateFindings, if_pos (Node.distinct_ofJson_iff.2 hwants)]
  exact List.mem_map.2 ⟨i, mem_laterDuplicates_iff.2 htwin, rfl⟩

end Json

/-- Two numbers are equivalent exactly if they are equal in value and either stored alike or below
    `2 ^ 53`, and the keywords that compare values go by that. A whole number and a double equal to it,
    which is called an integer too, are one value to the keywords below `2 ^ 53` and two values from
    there on. -/
theorem numbers_compared_by_value (a b : Number) :
    ((Json.number a).equivalent (.number b) = true ↔ a.Identified b) ∧
      ((Json.number a).kind = .integer ↔ ∃ i : Int, a.value = i) ∧
      ∀ schema : Json,
        (schema.get? "const" = some (.number b) →
          ((Node.ofJson schema).constViolations (.number a) = [] ↔ a.Identified b)) ∧
        (∀ listed : List Json, schema.get? "enum" = some (.array listed) →
          ((Node.ofJson schema).enumViolations (.number a) = [] ↔
            ∃ c, .number c ∈ listed ∧ a.Identified c)) ∧
        (schema.get? "uniqueItems" = some (.bool true) → a.Identified b →
          ∀ (place : Location) (items : List Json) (i j : Nat), j < i →
            items[j]? = some (.number b) → items[i]? = some (.number a) →
              ⟨place.element i, .duplicateItem⟩ ∈ (Node.ofJson schema).duplicateFindings place items) :=
  ⟨Json.equivalent_number_iff, Json.kind_number_eq_integer_iff, fun _ =>
    ⟨Json.constViolations_number_eq_nil_iff, fun _ => Json.enumViolations_number_eq_nil_iff,
      fun hwants h place _ _ _ hji hb ha =>
        Json.duplicateItem_mem_duplicateFindings place hwants hji hb ha h⟩⟩

/-- The double `2 ^ 53 - 1` and the whole number: `const`, `enum` and `uniqueItems` take one for the
    other. -/
theorem numbers_compared_by_value_below_limit :
    let x : Number := .float ⟨false, 1075 * 2 ^ 52 + (2 ^ 52 - 1), by decide⟩
    let n : Number := .integer ⟨2 ^ 53 - 1, by decide, by decide⟩
    let schema : Json :=
      .object [("const", .number n), ("enum", .array [.number n]), ("uniqueItems", .bool true)]
    (Json.number x).equivalent (.number n) = true ∧
      (Node.ofJson schema).constViolations (.number x) = [] ∧
      (Node.ofJson schema).enumViolations (.number x) = [] ∧
      ⟨Location.whole.element 1, .duplicateItem⟩ ∈
        (Node.ofJson schema).duplicateFindings .whole [.number n, .number x] := by
  intro x n schema
  obtain ⟨hequivalent, -, hkeywords⟩ := numbers_compared_by_value x n
  obtain ⟨hconst, henum, hdistinct⟩ := hkeywords schema
  have hreduced : x.reduced = n.reduced := by decide +kernel
  have h : x.Identified n := Number.reduced_eq_reduced_iff.1 hreduced
  exact ⟨hequivalent.2 h, (hconst rfl).2 h, (henum [.number n] rfl).2 ⟨n, List.mem_singleton_self _, h⟩,
    hdistinct rfl h .whole _ 1 0 Nat.one_pos rfl rfl⟩

/-- The double `2 ^ 53` and the whole number are equal in value and both called integers; they are not
    equivalent, and `const` does not allow one for the other. -/
theorem equal_numbers_told_apart :
    let x : Number := .float ⟨false, 1076 * 2 ^ 52, by decide⟩
    let n : Number := .integer ⟨2 ^ 53, by decide, by decide⟩
    x.value = n.value ∧ (Json.number x).kind = .integer ∧ (Json.number n).kind = .integer ∧
      (Json.number x).equivalent (.number n) = false ∧
      (Node.ofJson (.object [("const", .number n)])).constViolations (.number x) =
        [.constMismatch (.number n) (.number x)] := by
  intro x n
  have hapart : (Json.number x).equivalent (.number n) = false := by
    rw [← Bool.not_eq_true, Json.equivalent_number_iff, ← Number.reduced_eq_reduced_iff]
    decide +kernel
  refine ⟨Number.value_eq_iff.2 (by decide +kernel), by decide +kernel, rfl, hapart, ?_⟩
  have hconst : (Node.ofJson (.object [("const", .number n)])).const = some (.number n) := rfl
  rw [Node.constViolations, hconst]
  exact if_neg (by simp [hapart])

end Conform
