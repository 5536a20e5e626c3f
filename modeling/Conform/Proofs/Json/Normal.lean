/-
Module: Conform.Proofs.Json.Normal
Purpose: The normal form of a value. Two values have one canonical text exactly if they have one normal
  form; the normal form is its own, and it keeps the kind of a value, what is found under each key, and
  with it everything that is read off a value one key at a time.
Main exports: Json.lookup_sortMembers, Json.normalize_normalize, Json.canonicalText_eq_iff,
  Json.equivalent_iff, Json.get?_normalize, Json.kind_normalize
-/
import Conform.Json.Fingerprint
import Conform.Json.Kind
import Conform.Proofs.Json.Text

namespace Conform

/-! ### Numbers -/

namespace Number

/-- Only doubles without a fractional part have a whole value. -/
theorem isWhole_of_toInt? {x : Binary64} {i : Int} (h : x.toInt? = some i) : x.isWhole = true := by
  unfold Binary64.toInt? at h
  by_cases hw : x.isWhole = true
  · exact hw
  · rw [if_neg hw] at h
    cases h

/-- A double with a fractional part is reduced already. -/
theorem reduced_of_toInt?_none {x : Binary64} (h : x.toInt? = none) :
    reduced (.float x) = .float x := by
  rw [reduced, h, Option.elim_none]

/-- A small integral double becomes a whole number. -/
theorem reduced_of_small {x : Binary64} {i : Integer64} (h : x.toInt? = some i.value)
    (hi : -2 ^ 53 < i.value ∧ i.value < 2 ^ 53) : reduced (.float x) = .integer i := by
  rw [reduced, h, Option.elim_some, narrow, dif_pos hi]

/-- A large integral double stays a double. -/
theorem reduced_of_large {x : Binary64} {i : Int} (h : x.toInt? = some i)
    (hi : ¬ (-2 ^ 53 < i ∧ i < 2 ^ 53)) : reduced (.float x) = .float x := by
  rw [reduced, h, Option.elim_some, narrow, dif_neg hi]

/-- Reducing a number changes nothing, or turns an integral double into a whole number. -/
theorem reduced_cases (n : Number) :
    n.reduced = n ∨ ∃ x i, n = .float x ∧ x.isWhole = true ∧ n.reduced = .integer i := by
  cases n with
  | integer n => exact Or.inl rfl
  | float x =>
    cases hx : x.toInt? with
    | none => exact Or.inl (reduced_of_toInt?_none hx)
    | some i =>
      by_cases h : -2 ^ 53 < i ∧ i < 2 ^ 53
      · let whole : Integer64 := ⟨i, by omega, by omega⟩
        exact Or.inr ⟨x, whole, rfl, isWhole_of_toInt? hx, reduced_of_small (i := whole) hx h⟩
      · exact Or.inl (reduced_of_large hx h)

/-- A number that is reduced stays as it is. -/
theorem reduced_reduced (n : Number) : n.reduced.reduced = n.reduced := by
  rcases n.reduced_cases with h | ⟨x, i, -, -, h⟩
  · rw [h, h]
  · rw [h]
    rfl

/-- Reducing a number keeps whether it has a fractional part. -/
theorem isWhole_reduced (n : Number) : n.reduced.isWhole = n.isWhole := by
  rcases n.reduced_cases with h | ⟨x, i, rfl, hx, h⟩
  · rw [h]
  · rw [h, isWhole, isWhole, hx]

end Number

namespace Json

/-! ### Sorted members -/

variable {members : List (String × Json)}

/-- Sorting only changes the order. -/
theorem sortMembers_perm (members : List (String × Json)) : (sortMembers members).Perm members :=
  List.mergeSort_perm members _

/-- The order of members by their keys is transitive. -/
theorem keyLe_trans (a b c : String × Json) (hab : decide (a.1 ≤ b.1) = true)
    (hbc : decide (b.1 ≤ c.1) = true) : decide (a.1 ≤ c.1) = true := by
  simp only [decide_eq_true_eq] at hab hbc ⊢
  exact String.le_trans hab hbc

/-- The order of members by their keys is total. -/
theorem keyLe_total (a b : String × Json) :
    (decide (a.1 ≤ b.1) || decide (b.1 ≤ a.1)) = true := by
  simpa using String.le_total a.1 b.1

/-- Sorted members are in ascending order of their keys. -/
theorem sortMembers_pairwise (members : List (String × Json)) :
    (sortMembers members).Pairwise fun a b => a.1 ≤ b.1 := by
  have hsorted : (sortMembers members).Pairwise fun a b => decide (a.1 ≤ b.1) = true :=
    List.pairwise_mergeSort keyLe_trans keyLe_total members
  exact hsorted.imp (by simp)

/-- Members in ascending order stay where they are. -/
theorem sortMembers_of_pairwise (h : members.Pairwise fun a b => a.1 ≤ b.1) :
    sortMembers members = members :=
  List.mergeSort_of_pairwise (h.imp (by simp))

/-- The members under one key keep their order when all are sorted. -/
theorem filter_sortMembers (key : String) (members : List (String × Json)) :
    (sortMembers members).filter (·.1 == key) = members.filter (·.1 == key) := by
  have hequal : (members.filter (·.1 == key)).Pairwise fun a b => decide (a.1 ≤ b.1) = true := by
    rw [List.pairwise_iff_forall_sublist]
    intro a b hab
    have ha := List.mem_filter.1 (hab.subset (by simp : a ∈ [a, b]))
    have hb := List.mem_filter.1 (hab.subset (by simp : b ∈ [a, b]))
    simp [eq_of_beq ha.2, eq_of_beq hb.2]
  have hsub : (members.filter (·.1 == key)).Sublist (sortMembers members) :=
    List.sublist_mergeSort keyLe_trans keyLe_total hequal List.filter_sublist
  have hsub' := hsub.filter (·.1 == key)
  rw [List.filter_filter] at hsub'
  simp only [Bool.and_self] at hsub'
  have hlength : (members.filter (·.1 == key)).length =
      ((sortMembers members).filter (·.1 == key)).length :=
    ((sortMembers_perm members).filter _).length_eq.symm
  exact (hsub'.eq_of_length hlength).symm

/-- What is found under a key is the first of the members under the key. -/
theorem lookup_eq_head?_filter (key : String) (members : List (String × Json)) :
    members.lookup key = ((members.filter (·.1 == key)).head?).map Prod.snd := by
  induction members with
  | nil => rfl
  | cons member rest ih =>
    rcases member with ⟨k, v⟩
    by_cases h : k = key
    · subst h
      simp
    · have hk : (k == key) = false := by simpa using h
      have hk' : (key == k) = false := by simpa using fun e : key = k => h e.symm
      rw [List.lookup_cons, List.filter_cons_of_neg (by simp [hk])]
      simp [hk', ih]

/-- Sorting does not change what is found under a key. -/
theorem lookup_sortMembers (key : String) (members : List (String × Json)) :
    (sortMembers members).lookup key = members.lookup key := by
  rw [lookup_eq_head?_filter, filter_sortMembers, ← lookup_eq_head?_filter]

/-! ### Normal forms -/

theorem normalizeItems_eq_map (items : List Json) : normalizeItems items = items.map normalize := by
  induction items with
  | nil => rfl
  | cons item rest ih => rw [normalizeItems, ih, List.map_cons]

theorem normalizeMembers_eq_map (members : List (String × Json)) :
    normalizeMembers members = members.map fun member => (member.1, member.2.normalize) := by
  induction members with
  | nil => rfl
  | cons member rest ih =>
    rcases member with ⟨key, value⟩
    rw [normalizeMembers, ih, List.map_cons]

/-- Values may be normalized before or after the members are sorted. -/
theorem sortMembers_normalizeMembers (members : List (String × Json)) :
    sortMembers (normalizeMembers members) = normalizeMembers (sortMembers members) := by
  rw [normalizeMembers_eq_map, normalizeMembers_eq_map]
  have hkeys : ∀ a ∈ members, ∀ b ∈ members, decide (a.1 ≤ b.1) =
      decide ((a.1, a.2.normalize).1 ≤ (b.1, b.2.normalize).1) := fun _ _ _ _ => rfl
  exact (List.map_mergeSort hkeys).symm

/-- What is found under a key of the normalized members. -/
theorem lookup_normalizeMembers (key : String) (members : List (String × Json)) :
    (normalizeMembers members).lookup key = (members.lookup key).map normalize := by
  induction members with
  | nil => rfl
  | cons member rest ih =>
    rcases member with ⟨k, v⟩
    rw [normalizeMembers, List.lookup_cons, List.lookup_cons, ih]
    cases key == k <;> rfl

mutual

/-- A normal form is its own normal form. -/
theorem normalize_normalize : ∀ v : Json, v.normalize.normalize = v.normalize
  | .null => rfl
  | .bool _ => rfl
  | .number n => congrArg Json.number n.reduced_reduced
  | .string _ => rfl
  | .array items => congrArg Json.array (normalizeItems_normalizeItems items)
  | .object members => by
    rw [normalize, normalize, ← sortMembers_normalizeMembers, normalizeMembers_normalizeMembers,
      sortMembers_of_pairwise (sortMembers_pairwise _)]

theorem normalizeItems_normalizeItems : ∀ items : List Json,
    normalizeItems (normalizeItems items) = normalizeItems items
  | [] => rfl
  | item :: rest => by
    rw [normalizeItems, normalizeItems, normalize_normalize item, normalizeItems_normalizeItems rest]

theorem normalizeMembers_normalizeMembers : ∀ members : List (String × Json),
    normalizeMembers (normalizeMembers members) = normalizeMembers members
  | [] => rfl
  | (key, value) :: rest => by
    rw [normalizeMembers, normalizeMembers, normalize_normalize value,
      normalizeMembers_normalizeMembers rest]

end

/-- Two values have one canonical text exactly if they have one normal form. -/
theorem canonicalText_eq_iff {a b : Json} :
    a.canonicalText = b.canonicalText ↔ a.normalize = b.normalize :=
  ⟨compact_injective, fun h => by rw [canonicalText, h, canonicalText]⟩

/-- Values are equivalent exactly if they have one normal form. -/
theorem equivalent_iff {a b : Json} : a.equivalent b = true ↔ a.normalize = b.normalize := by
  rw [equivalent, beq_iff_eq, canonicalText_eq_iff]

/-- A value and its normal form have one canonical text. -/
@[simp] theorem canonicalText_normalize (v : Json) : v.normalize.canonicalText = v.canonicalText := by
  rw [canonicalText_eq_iff, normalize_normalize]

/-- A value and its normal form have one digest. -/
@[simp] theorem fingerprint_normalize (v : Json) : v.normalize.fingerprint = v.fingerprint := by
  rw [fingerprint, canonicalText_normalize, fingerprint]

/-! ### Parts of a normal form -/

/-- Under a key of the normal form stands the normal form of what stands under the key. -/
@[simp] theorem get?_normalize (v : Json) (key : String) :
    v.normalize.get? key = (v.get? key).map normalize := by
  cases v with
  | object members =>
    rw [normalize, get?, get?, lookup_sortMembers, lookup_normalizeMembers]
  | _ => rfl

/-- Normalizing keeps the kind. -/
@[simp] theorem kind_normalize (v : Json) : v.normalize.kind = v.kind := by
  cases v with
  | number n => rw [normalize, kind, kind, n.isWhole_reduced]
  | _ => rfl

@[simp] theorem isObject_normalize (v : Json) : v.normalize.isObject = v.isObject := by
  cases v <;> rfl

@[simp] theorem asString?_normalize (v : Json) : v.normalize.asString? = v.asString? := by
  cases v <;> rfl

@[simp] theorem asArray?_normalize (v : Json) :
    v.normalize.asArray? = v.asArray?.map normalizeItems := by
  cases v <;> rfl

end Json
end Conform
