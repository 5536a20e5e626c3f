/-
Module: Conform.Proofs.Json.Duplicates
Purpose: What the search for later duplicates finds: the positions of the elements that repeat the digest
  of an earlier one, each once and in ascending order. All elements but the first of each digest are
  found, and elements added at the end change nothing about what is found before.
Main exports: Json.HasEarlierTwin, Json.mem_laterDuplicates_iff, Json.pairwise_laterDuplicates,
  Json.length_laterDuplicates_add_card, Json.laterDuplicates_prefix_append
-/
import Conform.Json.Fingerprint
import Mathlib.Data.Finset.Card
import Mathlib.Data.List.Basic

namespace Conform
namespace Json

/-- There is an element at a position, and one before it has the same digest. -/
def HasEarlierTwin (items : List Json) (i : Nat) : Prop :=
  ∃ x, items[i]? = some x ∧ ∃ j y, j < i ∧ items[j]? = some y ∧ y.fingerprint = x.fingerprint

theorem not_hasEarlierTwin_nil {i : Nat} : ¬ HasEarlierTwin [] i := by
  simp [HasEarlierTwin]

/-! ### Positions in a list of digests -/

/-- The digest at a position was seen before the list or stands at an earlier position. -/
def Repeats (seen digests : List Sha256.State) (k : Nat) : Prop :=
  ∃ f, digests[k]? = some f ∧ (f ∈ seen ∨ ∃ j, j < k ∧ digests[j]? = some f)

variable {f : Sha256.State} {seen digests : List Sha256.State} {index i k : Nat}

/-- The first digest repeats only what was seen before. -/
theorem repeats_cons_zero_iff : Repeats seen (f :: digests) 0 ↔ f ∈ seen := by
  simp [Repeats]

/-- For the digests behind it, the first one counts as seen. -/
theorem repeats_cons_succ_iff : Repeats seen (f :: digests) (k + 1) ↔ Repeats (f :: seen) digests k := by
  have hearlier : ∀ g, (∃ j, j < k + 1 ∧ (f :: digests)[j]? = some g) ↔
      f = g ∨ ∃ j, j < k ∧ digests[j]? = some g := by
    intro g
    constructor
    · rintro ⟨_ | j, hj, hget⟩
      · exact Or.inl (by simpa using hget)
      · exact Or.inr ⟨j, by omega, by simpa using hget⟩
    · rintro (rfl | ⟨j, hj, hget⟩)
      · exact ⟨0, by omega, rfl⟩
      · exact ⟨j + 1, by omega, by simpa using hget⟩
  simp only [Repeats, List.getElem?_cons_succ, hearlier, List.mem_cons]
  refine exists_congr fun g => and_congr_right fun _ => ?_
  rw [eq_comm (a := f), ← or_assoc, or_comm (a := g ∈ seen)]

/-- To see a digest twice makes no difference. -/
theorem repeats_cons_seen_iff (h : f ∈ seen) :
    Repeats (f :: seen) digests k ↔ Repeats seen digests k := by
  have hmem : ∀ g, g ∈ f :: seen ↔ g ∈ seen := fun g => by
    rw [List.mem_cons, or_iff_right_iff_imp]
    rintro rfl
    exact h
  simp only [Repeats, hmem]

/-- The positions found are those that repeat a digest, counted from where the count begins. -/
theorem mem_repeatedAt_iff :
    i ∈ repeatedAt index seen digests ↔ ∃ k, i = index + k ∧ Repeats seen digests k := by
  induction digests generalizing index seen with
  | nil => simp [repeatedAt, Repeats]
  | cons f rest ih =>
    -- A position is the first one or a position in the rest, counted one further on.
    have hrest : (∃ k, i = index + k ∧ Repeats seen (f :: rest) k) ↔
        (i = index ∧ f ∈ seen) ∨ ∃ k, i = index + 1 + k ∧ Repeats (f :: seen) rest k := by
      constructor
      · rintro ⟨_ | k, rfl, hrepeats⟩
        · exact Or.inl ⟨rfl, repeats_cons_zero_iff.1 hrepeats⟩
        · exact Or.inr ⟨k, by omega, repeats_cons_succ_iff.1 hrepeats⟩
      · rintro (⟨rfl, hf⟩ | ⟨k, rfl, hrepeats⟩)
        · exact ⟨0, rfl, repeats_cons_zero_iff.2 hf⟩
        · exact ⟨k + 1, by omega, repeats_cons_succ_iff.2 hrepeats⟩
    rw [hrest, repeatedAt]
    by_cases hf : f ∈ seen
    · rw [if_pos hf, List.mem_cons, ih, and_iff_left hf]
      simp only [repeats_cons_seen_iff hf]
    · rw [if_neg hf, ih, or_iff_right fun h => hf h.2]

/-- The positions found ascend. -/
theorem pairwise_repeatedAt : (repeatedAt index seen digests).Pairwise (· < ·) := by
  induction digests generalizing index seen with
  | nil => exact .nil
  | cons f rest ih =>
    rw [repeatedAt]
    by_cases hf : f ∈ seen
    · rw [if_pos hf, List.pairwise_cons]
      refine ⟨fun i hi => ?_, ih⟩
      obtain ⟨k, rfl, -⟩ := mem_repeatedAt_iff.1 hi
      omega
    · rw [if_neg hf]
      exact ih

/-- Each digest is found as often as it stands in the list, but for the first time if it was not seen
    before. -/
theorem length_repeatedAt_add_card :
    (repeatedAt index seen digests).length + (seen ++ digests).toFinset.card =
      digests.length + seen.toFinset.card := by
  induction digests generalizing index seen with
  | nil => simp [repeatedAt]
  | cons f rest ih =>
    have hsame : (f :: seen ++ rest).toFinset = (seen ++ f :: rest).toFinset :=
      List.toFinset_eq_of_perm _ _ List.perm_middle.symm
    rw [repeatedAt]
    by_cases hf : f ∈ seen
    · have hseen : (f :: seen).toFinset = seen.toFinset := by
        rw [List.toFinset_cons, Finset.insert_eq_of_mem (List.mem_toFinset.2 hf)]
      have habsorbed : (seen ++ f :: rest).toFinset = (seen ++ rest).toFinset := by
        rw [← hsame, List.toFinset_append, hseen, List.toFinset_append]
      have hcount : (repeatedAt (index + 1) seen rest).length + (seen ++ rest).toFinset.card =
          rest.length + seen.toFinset.card := ih
      rw [if_pos hf, habsorbed, List.length_cons, List.length_cons]
      omega
    · have hcard : (f :: seen).toFinset.card = seen.toFinset.card + 1 := by
        rw [List.toFinset_cons, Finset.card_insert_of_notMem (mt List.mem_toFinset.1 hf)]
      have hcount : (repeatedAt (index + 1) (f :: seen) rest).length + (f :: seen ++ rest).toFinset.card =
          rest.length + (f :: seen).toFinset.card := ih
      rw [hsame, hcard] at hcount
      rw [if_neg hf, List.length_cons]
      omega

/-- Digests added at the end change nothing about what is found before. -/
theorem repeatedAt_prefix_append (more : List Sha256.State) :
    repeatedAt index seen digests <+: repeatedAt index seen (digests ++ more) := by
  induction digests generalizing index seen with
  | nil => exact List.nil_prefix
  | cons f rest ih =>
    rw [List.cons_append, repeatedAt, repeatedAt]
    by_cases hf : f ∈ seen
    · rw [if_pos hf, if_pos hf]
      exact List.cons_prefix_cons.2 ⟨rfl, ih⟩
    · rw [if_neg hf, if_neg hf]
      exact ih

/-! ### Positions in a list of values -/

/-- The later duplicates are the elements that have an earlier twin. -/
theorem mem_laterDuplicates_iff {items : List Json} :
    i ∈ laterDuplicates items ↔ HasEarlierTwin items i := by
  rw [laterDuplicates, mem_repeatedAt_iff]
  simp only [Nat.zero_add, exists_eq_left', Repeats, List.not_mem_nil, false_or, List.getElem?_map,
    Option.map_eq_some_iff, HasEarlierTwin]
  constructor
  · rintro ⟨-, ⟨x, hx, rfl⟩, j, hj, y, hy, htwin⟩
    exact ⟨x, hx, j, y, hj, hy, htwin⟩
  · rintro ⟨x, hx, j, y, hj, hy, htwin⟩
    exact ⟨_, ⟨x, hx, rfl⟩, j, hj, y, hy, htwin⟩

/-- The later duplicates are found in ascending order. -/
theorem pairwise_laterDuplicates (items : List Json) : (laterDuplicates items).Pairwise (· < ·) :=
  pairwise_repeatedAt

/-- There is a later duplicate for each element but the first of each digest. -/
theorem length_laterDuplicates_add_card (items : List Json) :
    (laterDuplicates items).length + (items.map fingerprint).toFinset.card = items.length := by
  have hcount : (laterDuplicates items).length + ([] ++ items.map fingerprint).toFinset.card =
      (items.map fingerprint).length + ([] : List Sha256.State).toFinset.card :=
    length_repeatedAt_add_card
  rwa [List.nil_append, List.length_map] at hcount

/-- Reordering the elements changes which of them are later duplicates, but not how many. -/
theorem length_laterDuplicates_of_perm {items items' : List Json} (h : items'.Perm items) :
    (laterDuplicates items').length = (laterDuplicates items).length := by
  have hcount := length_laterDuplicates_add_card items
  have hcount' := length_laterDuplicates_add_card items'
  rw [List.toFinset_eq_of_perm _ _ (h.map fingerprint), h.length_eq] at hcount'
  omega

/-- Elements added at the end leave the later duplicates where they are. -/
theorem laterDuplicates_prefix_append (items more : List Json) :
    laterDuplicates items <+: laterDuplicates (items ++ more) := by
  rw [laterDuplicates, laterDuplicates, List.map_append]
  exact repeatedAt_prefix_append _

end Json
end Conform
