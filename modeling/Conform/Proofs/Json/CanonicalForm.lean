/-
Module: Conform.Proofs.Json.CanonicalForm
Purpose: The canonical text is read back as the normal form, if no double is involved. The normal form has
  the keys of each object in strictly ascending order and stores all numbers as whole numbers, and it is
  the one value of this form that has the text.
Main exports: Json.KeysAscend, Json.IntegersOnly, Number.FitsInteger, Number.fitsInteger_iff,
  Json.within_normalize_iff, Json.normalize_eq_self, Json.canonicalText_reads_back
-/
import Conform.Proofs.Json.CompactText
import Conform.Proofs.Json.NumberValue
import Conform.Proofs.Json.SameValue

namespace Conform

/-! ### Values of canonical form -/

/-- A number that is stored as a whole number, or an integral double below `2 ^ 53`. -/
def Number.FitsInteger (n : Number) : Prop := n.isFloat = false ∨ n.isWhole = true ∧ n.IsSmall

namespace Json

/-- The keys of every object in the value, at any depth, are in strictly ascending order,
    by code point. -/
def KeysAscend (v : Json) : Prop :=
  ∀ members, Within (.object members) v → (members.map Prod.fst).Pairwise (· < ·)

/-- Every number in the value, at any depth, is stored as a whole number. -/
def IntegersOnly (v : Json) : Prop := ∀ n, Within (.number n) v → n.isFloat = false

variable {u v : Json}

theorem KeysAscend.part {w : Json} (h : v.KeysAscend) (hpart : Part w v) : w.KeysAscend :=
  fun members hwithin => h members (hwithin.of_part hpart)

theorem IntegersOnly.part {w : Json} (h : v.IntegersOnly) (hpart : Part w v) : w.IntegersOnly :=
  fun n hwithin => h n (hwithin.of_part hpart)

/-! ### What holds of the values inside -/

theorem within_number_iff {n : Number} : Within u (.number n) ↔ u = .number n := by
  rw [within_iff, or_iff_left_iff_imp]
  rintro ⟨part, ⟨⟩, -⟩

theorem within_array_iff {items : List Json} :
    Within u (.array items) ↔ u = .array items ∨ ∃ item ∈ items, Within u item := by
  rw [within_iff]
  refine or_congr_right ⟨?_, ?_⟩
  · rintro ⟨part, ⟨hmem⟩ | _, hwithin⟩
    exact ⟨part, hmem, hwithin⟩
  · rintro ⟨item, hmem, hwithin⟩
    exact ⟨item, .element hmem, hwithin⟩

theorem within_object_iff {members : List (String × Json)} :
    Within u (.object members) ↔ u = .object members ∨ ∃ member ∈ members, Within u member.2 := by
  rw [within_iff]
  refine or_congr_right ⟨?_, ?_⟩
  · rintro ⟨part, _ | ⟨hmem⟩, hwithin⟩
    exact ⟨_, hmem, hwithin⟩
  · rintro ⟨member, hmem, hwithin⟩
    exact ⟨member.2, .member hmem, hwithin⟩

/-- What is inside a proper value is proper. -/
theorem Within.proper (h : Within u v) (hproper : v.Proper) : u.Proper := by
  induction h using Relation.ReflTransGen.head_induction_on with
  | refl => exact hproper
  | head hpart _ ih => exact hpart.proper ih

theorem properItems_of_forall {items : List Json} (h : ∀ item ∈ items, item.Proper) :
    ProperItems items := by
  induction items with
  | nil => trivial
  | cons item rest ih =>
    exact ⟨h item List.mem_cons_self, ih fun other hother => h other (List.mem_cons_of_mem item hother)⟩

theorem properMembers_of_forall {members : List (String × Json)}
    (h : ∀ member ∈ members, member.2.Proper) :
    ProperMembers members := by
  induction members with
  | nil => trivial
  | cons member rest ih =>
    exact ⟨h member List.mem_cons_self, ih fun other hother =>
      h other (List.mem_cons_of_mem member hother)⟩

/-- A value whose keys ascend strictly has no key twice. -/
theorem KeysAscend.proper (h : v.KeysAscend) : v.Proper := by
  induction v using partInduction with
  | step v ih =>
    cases v with
    | array items =>
      exact properItems_of_forall fun item hmem => ih item (.element hmem) (h.part (.element hmem))
    | object members =>
      have hdistinct : (members.map Prod.fst).Nodup := by
        refine (h members (.refl _)).imp ?_
        rintro key _ hlt rfl
        exact String.lt_irrefl key hlt
      exact ⟨hdistinct,
        properMembers_of_forall fun member hmem => ih member.2 (.member hmem) (h.part (.member hmem))⟩
    | _ => trivial

theorem readsBackItems_of_forall {items : List Json} (h : ∀ item ∈ items, item.ReadsBack) :
    ReadsBackItems items := by
  induction items with
  | nil => trivial
  | cons item rest ih =>
    exact ⟨h item List.mem_cons_self, ih fun other hother => h other (List.mem_cons_of_mem item hother)⟩

theorem readsBackMembers_of_forall {members : List (String × Json)}
    (h : ∀ member ∈ members, member.2.ReadsBack) :
    ReadsBackMembers members := by
  induction members with
  | nil => trivial
  | cons member rest ih =>
    exact ⟨h member List.mem_cons_self, ih fun other hother =>
      h other (List.mem_cons_of_mem member hother)⟩

/-- Where all numbers are stored as whole numbers, all numbers read back. -/
theorem IntegersOnly.readsBack (h : v.IntegersOnly) : v.ReadsBack := by
  induction v using partInduction with
  | step v ih =>
    cases v with
    | number n =>
      have hstored := h n (.refl _)
      cases n with
      | integer i => exact Number.readsBack_integer i
      | float x => cases hstored
    | array items =>
      exact readsBackItems_of_forall fun item hmem => ih item (.element hmem) (h.part (.element hmem))
    | object members =>
      exact readsBackMembers_of_forall fun member hmem =>
        ih member.2 (.member hmem) (h.part (.member hmem))
    | _ => trivial

/-! ### Depth -/

theorem depthItems_le_iff {items : List Json} {levels : Nat} :
    depthItems items ≤ levels ↔ ∀ item ∈ items, item.depth ≤ levels := by
  induction items with
  | nil => simp [depthItems]
  | cons item rest ih => rw [depthItems, Nat.max_le, ih, List.forall_mem_cons]

theorem depthMembers_le_iff {members : List (String × Json)} {levels : Nat} :
    depthMembers members ≤ levels ↔ ∀ member ∈ members, member.2.depth ≤ levels := by
  induction members with
  | nil => simp [depthMembers]
  | cons member rest ih => rw [depthMembers, Nat.max_le, ih, List.forall_mem_cons]

/-- Normalizing does not nest values deeper. -/
theorem depth_normalize_le {levels : Nat} (h : v.depth ≤ levels) : v.normalize.depth ≤ levels := by
  induction v using partInduction generalizing levels with
  | step v ih =>
    cases v with
    | array items =>
      cases levels with
      | zero => exact absurd h (Nat.not_succ_le_zero _)
      | succ levels =>
        have hitems := depthItems_le_iff.1 (Nat.le_of_succ_le_succ h)
        refine Nat.succ_le_succ (depthItems_le_iff.2 fun item hmem => ?_)
        rw [normalizeItems_eq_map] at hmem
        obtain ⟨before, hbefore, rfl⟩ := List.mem_map.1 hmem
        exact ih before (.element hbefore) (hitems before hbefore)
    | object members =>
      cases levels with
      | zero => exact absurd h (Nat.not_succ_le_zero _)
      | succ levels =>
        have hmembers := depthMembers_le_iff.1 (Nat.le_of_succ_le_succ h)
        refine Nat.succ_le_succ (depthMembers_le_iff.2 ?_)
        rintro ⟨key, value⟩ hmem
        obtain ⟨before, hbefore, rfl⟩ := mem_normalizeMembers.1 ((sortMembers_perm _).subset hmem)
        exact ih before (.member hbefore) (hmembers (key, before) hbefore)
    | _ => exact h

/-! ### Values inside a normal form -/

/-- The parts of a normal form are the normal forms of the parts. -/
theorem part_normalize_iff : Part u v.normalize ↔ ∃ part, Part part v ∧ part.normalize = u := by
  cases v with
  | array items =>
    rw [normalize, normalizeItems_eq_map]
    constructor
    · rintro (⟨hmem⟩ | _)
      obtain ⟨part, hpart, rfl⟩ := List.mem_map.1 hmem
      exact ⟨part, .element hpart, rfl⟩
    · rintro ⟨part, ⟨hmem⟩ | _, rfl⟩
      exact .element (List.mem_map_of_mem hmem)
  | object members =>
    rw [normalize]
    constructor
    · rintro (_ | ⟨hmem⟩)
      obtain ⟨part, hpart, rfl⟩ := mem_normalizeMembers.1 ((sortMembers_perm _).subset hmem)
      exact ⟨part, .member hpart, rfl⟩
    · rintro ⟨part, _ | ⟨hmem⟩, rfl⟩
      exact .member ((sortMembers_perm _).symm.subset (mem_normalizeMembers.2 ⟨part, hmem, rfl⟩))
  | _ =>
    constructor
    · intro h
      cases h
    · rintro ⟨part, hpart, -⟩
      cases hpart

/-- The values inside a normal form are the normal forms of the values inside. -/
theorem within_normalize_iff : Within u v.normalize ↔ ∃ part, Within part v ∧ part.normalize = u := by
  induction v using partInduction with
  | step v ih =>
    rw [within_iff]
    constructor
    · rintro (rfl | ⟨part, hpart, hwithin⟩)
      · exact ⟨v, .refl v, rfl⟩
      · obtain ⟨before, hbefore, rfl⟩ := part_normalize_iff.1 hpart
        obtain ⟨inner, hinner, rfl⟩ := (ih before hbefore).1 hwithin
        exact ⟨inner, hinner.of_part hbefore, rfl⟩
    · rintro ⟨inner, hinner, rfl⟩
      rcases within_iff.1 hinner with rfl | ⟨part, hpart, hwithin⟩
      · exact .inl rfl
      · exact .inr ⟨part.normalize, part_normalize_iff.2 ⟨part, hpart, rfl⟩,
          (ih part hpart).2 ⟨inner, hwithin, rfl⟩⟩

/-- Keys that are distinct ascend strictly in the normal form. -/
theorem keysAscend_normalize (hproper : v.Proper) : v.normalize.KeysAscend := by
  intro members hwithin
  obtain ⟨inner, hinner, hmembers⟩ := within_normalize_iff.1 hwithin
  cases inner with
  | object before =>
    obtain rfl := Json.object.inj hmembers
    have hdistinct : ((sortMembers (normalizeMembers before)).map Prod.fst).Nodup := by
      rw [((sortMembers_perm _).map Prod.fst).nodup_iff, keys_normalizeMembers]
      exact (hinner.proper hproper).1
    have hsorted := sortMembers_pairwise (normalizeMembers before)
    have hascend : ((sortMembers (normalizeMembers before)).map Prod.fst).Pairwise fun a b => a ≤ b :=
      List.pairwise_map.2 hsorted
    exact hascend.imp₂
      (fun a b hle hne => String.not_le.1 fun hge => hne (String.le_antisymm hle hge)) hdistinct
  | _ => cases hmembers

end Json

/-- A number fits a whole number exactly if it is stored as one when it is reduced. -/
theorem Number.fitsInteger_iff {n : Number} : n.FitsInteger ↔ n.reduced.isFloat = false := by
  cases n with
  | integer i => exact iff_of_true (.inl rfl) rfl
  | float x =>
    constructor
    · intro h
      obtain ⟨hwhole, hsmall⟩ := h.resolve_left Bool.noConfusion
      obtain ⟨i, hi⟩ := isWhole_iff.1 hwhole
      have hx : x.toInt? = some i := Binary64.toInt?_eq_some_iff.2 (value_eq_intCast_iff.1 hi)
      have hbound : -2 ^ 53 < i ∧ i < 2 ^ 53 := by
        rw [IsSmall, hi] at hsmall
        exact abs_lt.1 (by exact_mod_cast hsmall)
      rw [reduced, hx, Option.elim_some, narrow, dif_pos hbound]
      rfl
    · intro h
      cases hreduced : (Number.float x).reduced with
      | integer i =>
        obtain ⟨hx, hbound⟩ := reduced_float_eq_integer_iff.1 hreduced
        have hvalue : (float x).value = (integer i).value :=
          value_eq_iff.2 (Binary64.toInt?_eq_some_iff.1 hx)
        refine .inr ⟨isWhole_of_toInt? hx, ?_⟩
        rw [IsSmall, hvalue]
        exact isSmall_integer_iff.2 hbound
      | float y =>
        rw [hreduced] at h
        cases h

namespace Json

variable {u v : Json}

/-- Numbers that fit whole numbers are stored as such in the normal form. -/
theorem integersOnly_normalize (hnumbers : ∀ n, Within (.number n) v → n.FitsInteger) :
    v.normalize.IntegersOnly := by
  intro n hwithin
  obtain ⟨inner, hinner, hnumber⟩ := within_normalize_iff.1 hwithin
  cases inner with
  | number before =>
    obtain rfl := Json.number.inj hnumber
    exact Number.fitsInteger_iff.1 (hnumbers before hinner)
  | _ => cases hnumber

/-- A value with ascending keys and whole numbers is its own normal form. -/
theorem normalize_eq_self (hkeys : v.KeysAscend) (hintegers : v.IntegersOnly) : v.normalize = v := by
  induction v using partInduction with
  | step v ih =>
    have hpart : ∀ part, Part part v → part.normalize = part := fun part hpart =>
      ih part hpart (hkeys.part hpart) (hintegers.part hpart)
    cases v with
    | number n =>
      have hstored := hintegers n (.refl _)
      cases n with
      | integer i => rfl
      | float x => cases hstored
    | array items =>
      rw [normalize, normalizeItems_eq_map,
        List.map_congr_left fun item hmem => hpart item (.element hmem), List.map_id']
    | object members =>
      have hmembers : normalizeMembers members = members := by
        rw [normalizeMembers_eq_map]
        refine (List.map_congr_left fun member hmem => ?_).trans (List.map_id' members)
        rw [hpart member.2 (.member hmem)]
      have hsorted := hkeys members (.refl _)
      rw [List.pairwise_map] at hsorted
      rw [normalize, hmembers,
        sortMembers_of_pairwise (hsorted.imp fun hlt => String.not_lt.1 (String.lt_asymm hlt))]
    | _ => rfl

/-- The canonical text of a value without fractions and large doubles, nested 127 deep at most, is read
    back as an equivalent value with the same canonical text. Its keys ascend strictly in every object,
    all its numbers are whole numbers, and no other value of this form has the text. -/
theorem canonicalText_reads_back (hproper : v.Proper) (hdepth : v.depth ≤ 127)
    (hnumbers : ∀ n, Within (.number n) v → n.FitsInteger) :
    ∃ w, parse? v.canonicalText = some w ∧ v.equivalent w = true ∧ w.canonicalText = v.canonicalText ∧
      w.KeysAscend ∧ w.IntegersOnly ∧
      ∀ u : Json, u.KeysAscend → u.IntegersOnly → u.canonicalText = v.canonicalText → u = w := by
  have hkeys := keysAscend_normalize hproper
  have hintegers := integersOnly_normalize hnumbers
  have hread : parse? v.canonicalText = some v.normalize :=
    parse?_compact hkeys.proper hintegers.readsBack (depth_normalize_le hdepth)
  refine ⟨v.normalize, hread, equivalent_iff.2 (normalize_normalize v).symm,
    canonicalText_normalize v, hkeys, hintegers, fun u hukeys huintegers htext => ?_⟩
  rw [← canonicalText_eq_iff.1 htext, normalize_eq_self hukeys huintegers]

/-- Keys out of order that need escapes, a double that is one and a negative zero, the largest whole
    number. -/
theorem canonicalText_of_unsorted_reads_back :
    let one : Number := .float ⟨false, 0x3ff0000000000000, by decide⟩
    let nought : Number := .float (.zero true)
    let most : Number := .integer ⟨0xffffffffffffffff, by decide, by decide⟩
    let v : Json := .object [("z", .array [.number one, .number nought]), ("\"\n", .number most)]
    v.Proper ∧ v.depth ≤ 127 ∧ (∀ n, Within (.number n) v → n.FitsInteger) ∧
      ∃ w, parse? v.canonicalText = some w ∧ v.equivalent w = true ∧ w.KeysAscend ∧ w.IntegersOnly := by
  intro one nought most v
  have hproper : v.Proper := by simp [v, Proper, ProperMembers, ProperItems]
  have hdepth : v.depth ≤ 127 := by decide
  have hnumbers : ∀ n, Within (.number n) v → n.FitsInteger := by
    have hinside : ∀ n, Within (.number n) v → (n = one ∨ n = nought) ∨ n = most := by
      simp [v, within_object_iff, within_array_iff, within_number_iff]
    intro n hwithin
    rw [Number.fitsInteger_iff]
    rcases hinside n hwithin with (rfl | rfl) | rfl
    · decide +kernel
    · decide +kernel
    · rfl
  obtain ⟨w, hread, hequivalent, -, hkeys, hintegers, -⟩ :=
    canonicalText_reads_back hproper hdepth hnumbers
  exact ⟨hproper, hdepth, hnumbers, w, hread, hequivalent, hkeys, hintegers⟩

end Json
end Conform
