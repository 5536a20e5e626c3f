/-
Module: Conform.Proofs.Check.Distinct
Purpose: The search for duplicates among the elements of an array. What a visit that comes to it reports
  as duplicates are the later duplicates of the array: their number is that of the elements less that of
  the classes of equal ones, whatever their order, and elements added at the end leave them where they
  are.
Main exports: Finding.duplicateAt?, SearchesDuplicates, duplicatesAt, duplicatesAt_eq_laterDuplicates,
  Json.classes, duplicatesAt_reports_later_duplicates
-/
import Conform.Proofs.Check.Counts
import Conform.Proofs.Check.Relocation

namespace Conform

open Json

/-! ### Reported duplicates -/

/-- The position that a finding reports as a duplicate among the elements of the array at a place. -/
def Finding.duplicateAt? (place : Location) : Finding → Option Nat
  | ⟨.element parent i, .duplicateItem⟩ => if parent = place then some i else none
  | _ => none

/-- The positions that a visit of an array reports as duplicates, in the order of the report. -/
def duplicatesAt (root schema : Json) (place : Location) (items : List Json) : List Nat :=
  (visit root schema place (.array items)).findings.filterMap (Finding.duplicateAt? place)

/-- The visit of an array comes to the search for duplicates: the schema that counts asks for distinct
    elements and is not about objects, the type of the array is allowed, and the visit of each element
    comes to an end. -/
inductive SearchesDuplicates (root schema : Json) (items : List Json) : Prop where
  | intro {target : Json} (resolves : effectiveSchema root schema = .ok target)
      (type : target.TypeAllows (.array items)) (unshaped : ¬ target.ObjectShaped)
      (wanted : target.WantsDistinct)
      (elements : ∀ inner item, target.ItemSchema inner → item ∈ items →
        (visit root inner .whole item).failure = none)

section Search

variable {root schema : Json} {place base : Location} {items : List Json} {f : Finding} {i : Nat}

theorem Finding.duplicateAt?_eq_some_iff :
    f.duplicateAt? place = some i ↔ f = ⟨place.element i, .duplicateItem⟩ := by
  constructor
  · intro h
    rcases f with ⟨location, violation⟩
    cases location with
    | element parent j =>
      cases violation with
      | duplicateItem =>
        obtain ⟨rfl, hsome⟩ := Option.ite_none_right_eq_some.1 h
        cases hsome
        rfl
      | _ => cases h
    | _ => cases h
  · rintro rfl
    exact if_pos rfl

/-- A position is reported as a duplicate if the visit finds it. -/
theorem mem_duplicatesAt_iff : i ∈ duplicatesAt root schema place items ↔
    ⟨place.element i, .duplicateItem⟩ ∈ (visit root schema place (.array items)).findings := by
  simp only [duplicatesAt, List.mem_filterMap, Finding.duplicateAt?_eq_some_iff, exists_eq_right]

/-- A visit further down reports no duplicates among the elements of the array at a place. -/
theorem duplicateAt?_of_mem_visit_below {value : Json} (hbelow : place.depth < base.depth)
    (hf : f ∈ (visit root schema base value).findings) : f.duplicateAt? place = none := by
  rw [Option.eq_none_iff_forall_not_mem]
  intro i hi
  obtain rfl := Finding.duplicateAt?_eq_some_iff.1 hi
  obtain ⟨stop, hreached, htask⟩ := (mem_findings_visit ⟨[], base, schema, value⟩).1 _ hf
  obtain ⟨target, -, way, hbreaks, -, hlocation⟩ := report_mem_tasks_iff.1 htask
  generalize stop.value = inside at hbreaks
  cases hbreaks with
  | duplicateItem =>
    have hplace : place = stop.place := (Location.element.inj hlocation).1
    have hdepth : base.depth ≤ stop.place.depth := hreached.depth_place_le
    rw [← hplace] at hdepth
    omega

/-- Neither `const` nor `enum` reports duplicates. -/
theorem duplicateAt?_of_mem_valueFindings {node : Node} {value : Json}
    (hf : f ∈ node.valueFindings base value) :
    f.duplicateAt? place = none := by
  rw [Option.eq_none_iff_forall_not_mem]
  intro i hi
  obtain rfl := Finding.duplicateAt?_eq_some_iff.1 hi
  rcases rule_of_mem_valueFindings hf with hrule | hrule <;> cases hrule

/-- The findings of the search are the duplicates they report. -/
theorem filterMap_duplicateFindings {node : Node} (h : node.distinct = true) :
    (node.duplicateFindings place items).filterMap (Finding.duplicateAt? place) =
      laterDuplicates items := by
  have hindex : (Finding.duplicateAt? place ∘ fun i => ⟨place.element i, .duplicateItem⟩) = some :=
    funext fun i => Finding.duplicateAt?_eq_some_iff.2 rfl
  rw [Node.duplicateFindings, if_pos h, List.filterMap_map, hindex, List.filterMap_some]

/-- A visit that comes to the search reports the later duplicates. -/
theorem duplicatesAt_eq_laterDuplicates (h : SearchesDuplicates root schema items) (place : Location) :
    duplicatesAt root schema place items = laterDuplicates items := by
  obtain ⟨resolves, type, unshaped, wanted, elements⟩ := h
  rename_i target
  have hshaped : (Node.ofJson target).wantsArray = true :=
    Node.wantsArray_ofJson_iff.2 (.inr (.inr ⟨_, wanted⟩))
  have hunshaped : ¬ (Node.ofJson target).wantsObject = true := mt Node.wantsObject_ofJson_iff.1 unshaped
  -- The elements are visited to the end, and what is found there is further down.
  have hends : (Outcome.sequence
      (items.zipIdx.map (visitElement root (Node.ofJson target) place))).failure =
      none := by
    rw [Outcome.failure_sequence_eq_none_iff, List.forall_mem_map]
    rintro ⟨item, i⟩ hmem
    rw [visitElement]
    cases hitems : (Node.ofJson target).items with
    | none => rfl
    | some inner =>
      change (visit root inner (place.element i) item).failure = none
      rw [visit_eq_under]
      exact elements inner item (Node.items_ofJson_eq_some_iff.1 hitems) (List.fst_mem_of_mem_zipIdx hmem)
  have hinner : ∀ f ∈ (Outcome.sequence
      (items.zipIdx.map (visitElement root (Node.ofJson target) place))).findings,
      f.duplicateAt? place = none := by
    intro f hf
    obtain ⟨o, ho, hfound⟩ := Outcome.exists_of_mem_findings_sequence hf
    obtain ⟨⟨item, i⟩, -, rfl⟩ := List.mem_map.1 ho
    rw [visitElement] at hfound
    cases hitems : (Node.ofJson target).items with
    | none =>
      rw [hitems] at hfound
      cases hfound
    | some inner =>
      rw [hitems] at hfound
      exact duplicateAt?_of_mem_visit_below (Nat.lt_succ_self _) hfound
  rw [duplicatesAt, visit_of_typed resolves (Node.typeViolation?_ofJson_eq_none_iff.2 type),
    Outcome.findings_andThen rfl, visitParts, if_neg hunshaped, if_pos hshaped,
    Outcome.findings_andThen hends,
    List.filterMap_append, List.filterMap_append, List.filterMap_eq_nil_iff.2 hinner, List.nil_append]
  have hvalue : ((Node.ofJson target).valueFindings place (.array items)).filterMap
      (Finding.duplicateAt? place) =
      [] := List.filterMap_eq_nil_iff.2 fun f hf => duplicateAt?_of_mem_valueFindings hf
  exact (congrArg (· ++ _) hvalue).trans (filterMap_duplicateFindings (Node.distinct_ofJson_iff.2 wanted))

/-- An array whose elements are reordered is searched as well. -/
theorem SearchesDuplicates.perm {items' : List Json} (h : SearchesDuplicates root schema items)
    (hperm : items'.Perm items) : SearchesDuplicates root schema items' := by
  obtain ⟨resolves, type, unshaped, wanted, elements⟩ := h
  refine ⟨resolves, fun declared hwritten hnamed => ?_, unshaped, wanted,
    fun inner item happlies hmem => elements inner item happlies (hperm.subset hmem)⟩
  -- An array is admitted whatever its elements.
  obtain ⟨entry, hentry, hadmits⟩ := type declared hwritten hnamed
  refine ⟨entry, hentry, ?_⟩
  cases hadmits with
  | array => exact .array items'

end Search

/-! ### Classes of equal elements -/

namespace Json

theorem equivalent_iff_canonicalText {x y : Json} :
    x.equivalent y = true ↔ x.canonicalText = y.canonicalText := by
  rw [equivalent, beq_iff_eq]

/-- Values are alike if they are equal in structure. -/
def structural : Setoid Json where
  r x y := x.equivalent y = true
  iseqv :=
    { refl := fun _ => equivalent_iff_canonicalText.2 rfl
      symm := fun h => equivalent_iff_canonicalText.2 (equivalent_iff_canonicalText.1 h).symm
      trans := fun h h' => equivalent_iff_canonicalText.2
        ((equivalent_iff_canonicalText.1 h).trans (equivalent_iff_canonicalText.1 h')) }

instance : DecidableRel structural.r := fun x y => inferInstanceAs (Decidable (x.equivalent y = true))

/-- The classes that the elements fall into. -/
def classes (items : List Json) : Finset (Quotient structural) :=
  (items.map (Quotient.mk structural)).toFinset

/-- There is an element at a position, and one before it is equal in structure. -/
def HasEarlierEqual (items : List Json) (i : Nat) : Prop :=
  ∃ x, items[i]? = some x ∧ ∃ j y, j < i ∧ items[j]? = some y ∧ y.equivalent x = true

/-- The digests of the elements tell their canonical texts apart. -/
def TellsApart (items : List Json) : Prop :=
  ∀ x ∈ items, ∀ y ∈ items, x.fingerprint = y.fingerprint → x.canonicalText = y.canonicalText

variable {x y : Json} {items : List Json} {i : Nat}

/-- Equal values have one digest. -/
theorem fingerprint_eq_of_equivalent (h : x.equivalent y = true) : x.fingerprint = y.fingerprint := by
  rw [fingerprint, equivalent_iff_canonicalText.1 h, fingerprint]

/-- An element that is equal to an earlier one has an earlier twin. -/
theorem HasEarlierEqual.hasEarlierTwin (h : HasEarlierEqual items i) : HasEarlierTwin items i := by
  obtain ⟨x, hx, j, y, hji, hy, hequal⟩ := h
  exact ⟨x, hx, j, y, hji, hy, fingerprint_eq_of_equivalent hequal⟩

/-- Where digests tell the elements apart, an earlier twin is an equal element. -/
theorem TellsApart.hasEarlierEqual_iff (h : TellsApart items) :
    HasEarlierEqual items i ↔ HasEarlierTwin items i := by
  refine ⟨HasEarlierEqual.hasEarlierTwin, ?_⟩
  rintro ⟨x, hx, j, y, hji, hy, htwin⟩
  have htext := h y (List.mem_of_getElem? hy) x (List.mem_of_getElem? hx) htwin
  exact ⟨x, hx, j, y, hji, hy, equivalent_iff_canonicalText.2 htext⟩

/-- Where digests tell the elements apart, there are as many digests as classes. -/
theorem TellsApart.card_classes (h : TellsApart items) :
    (classes items).card = (items.map fingerprint).toFinset.card := by
  -- The digest of a class is the digest of its values.
  let digest : Quotient structural → Sha256.State :=
    Quotient.lift fingerprint fun _ _ hequal => fingerprint_eq_of_equivalent hequal
  have himage : (items.map fingerprint).toFinset = (classes items).image digest := by
    ext f
    simp [classes, digest]
  have hinjective : Set.InjOn digest (classes items) := by
    intro c hc d hd hdigest
    obtain ⟨x, hx, rfl⟩ := List.mem_map.1 (List.mem_toFinset.1 hc)
    obtain ⟨y, hy, rfl⟩ := List.mem_map.1 (List.mem_toFinset.1 hd)
    exact Quotient.sound (equivalent_iff_canonicalText.2 (h x hx y hy hdigest))
  rw [himage, Finset.card_image_of_injOn hinjective]

end Json

/-! ### Duplicates of a visit -/

/-- A visit that comes to the search reports exactly the later duplicates, in ascending order and each
    once. All elements that are equal to an earlier one are reported, and no others if digests tell the
    elements apart; there are then as many reports as there are elements more than classes. The number of
    reports is the same in any order of the elements, and elements added at the end add reports behind
    those that are there. -/
theorem duplicatesAt_reports_later_duplicates {root schema : Json} {items : List Json}
    (h : SearchesDuplicates root schema items) (place : Location) :
    let reports := duplicatesAt root schema place items
    reports.Pairwise (· < ·) ∧
      (∀ i, i ∈ reports ↔
        ⟨place.element i, .duplicateItem⟩ ∈ (visit root schema place (.array items)).findings) ∧
      (∀ i, i ∈ reports ↔ HasEarlierTwin items i) ∧
      (∀ i, HasEarlierEqual items i → i ∈ reports) ∧
      (TellsApart items → (∀ i, i ∈ reports ↔ HasEarlierEqual items i) ∧
        reports.length + (classes items).card = items.length) ∧
      (∀ items' : List Json, items'.Perm items → SearchesDuplicates root schema items' ∧
        (duplicatesAt root schema place items').length = reports.length) ∧
      ∀ more, SearchesDuplicates root schema (items ++ more) →
        reports <+: duplicatesAt root schema place (items ++ more) := by
  intro reports
  have hreports : reports = laterDuplicates items := duplicatesAt_eq_laterDuplicates h place
  have htwin : ∀ i, i ∈ reports ↔ HasEarlierTwin items i :=
    fun i => by rw [hreports, mem_laterDuplicates_iff]
  refine ⟨?ascending, fun i => mem_duplicatesAt_iff, htwin, fun i hi => (htwin i).2 hi.hasEarlierTwin,
    fun hapart => ⟨fun i => (htwin i).trans hapart.hasEarlierEqual_iff.symm, ?count⟩,
    fun items' hperm => ⟨h.perm hperm, ?reordered⟩, fun more hmore => ?added⟩
  case ascending =>
    rw [hreports]
    exact pairwise_laterDuplicates items
  case count =>
    rw [hreports, hapart.card_classes]
    exact length_laterDuplicates_add_card items
  case reordered =>
    rw [duplicatesAt_eq_laterDuplicates (h.perm hperm) place, hreports]
    exact length_laterDuplicates_of_perm hperm
  case added =>
    rw [hreports, duplicatesAt_eq_laterDuplicates hmore place]
    exact laterDuplicates_prefix_append items more

/-- The number one, null and one as a double: the double repeats the number and is the one report. -/
theorem duplicatesAt_of_two_ones :
    let one : Json := .number (.integer ⟨1, by decide, by decide⟩)
    let root : Json := .object [("uniqueItems", .bool true), ("items", .object [])]
    let items : List Json := [one, .null, .number (.float ⟨false, 1023 * 2 ^ 52, by decide⟩)]
    SearchesDuplicates root root items ∧ TellsApart items ∧ HasEarlierEqual items 2 ∧
      2 ∈ duplicatesAt root root .whole items ∧
      (duplicatesAt root root .whole items).length + (classes items).card = 3 := by
  intro one root items
  have hsearches : SearchesDuplicates root root items := by
    refine .intro rfl (fun _ h => nomatch h) (mt Node.wantsObject_ofJson_iff.2 (by decide)) rfl ?_
    rintro inner item ⟨happlies, -⟩ hmem
    obtain rfl : Json.object [] = inner := Option.some.inj happlies
    simp only [items, List.mem_cons, List.not_mem_nil, or_false] at hmem
    rcases hmem with rfl | rfl | rfl <;> decide +kernel
  have hapart : TellsApart items := by
    unfold TellsApart
    decide +kernel
  have hequal : HasEarlierEqual items 2 := ⟨_, rfl, 0, one, by decide, rfl, by decide +kernel⟩
  obtain ⟨-, -, -, hfound, hcount, -⟩ := duplicatesAt_reports_later_duplicates hsearches .whole
  exact ⟨hsearches, hapart, hequal, hfound 2 hequal, (hcount hapart).2⟩

end Conform
