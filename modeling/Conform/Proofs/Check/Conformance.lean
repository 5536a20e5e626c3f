/-
Module: Conform.Proofs.Check.Conformance
Purpose: When a value conforms to a schema, said without a walk: no order, no report and no early end.
  A check that comes to an end reports nothing exactly if the value conforms. The induction is on the
  value; which schema applies to a part is looked up in the document, wherever the references lead.
Main exports: Json.ObjectRules, Json.ArrayRules, Conforms, visit_eq_found_nil_iff,
  isEmpty_check_iff_conforms
-/
import Conform.Proofs.Check.Walk
import Conform.Proofs.Json.Parts
import Conform.Proofs.Schema.Keywords

namespace Conform

namespace Json

/-- What a schema about objects asks of the value itself: it is an object, it has all required members,
    and none that is denied. -/
structure ObjectRules (schema value : Json) : Prop where
  isObject : value.isObject = true
  required : ∀ name, schema.Requires name → ∃ part, value.HasMember name part
  allowed : ∀ key part, value.HasMember key part → ¬ schema.Denies key

/-- What a schema about arrays asks of the value itself: it is an array, and if elements have to differ,
    no two of them are the same. -/
structure ArrayRules (same : Json → Json → Prop) (schema value : Json) : Prop where
  isArray : ∃ items, value = .array items
  distinct : schema.WantsDistinct → ∀ items, value = .array items → items.Pairwise fun x y => ¬ same x y

end Json

open Json

/-- A value conforms to a schema of the document `root`. References lead to the schema that counts, and
    keywords beside a reference do not. A schema that is no object accepts everything. -/
inductive Conforms (same : Json → Json → Prop) (root : Json) : Json → Json → Prop where
  | unconstrained {schema target value : Json} (resolves : effectiveSchema root schema = .ok target)
      (empty : target.isObject = false) : Conforms same root schema value
  | constrained {schema target value : Json} (resolves : effectiveSchema root schema = .ok target)
      (mapping : target.isObject = true)
      (type : target.TypeAllows value) (const : target.ConstAllows value) (enum : target.EnumAllows value)
      (objects : target.ObjectShaped → ObjectRules target value)
      (members : target.ObjectShaped → ∀ key part inner,
        value.HasMember key part → target.MemberSchema key inner → Conforms same root inner part)
      (arrays : target.ArrayShaped → ArrayRules same target value)
      (elements : target.ArrayShaped → ∀ part inner,
        value.HasElement part → target.ItemSchema inner → Conforms same root inner part) :
      Conforms same root schema value

/-! ### Later duplicates -/

/-- No position is repeated exactly if all digests are new and differ from each other. -/
theorem Json.repeatedAt_eq_nil_iff {i : Nat} {seen digests : List Sha256.State} :
    repeatedAt i seen digests = [] ↔ digests.Nodup ∧ ∀ f ∈ digests, f ∉ seen := by
  induction digests generalizing i seen with
  | nil => simp [repeatedAt]
  | cons f rest ih =>
    by_cases hf : f ∈ seen
    · simp [repeatedAt, hf]
    · rw [repeatedAt, if_neg hf, ih, List.nodup_cons]
      constructor
      · rintro ⟨hnodup, hnew⟩
        refine ⟨⟨fun hmem => hnew f hmem List.mem_cons_self, hnodup⟩, ?_⟩
        intro g hg
        rcases List.mem_cons.1 hg with rfl | hg
        · exact hf
        · exact fun hseen => hnew g hg (List.mem_cons_of_mem f hseen)
      · rintro ⟨⟨hmem, hnodup⟩, hnew⟩
        refine ⟨hnodup, fun g hg hseen => ?_⟩
        rcases List.mem_cons.1 hseen with rfl | hseen
        · exact hmem hg
        · exact hnew g (List.mem_cons_of_mem f hg) hseen

/-- There are no later duplicates exactly if no two elements have the same digest. -/
theorem Json.laterDuplicates_eq_nil_iff {items : List Json} :
    laterDuplicates items = [] ↔ items.Pairwise fun x y => ¬ x.fingerprint = y.fingerprint := by
  rw [laterDuplicates, repeatedAt_eq_nil_iff]
  simp [List.Nodup, List.pairwise_map]

/-- Looking a name up among members fails exactly if no member has it. -/
theorem lookup_isNone_iff {members : List (String × Json)} {name : String} :
    (members.lookup name).isNone = true ↔ ∀ part, (name, part) ∉ members := by
  rw [Option.isNone_iff_eq_none, List.lookup_eq_none_iff]
  constructor
  · intro h part hmem
    simpa using h _ hmem
  · rintro h ⟨key, part⟩ hmem
    have hne : name ≠ key := fun heq => h part (heq ▸ hmem)
    simpa using hne

namespace Node

variable {schema value : Json} {place : Location}

/-- The duplicates of a node are none exactly if the elements differ where the schema asks for it. -/
theorem duplicateFindings_ofJson_eq_nil_iff {items : List Json} :
    (Node.ofJson schema).duplicateFindings place items = [] ↔
      (schema.WantsDistinct → items.Pairwise fun x y => ¬ x.fingerprint = y.fingerprint) := by
  rw [duplicateFindings, ← distinct_ofJson_iff, ← laterDuplicates_eq_nil_iff]
  by_cases h : (Node.ofJson schema).distinct = true <;> simp [h]

/-- No member is missing exactly if all required names are there. -/
theorem missingFindings_ofJson_eq_nil_iff {members : List (String × Json)} :
    (Node.ofJson schema).missingFindings place members = [] ↔
      ∀ name, schema.Requires name → ∃ part, (name, part) ∈ members := by
  rw [missingFindings, List.map_eq_nil_iff, List.filter_eq_nil_iff]
  apply forall_congr'
  intro name
  rw [mem_required_ofJson_iff, lookup_isNone_iff]
  simp

end Node

/-! ### Parts of a visit that find nothing -/

section Parts

variable {root target : Json} {place : Location}

/-- The check of a member finds nothing if the member is not denied and the check against its schema
    finds nothing. -/
theorem visitMember_eq_found_nil_iff {key : String} {part : Json} :
    visitMember root (Node.ofJson target) place (key, part) = .found [] ↔
      ¬ target.Denies key ∧ ∀ inner, target.MemberSchema key inner →
        visit root inner (place.member key) part = .found [] := by
  rw [← Node.memberRule_ofJson_eq_deny_iff]
  simp only [← Node.memberRule_ofJson_eq_schema_iff, visitMember]
  cases (Node.ofJson target).memberRule key with
  | allow => simp
  | deny => simp [Outcome.one_ne_found_nil]
  | schema inner => simp

/-- The check of an element finds nothing if the check against the schema for elements does. -/
theorem visitElement_eq_found_nil_iff {part : Json} {i : Nat} :
    visitElement root (Node.ofJson target) place (part, i) = .found [] ↔
      ∀ inner, target.ItemSchema inner → visit root inner (place.element i) part = .found [] := by
  simp only [← Node.items_ofJson_eq_some_iff, visitElement]
  cases (Node.ofJson target).items with
  | none => simp
  | some inner => simp

/-- The parts of an object: what the schema asks of the object itself, then its members; and the schema
    is not about arrays. -/
theorem visitParts_object_eq_found_nil_iff {members : List (String × Json)} :
    visitParts root (Node.ofJson target) place (.object members) = .found [] ↔
      (target.ObjectShaped → (∀ name, target.Requires name → ∃ part, (name, part) ∈ members) ∧
        ∀ key part, (key, part) ∈ members → ¬ target.Denies key ∧ ∀ inner, target.MemberSchema key inner →
          visit root inner (place.member key) part = .found []) ∧
      ¬ target.ArrayShaped := by
  rw [visitParts, Outcome.andThen_eq_found_nil_iff, ← Node.wantsObject_ofJson_iff,
    ← Node.wantsArray_ofJson_iff]
  apply and_congr
  · by_cases h : (Node.ofJson target).wantsObject = true
    · rw [if_pos h, Outcome.andThen_eq_found_nil_iff, Outcome.found_eq_found_nil_iff,
        Node.missingFindings_ofJson_eq_nil_iff, Outcome.sequence_eq_found_nil_iff]
      simp only [List.forall_mem_map, Prod.forall, visitMember_eq_found_nil_iff, h, true_imp_iff]
    · simp [h]
  · by_cases h : (Node.ofJson target).wantsArray = true
    · simp [h, Outcome.one_ne_found_nil]
    · simp [h]

/-- The parts of an array: the schema is not about objects, and where it is about arrays, the elements and
    then that they differ. -/
theorem visitParts_array_eq_found_nil_iff {items : List Json} :
    visitParts root (Node.ofJson target) place (.array items) = .found [] ↔
      ¬ target.ObjectShaped ∧
      (target.ArrayShaped → (∀ part i, (part, i) ∈ items.zipIdx → ∀ inner, target.ItemSchema inner →
          visit root inner (place.element i) part = .found []) ∧
        (target.WantsDistinct → items.Pairwise fun x y => ¬ x.fingerprint = y.fingerprint)) := by
  rw [visitParts, ← Node.wantsObject_ofJson_iff, ← Node.wantsArray_ofJson_iff]
  by_cases hobject : (Node.ofJson target).wantsObject = true
  · simp [hobject, Outcome.one_ne_found_nil]
  · by_cases harray : (Node.ofJson target).wantsArray = true
    · rw [if_neg hobject, if_pos harray, Outcome.andThen_eq_found_nil_iff,
        Outcome.found_eq_found_nil_iff, Node.duplicateFindings_ofJson_eq_nil_iff,
        Outcome.sequence_eq_found_nil_iff]
      simp only [List.forall_mem_map, Prod.forall, visitElement_eq_found_nil_iff, harray, true_imp_iff]
      exact (and_iff_right hobject).symm
    · simp [hobject, harray]

/-- A value without parts: the schema is neither about objects nor about arrays. -/
theorem shapeFindings_ofJson_eq_nil_iff {kind : Kind} :
    (Node.ofJson target).shapeFindings place kind = [] ↔
      ¬ target.ObjectShaped ∧ ¬ target.ArrayShaped := by
  rw [Node.shapeFindings, ← Node.wantsObject_ofJson_iff, ← Node.wantsArray_ofJson_iff]
  by_cases hobject : (Node.ofJson target).wantsObject = true
  · simp [hobject]
  · by_cases harray : (Node.ofJson target).wantsArray = true <;> simp [hobject, harray]

end Parts

/-! ### Soundness and completeness -/

section Verdict

variable {same : Json → Json → Prop} {root target value : Json}

/-- Where a value conforms, the references lead to a schema that counts. -/
theorem Conforms.exists_effectiveSchema {schema : Json} (h : Conforms same root schema value) :
    ∃ target, effectiveSchema root schema = .ok target := by
  cases h with
  | unconstrained resolves => exact ⟨_, resolves⟩
  | constrained resolves => exact ⟨_, resolves⟩

/-- What the schema says about a value with an allowed type and about its parts. -/
def Json.PartsConform (same : Json → Json → Prop) (root target value : Json) : Prop :=
  (target.ObjectShaped → ObjectRules target value) ∧
  (target.ObjectShaped → ∀ key part inner,
    value.HasMember key part → target.MemberSchema key inner → Conforms same root inner part) ∧
  (target.ArrayShaped → ArrayRules same target value) ∧
  (target.ArrayShaped → ∀ part inner,
    value.HasElement part → target.ItemSchema inner → Conforms same root inner part)

/-- A schema that is no object says nothing about parts. -/
theorem Json.partsConform_of_not_isObject (h : target.isObject = false) :
    PartsConform same root target value := by
  have hobject : ¬ target.ObjectShaped := by
    rw [← Node.wantsObject_ofJson_iff, Node.ofJson_of_not_isObject h]
    exact Bool.false_ne_true
  have harray : ¬ target.ArrayShaped := by
    rw [← Node.wantsArray_ofJson_iff, Node.ofJson_of_not_isObject h]
    exact Bool.false_ne_true
  exact ⟨fun h => absurd h hobject, fun h => absurd h hobject, fun h => absurd h harray,
    fun h => absurd h harray⟩

/-- Once the schema that counts is known, a value conforms if it keeps all its rules; those of a schema
    that is no object are none. -/
theorem conforms_iff_of_resolves {schema : Json} (hresolves : effectiveSchema root schema = .ok target) :
    Conforms same root schema value ↔ target.TypeAllows value ∧ target.ConstAllows value ∧
      target.EnumAllows value ∧ PartsConform same root target value := by
  constructor
  · intro h
    cases h with
    | unconstrained resolves empty =>
      rw [hresolves] at resolves
      cases resolves
      have habsent : ∀ key, target.get? key = none := by
        intro key
        cases target with
        | object members => cases empty
        | _ => rfl
      refine ⟨fun written h => ?_, fun written h => ?_, fun written h => ?_,
        partsConform_of_not_isObject empty⟩
      all_goals
        rw [habsent] at h
        cases h
    | constrained resolves mapping type const enum objects members arrays elements =>
      rw [hresolves] at resolves
      cases resolves
      exact ⟨type, const, enum, objects, members, arrays, elements⟩
  · rintro ⟨type, const, enum, objects, members, arrays, elements⟩
    cases hmapping : target.isObject with
    | false => exact .unconstrained hresolves hmapping
    | true => exact .constrained hresolves hmapping type const enum objects members arrays elements

/-- What a schema says about an object, told by its members. -/
theorem Json.partsConform_object_iff {members : List (String × Json)} :
    PartsConform same root target (.object members) ↔
      (target.ObjectShaped → (∀ name, target.Requires name → ∃ part, (name, part) ∈ members) ∧
        ∀ key part, (key, part) ∈ members → ¬ target.Denies key ∧ ∀ inner, target.MemberSchema key inner →
          Conforms same root inner part) ∧
      ¬ target.ArrayShaped := by
  constructor
  · rintro ⟨hrules, hmembers, harray, -⟩
    refine ⟨fun h => ⟨(hrules h).required, fun key part hmem => ⟨(hrules h).allowed key part hmem, ?_⟩⟩,
      fun h => ?_⟩
    · exact fun inner => hmembers h key part inner hmem
    · obtain ⟨items, hitems⟩ := (harray h).isArray
      cases hitems
  · rintro ⟨hobject, harray⟩
    refine ⟨fun h => ⟨rfl, (hobject h).1, fun key part hmem => ((hobject h).2 key part hmem).1⟩, ?_,
      fun h => absurd h harray, fun h => absurd h harray⟩
    exact fun h key part inner hmem => ((hobject h).2 key part hmem).2 inner

/-- What a schema says about an array, told by its elements. -/
theorem Json.partsConform_array_iff {items : List Json} :
    PartsConform same root target (.array items) ↔
      ¬ target.ObjectShaped ∧
      (target.ArrayShaped → (∀ part ∈ items, ∀ inner, target.ItemSchema inner →
          Conforms same root inner part) ∧
        (target.WantsDistinct → items.Pairwise fun x y => ¬ same x y)) := by
  constructor
  · rintro ⟨hobject, -, hrules, helements⟩
    refine ⟨fun h => ?_, fun h => ⟨fun part hmem inner => helements h part inner hmem, fun hwants => ?_⟩⟩
    · have hisObject := (hobject h).isObject
      cases hisObject
    · exact (hrules h).distinct hwants items rfl
  · rintro ⟨hobject, harray⟩
    refine ⟨fun h => absurd h hobject, fun h => absurd h hobject,
      fun h => ⟨⟨items, rfl⟩, fun hwants xs hxs => ?_⟩,
      fun h part inner hmem => (harray h).1 part hmem inner⟩
    cases hxs
    exact (harray h).2 hwants

/-- A value that is neither an object nor an array conforms to schemas that are about neither. -/
theorem Json.partsConform_scalar_iff (hobject : value.isObject = false)
    (harray : ∀ items, value ≠ .array items) :
    PartsConform same root target value ↔ ¬ target.ObjectShaped ∧ ¬ target.ArrayShaped := by
  constructor
  · rintro ⟨hobjects, -, harrays, -⟩
    refine ⟨fun h => ?_, fun h => ?_⟩
    · rw [(hobjects h).isObject] at hobject
      cases hobject
    · obtain ⟨items, hitems⟩ := (harrays h).isArray
      exact harray items hitems
  · rintro ⟨hobject, harray⟩
    exact ⟨fun h => absurd h hobject, fun h => absurd h hobject, fun h => absurd h harray,
      fun h => absurd h harray⟩

/-- The check of the parts finds nothing if the parts conform, as long as that is so for each part. -/
theorem visitParts_eq_found_nil_iff
    (hsame : ∀ x y, Part x value → Part y value → (same x y ↔ x.fingerprint = y.fingerprint))
    (hparts : ∀ part, Part part value → ∀ inner place,
      visit root inner place part = .found [] ↔ Conforms same root inner part) (place : Location) :
    visitParts root (Node.ofJson target) place value = .found [] ↔
      PartsConform same root target value := by
  cases value with
  | object members =>
    rw [visitParts_object_eq_found_nil_iff, partsConform_object_iff]
    have hmembers : ∀ key part, (key, part) ∈ members → ∀ inner,
        visit root inner (place.member key) part = .found [] ↔ Conforms same root inner part :=
      fun key part hmem inner => hparts part (.member hmem) inner _
    simp +contextual only [hmembers]
  | array items =>
    rw [visitParts_array_eq_found_nil_iff, partsConform_array_iff]
    have hdistinct : (items.Pairwise fun x y => ¬ x.fingerprint = y.fingerprint) ↔
        items.Pairwise fun x y => ¬ same x y := by
      apply List.Pairwise.iff_of_mem
      intro x y hx hy
      rw [hsame x y (.element hx) (.element hy)]
    rw [hdistinct]
    refine and_congr_right fun _ => imp_congr_right fun _ => and_congr_left' ⟨?_, ?_⟩
    · intro h part hmem inner hschema
      obtain ⟨i, hi⟩ := List.mem_iff_getElem?.1 hmem
      rw [← List.mk_mem_zipIdx_iff_getElem?] at hi
      exact (hparts part (.element hmem) inner _).1 (h part i hi inner hschema)
    · intro h part i hi inner hschema
      have hmem : part ∈ items := List.fst_mem_of_mem_zipIdx hi
      exact (hparts part (.element hmem) inner _).2 (h part hmem inner hschema)
  | _ =>
    rw [partsConform_scalar_iff rfl (fun _ h => by cases h), ← shapeFindings_ofJson_eq_nil_iff]
    exact Outcome.found_eq_found_nil_iff

/-- One visit: if the visits of the parts find nothing exactly where the parts conform, so it is for the
    whole. -/
theorem visit_eq_found_nil_iff_of_parts
    (hsame : ∀ x y, Part x value → Part y value → (same x y ↔ x.fingerprint = y.fingerprint))
    (hparts : ∀ part, Part part value → ∀ inner place,
      visit root inner place part = .found [] ↔ Conforms same root inner part)
    (schema : Json) (place : Location) :
    visit root schema place value = .found [] ↔ Conforms same root schema value := by
  cases hresolves : effectiveSchema root schema with
  | error e =>
    rw [visit_of_error hresolves]
    refine ⟨fun h => absurd h (Outcome.failed_ne_found_nil e), fun h => ?_⟩
    obtain ⟨target, htarget⟩ := h.exists_effectiveSchema
    rw [hresolves] at htarget
    cases htarget
  | ok target =>
    rw [conforms_iff_of_resolves hresolves]
    cases htype : (Node.ofJson target).typeViolation? value with
    | some violation =>
      rw [visit_of_mistyped hresolves htype]
      refine ⟨fun h => absurd h (Outcome.one_ne_found_nil place violation), fun h => ?_⟩
      rw [Node.typeViolation?_ofJson_eq_none_iff.2 h.1] at htype
      cases htype
    | none =>
      rw [visit_of_typed hresolves htype, Outcome.andThen_eq_found_nil_iff,
        Outcome.found_eq_found_nil_iff, Node.valueFindings_ofJson_eq_nil_iff,
        visitParts_eq_found_nil_iff hsame hparts, and_assoc]
      exact (and_iff_right (Node.typeViolation?_ofJson_eq_none_iff.1 htype)).symm

/-- A visit finds nothing and comes to an end exactly if the value conforms. Elements are the same if
    their digests are, so it is enough that the notion of sameness agrees with digests
    inside the value. -/
theorem visit_eq_found_nil_iff
    (hsame : ∀ x y, Within x value → Within y value → (same x y ↔ x.fingerprint = y.fingerprint)) :
    ∀ schema place, visit root schema place value = .found [] ↔ Conforms same root schema value := by
  induction value using partInduction with
  | step value ih =>
    refine visit_eq_found_nil_iff_of_parts
      (fun x y hx hy => hsame x y (.of_part (.refl x) hx) (.of_part (.refl y) hy)) fun part hpart => ?_
    exact ih part hpart fun x y hx hy => hsame x y (hx.of_part hpart) (hy.of_part hpart)

end Verdict

/-! ### Verdicts -/

/-- A check that comes to an end found nothing exactly if its report is empty. -/
theorem visit_eq_found_nil_iff_of_check {root value : Json} {report : Report}
    (h : check root value = .ok report) :
    visit root root .whole value = .found [] ↔ report.isEmpty = true := by
  obtain ⟨hends, rfl⟩ := check_eq_ok_iff.1 h
  rcases hvisit : visit root root .whole value with ⟨findings, failure⟩
  rw [hvisit] at hends
  subst hends
  cases findings <;> simp [Outcome.found, Report.isEmpty, Report.append, Report.empty]

/-- The digests of the values inside a value tell their canonical texts apart. -/
def Json.DigestsDiffer (value : Json) : Prop :=
  ∀ x y, Within x value → Within y value → x.fingerprint = y.fingerprint →
    x.canonicalText = y.canonicalText

/-- Where digests tell canonical texts apart, both call the same values the same. -/
theorem Json.DigestsDiffer.same_iff {value x y : Json} (h : value.DigestsDiffer) (hx : Within x value)
    (hy : Within y value) : x.canonicalText = y.canonicalText ↔ x.fingerprint = y.fingerprint := by
  refine ⟨fun htext => ?_, h x y hx hy⟩
  rw [fingerprint, htext, fingerprint]

/-- The verdict of a check that comes to an end is right: nothing is reported exactly if the value
    conforms to the schema, where elements are the same if they have one digest; and if digests tell the
    values inside the instance apart, where elements are the same if they have one canonical text. -/
theorem isEmpty_check_iff_conforms {root value : Json} {report : Report}
    (h : check root value = .ok report) :
    (report.isEmpty = true ↔ Conforms (fun x y => x.fingerprint = y.fingerprint) root root value) ∧
    (value.DigestsDiffer → (report.isEmpty = true ↔
      Conforms (fun x y => x.canonicalText = y.canonicalText) root root value)) := by
  -- The visit decides by digests; canonical texts decide the same where digests tell them apart.
  rw [← visit_eq_found_nil_iff_of_check h]
  refine ⟨visit_eq_found_nil_iff (fun _ _ _ _ => Iff.rfl) root .whole, fun hdiffer => ?_⟩
  refine visit_eq_found_nil_iff (fun x y hx hy => ⟨fun htext => ?_, hdiffer x y hx hy⟩) root .whole
  rw [fingerprint, htext, fingerprint]

/-- Two different names conform where strings that differ are asked for, and the digests of the values
    inside the instance differ. -/
theorem conforms_distinct_names :
    let root := Json.object
      [("uniqueItems", .bool true), ("items", .object [("type", .string "string")])]
    let names := Json.array [.string "north", .string "south"]
    check root names = .ok .empty ∧ names.DigestsDiffer ∧
      Conforms (fun x y => x.canonicalText = y.canonicalText) root root names := by
  intro root names
  have hcheck : check root names = .ok .empty := check_eq_ok_iff.2 (by decide +kernel)
  have hwithin : ∀ x, Within x (.array [.string "north", .string "south"]) →
      x = names ∨ x = .string "north" ∨ x = .string "south" := by
    intro x hx
    rcases within_iff.1 hx with rfl | ⟨part, hpart, hx⟩
    · exact Or.inl rfl
    · cases hpart with
      | element hmem =>
        have hpart : part = .string "north" ∨ part = .string "south" := by simpa using hmem
        rcases within_iff.1 hx with rfl | ⟨inner, hinner, -⟩
        · exact Or.inr hpart
        · rcases hpart with rfl | rfl <;> cases hinner
  have hdiffer : names.DigestsDiffer := by
    intro x y hx hy
    rcases hwithin x hx with rfl | rfl | rfl <;> rcases hwithin y hy with rfl | rfl | rfl <;>
      decide +kernel
  exact ⟨hcheck, hdiffer, ((isEmpty_check_iff_conforms hcheck).2 hdiffer).1 rfl⟩

end Conform
