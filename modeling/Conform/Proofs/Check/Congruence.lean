/-
Module: Conform.Proofs.Check.Congruence
Purpose: Equivalent schemas and equivalent instances are checked alike. In the normal form of a schema the
  walk finds the same rules broken at the same places in the same order and ends in the same way; in the
  normal form of an instance it may come by the members in another order, so an error may end it
  elsewhere, but without an error it finds the same.
Main exports: Finding.site, Diagnostic.site, Outcome.Alike, Outcome.Rearranged, visit_normalize_schema,
  visit_normalize_value, check_congr
-/
import Conform.Proofs.Check.Walk
import Conform.Proofs.Json.SameValue
import Conform.Proofs.Schema.Normal

namespace Conform

open Json

/-- The place of a finding and the rule that is broken there. -/
def Finding.site (f : Finding) : Location × Rule := (f.location, f.violation.rule)

/-- The path of a diagnostic and the rule that is broken there. -/
def Diagnostic.site (d : Diagnostic) : String × Rule := (d.path, d.rule)

/-! ### Two walks compared -/

namespace Outcome

/-- Two walks find the same rules broken at the same places in the same order, and end in the same way. -/
structure Alike (a b : Outcome) : Prop where
  findings : a.findings.map Finding.site = b.findings.map Finding.site
  failure : a.failure.map ReferenceError.variant = b.failure.map ReferenceError.variant

/-- Two walks end normally or both not, and in the first case they find the same rules broken at the same
    places, in any order. -/
structure Rearranged (a b : Outcome) : Prop where
  failure : a.failure = none ↔ b.failure = none
  findings : a.failure = none → (a.findings.map Finding.site).Perm (b.findings.map Finding.site)

namespace Alike

variable {a b c d : Outcome}

theorem refl (a : Outcome) : Alike a a := ⟨rfl, rfl⟩

theorem symm (h : Alike a b) : Alike b a := ⟨h.findings.symm, h.failure.symm⟩

theorem trans (h : Alike a b) (h' : Alike b c) : Alike a c :=
  ⟨h.findings.trans h'.findings, h.failure.trans h'.failure⟩

/-- Both walks end normally or both do not. -/
theorem failure_eq_none_iff (h : Alike a b) : a.failure = none ↔ b.failure = none := by
  rw [← Option.map_eq_none_iff (f := ReferenceError.variant), h.failure, Option.map_eq_none_iff]

theorem rearranged (h : Alike a b) : Rearranged a b :=
  ⟨h.failure_eq_none_iff, fun _ => List.Perm.of_eq h.findings⟩

theorem of_findings {xs ys : List Finding} (h : xs.map Finding.site = ys.map Finding.site) :
    Alike (found xs) (found ys) := ⟨h, rfl⟩

theorem andThen (h : Alike a b) (h' : Alike c d) : Alike (a.andThen c) (b.andThen d) := by
  cases ha : a.failure with
  | some e =>
    have hb : b.failure ≠ none := fun hb => by
      rw [h.failure_eq_none_iff.2 hb] at ha
      cases ha
    obtain ⟨f, hf⟩ := Option.ne_none_iff_exists'.1 hb
    simpa [Outcome.andThen, ha, hf] using h
  | none =>
    have hb := h.failure_eq_none_iff.1 ha
    constructor
    · rw [findings_andThen ha, findings_andThen hb, List.map_append, List.map_append, h.findings,
        h'.findings]
    · simpa [Outcome.andThen, ha, hb] using h'.failure

/-- Walks that are alike one by one are alike in a row. -/
theorem sequence {α : Type} {f g : α → Outcome} {parts : List α} (h : ∀ x ∈ parts, Alike (f x) (g x)) :
    Alike (.sequence (parts.map f)) (.sequence (parts.map g)) := by
  induction parts with
  | nil => exact refl _
  | cons x rest ih =>
    exact (h x List.mem_cons_self).andThen (ih fun y hy => h y (List.mem_cons_of_mem x hy))

end Alike

namespace Rearranged

variable {a b c d : Outcome}

theorem refl (a : Outcome) : Rearranged a a := (Alike.refl a).rearranged

theorem symm (h : Rearranged a b) : Rearranged b a :=
  ⟨h.failure.symm, fun hb => (h.findings (h.failure.2 hb)).symm⟩

theorem trans (h : Rearranged a b) (h' : Rearranged b c) : Rearranged a c :=
  ⟨h.failure.trans h'.failure, fun ha => (h.findings ha).trans (h'.findings (h.failure.1 ha))⟩

theorem andThen (h : Rearranged a b) (h' : Rearranged c d) :
    Rearranged (a.andThen c) (b.andThen d) := by
  constructor
  · rw [failure_andThen_eq_none_iff, failure_andThen_eq_none_iff, h.failure, h'.failure]
  · intro hac
    obtain ⟨ha, hc⟩ := failure_andThen_eq_none_iff.1 hac
    rw [findings_andThen ha, findings_andThen (h.failure.1 ha), List.map_append, List.map_append]
    exact (h.findings ha).append (h'.findings hc)

/-- Two walks may change places. -/
theorem andThen_left_comm (a b c : Outcome) :
    Rearranged (a.andThen (b.andThen c)) (b.andThen (a.andThen c)) := by
  constructor
  · simp only [failure_andThen_eq_none_iff]
    exact and_left_comm
  · intro habc
    obtain ⟨ha, hbc⟩ := failure_andThen_eq_none_iff.1 habc
    have hb := (failure_andThen_eq_none_iff.1 hbc).1
    rw [findings_andThen ha, findings_andThen hb, findings_andThen hb, findings_andThen ha]
    simp only [List.map_append]
    exact List.perm_append_comm_assoc _ _ _

/-- Walks in a row may be made in any order. -/
theorem sequence_of_perm {outcomes outcomes' : List Outcome} (h : outcomes.Perm outcomes') :
    Rearranged (sequence outcomes) (sequence outcomes') := by
  induction h with
  | nil => exact refl _
  | cons a _ ih => exact (refl a).andThen ih
  | swap a b rest => exact andThen_left_comm b a (sequence rest)
  | trans _ _ ih ih' => exact ih.trans ih'

/-- Walks that agree one by one agree in a row. -/
theorem sequence {α : Type} {f g : α → Outcome} {parts : List α}
    (h : ∀ x ∈ parts, Rearranged (f x) (g x)) :
    Rearranged (.sequence (parts.map f)) (.sequence (parts.map g)) := by
  induction parts with
  | nil => exact refl _
  | cons x rest ih =>
    exact (h x List.mem_cons_self).andThen (ih fun y hy => h y (List.mem_cons_of_mem x hy))

end Rearranged

end Outcome

/-! ### Rules about one value -/

namespace Node

/-- The comparison with `const` depends on canonical texts alone. -/
theorem rules_constViolations_congr {node node' : Node} {value value' : Json}
    (hconst : node.const.map canonicalText = node'.const.map canonicalText)
    (hvalue : value.canonicalText = value'.canonicalText) :
    (node.constViolations value).map Violation.rule =
      (node'.constViolations value').map Violation.rule := by
  rw [constViolations, constViolations]
  cases h : node.const with
  | none =>
    rw [h, Option.map_none, eq_comm, Option.map_eq_none_iff] at hconst
    rw [hconst]
  | some expected =>
    rw [h, Option.map_some, eq_comm, Option.map_eq_some_iff] at hconst
    obtain ⟨expected', h', htext⟩ := hconst
    simp only [h', equivalent, hvalue, htext]
    split <;> rfl

/-- The comparison with `enum` depends on canonical texts alone. -/
theorem rules_enumViolations_congr {node node' : Node} {value value' : Json}
    (henum : node.enum.map (List.map canonicalText) = node'.enum.map (List.map canonicalText))
    (hvalue : value.canonicalText = value'.canonicalText) :
    (node.enumViolations value).map Violation.rule =
      (node'.enumViolations value').map Violation.rule := by
  have hany : ∀ (v : Json) (allowed : List Json), allowed.any v.equivalent =
      (allowed.map canonicalText).any (v.canonicalText == ·) := fun v allowed => by
    rw [List.any_map]
    rfl
  rw [enumViolations, enumViolations]
  cases h : node.enum with
  | none =>
    rw [h, Option.map_none, eq_comm, Option.map_eq_none_iff] at henum
    rw [henum]
  | some allowed =>
    rw [h, Option.map_some, eq_comm, Option.map_eq_some_iff] at henum
    obtain ⟨allowed', h', htexts⟩ := henum
    simp only [h', hany, hvalue, htexts]
    split <;> rfl

/-- The findings about a value itself depend on canonical texts alone. -/
theorem sites_valueFindings_congr {node node' : Node} {value value' : Json}
    (hconst : node.const.map canonicalText = node'.const.map canonicalText)
    (henum : node.enum.map (List.map canonicalText) = node'.enum.map (List.map canonicalText))
    (hvalue : value.canonicalText = value'.canonicalText) (place : Location) :
    (node.valueFindings place value).map Finding.site =
      (node'.valueFindings place value').map Finding.site := by
  have hsites : ∀ violations : List Violation, (violations.map (Finding.mk place)).map Finding.site =
      (violations.map Violation.rule).map (Prod.mk place) := fun violations => by
    rw [List.map_map, List.map_map]
    rfl
  rw [valueFindings, hsites, List.map_append, rules_constViolations_congr hconst hvalue,
    rules_enumViolations_congr henum hvalue, ← List.map_append, ← hsites, valueFindings]

/-- A value breaks `const` and `enum` of a schema if it breaks those of the normal form. -/
theorem sites_valueFindings_normalize (target value : Json) (place : Location) :
    ((Node.ofJson target).valueFindings place value).map Finding.site =
      ((Node.ofJson target.normalize).valueFindings place value).map Finding.site := by
  refine sites_valueFindings_congr ?_ ?_ rfl place
  · rw [const_ofJson_normalize, Option.map_map]
    exact Option.map_congr fun expected _ => (canonicalText_normalize expected).symm
  · rw [enum_ofJson_normalize, Option.map_map]
    apply Option.map_congr
    intro allowed _
    rw [Function.comp_apply, normalizeItems_eq_map, List.map_map]
    exact List.map_congr_left fun candidate _ => (canonicalText_normalize candidate).symm

end Node

/-! ### The normal form of a schema -/

section Schema

variable {root target : Json} {place : Location}

/-- Members are checked alike by the rules of a schema and of its normal form. -/
theorem visitMember_normalize_schema {key : String} {part : Json}
    (hpart : ∀ schema place, (visit root schema place part).Alike
      (visit root.normalize schema.normalize place part)) :
    (visitMember root (Node.ofJson target) place (key, part)).Alike
      (visitMember root.normalize (Node.ofJson target.normalize) place (key, part)) := by
  simp only [visitMember, Node.memberRule_ofJson_normalize]
  cases (Node.ofJson target).memberRule key with
  | allow => exact .refl _
  | deny => exact .refl _
  | schema inner => exact hpart inner _

/-- Elements are checked alike by a schema and by its normal form. -/
theorem visitElement_normalize_schema {part : Json} {i : Nat}
    (hpart : ∀ schema place, (visit root schema place part).Alike
      (visit root.normalize schema.normalize place part)) :
    (visitElement root (Node.ofJson target) place (part, i)).Alike
      (visitElement root.normalize (Node.ofJson target.normalize) place (part, i)) := by
  simp only [visitElement, Node.items_ofJson_normalize]
  cases (Node.ofJson target).items with
  | none => exact .refl _
  | some inner => exact hpart inner _

/-- The parts of a value are checked alike by a schema and by its normal form. -/
theorem visitParts_normalize_schema {value : Json}
    (hparts : ∀ part, Part part value → ∀ schema place, (visit root schema place part).Alike
      (visit root.normalize schema.normalize place part)) :
    (visitParts root (Node.ofJson target) place value).Alike
      (visitParts root.normalize (Node.ofJson target.normalize) place value) := by
  cases value with
  | object members =>
    rw [visitParts, visitParts, Node.wantsObject_ofJson_normalize, Node.wantsArray_ofJson_normalize]
    refine Outcome.Alike.andThen ?_ (.refl _)
    cases (Node.ofJson target).wantsObject with
    | false => exact .refl _
    | true =>
      rw [if_pos rfl, if_pos rfl, Node.missingFindings_ofJson_normalize]
      refine Outcome.Alike.andThen (.refl _) (.sequence ?_)
      rintro ⟨key, part⟩ hmem
      exact visitMember_normalize_schema (hparts part (.member hmem))
  | array items =>
    rw [visitParts, visitParts, Node.wantsObject_ofJson_normalize, Node.wantsArray_ofJson_normalize]
    cases (Node.ofJson target).wantsObject with
    | true => exact .refl _
    | false =>
      cases (Node.ofJson target).wantsArray with
      | false => exact .refl _
      | true =>
        rw [Node.duplicateFindings_ofJson_normalize]
        refine Outcome.Alike.andThen (.sequence ?_) (.refl _)
        rintro ⟨part, i⟩ hmem
        exact visitElement_normalize_schema (hparts part (.element (List.fst_mem_of_mem_zipIdx hmem)))
  | _ =>
    change (Outcome.found (Node.shapeFindings _ _ _)).Alike (.found (Node.shapeFindings _ _ _))
    rw [Node.shapeFindings_ofJson_normalize]
    exact .refl _

/-- A value is checked alike against a schema and against its normal form. -/
theorem visit_normalize_schema (root : Json) (value : Json) :
    ∀ schema place, (visit root schema place value).Alike
      (visit root.normalize schema.normalize place value) := by
  induction value using partInduction with
  | step value ih =>
    intro schema place
    rcases (effectiveSchema_normalize root schema).cases with
      ⟨e, e', hresolves, hresolves', hvariant⟩ | ⟨target, hresolves, hresolves'⟩
    · rw [visit_of_error hresolves, visit_of_error hresolves']
      exact ⟨rfl, congrArg some hvariant.symm⟩
    · have hrule := Node.typeViolation?_ofJson_normalize target value
      cases htype : (Node.ofJson target).typeViolation? value with
      | some violation =>
        rw [htype, Option.map_some, Option.map_eq_some_iff] at hrule
        obtain ⟨violation', htype', hrule⟩ := hrule
        rw [visit_of_mistyped hresolves htype, visit_of_mistyped hresolves' htype']
        exact .of_findings (congrArg (fun rule => [(place, rule)]) hrule.symm)
      | none =>
        rw [htype, Option.map_none, Option.map_eq_none_iff] at hrule
        rw [visit_of_typed hresolves htype, visit_of_typed hresolves' hrule]
        exact Outcome.Alike.andThen (.of_findings (Node.sites_valueFindings_normalize target value place))
          (visitParts_normalize_schema ih)

end Schema

/-! ### The normal form of an instance -/

section Instance

variable {root : Json} {node : Node} {place : Location}

/-- A type admits a value if it admits the normal form. -/
theorem Kind.admits_normalize (kind : Kind) (v : Json) : kind.admits v.normalize = kind.admits v := by
  rw [admits, kind_normalize, admits]

/-- A value and its normal form are of the same wrong type. -/
theorem Node.typeViolation?_normalize (node : Node) (value : Json) :
    node.typeViolation? value.normalize = node.typeViolation? value := by
  rw [typeViolation?, typeViolation?]
  cases node.types with
  | none => rfl
  | some spec =>
    have hadmits : spec.admits value.normalize = spec.admits value := by
      simp only [TypeDeclaration.admits, Kind.admits_normalize]
    simp only [hadmits, kind_normalize]

/-- The same members are missing when all are sorted and normalized. -/
theorem Node.missingFindings_normalize (members : List (String × Json)) :
    node.missingFindings place (sortMembers (normalizeMembers members)) =
      node.missingFindings place members := by
  rw [missingFindings, missingFindings]
  simp only [lookup_sortMembers, lookup_normalizeMembers, Option.isNone_map]

/-- The same elements repeat earlier ones when all are normalized. -/
theorem Node.duplicateFindings_normalize (items : List Json) :
    node.duplicateFindings place (normalizeItems items) = node.duplicateFindings place items := by
  have hdigests : (normalizeItems items).map fingerprint = items.map fingerprint := by
    rw [normalizeItems_eq_map, List.map_map]
    exact List.map_congr_left fun item _ => fingerprint_normalize item
  rw [duplicateFindings, duplicateFindings, laterDuplicates, hdigests, laterDuplicates]

/-- A member and its normal form are checked alike. -/
theorem visitMember_normalize_value {key : String} {part : Json}
    (hpart : ∀ schema place, (visit root schema place part).Rearranged
      (visit root schema place part.normalize)) :
    (visitMember root node place (key, part)).Rearranged
      (visitMember root node place (key, part.normalize)) := by
  simp only [visitMember]
  cases node.memberRule key with
  | allow => exact .refl _
  | deny => exact .refl _
  | schema inner => exact hpart inner _

/-- An element and its normal form are checked alike. -/
theorem visitElement_normalize_value {part : Json} {i : Nat}
    (hpart : ∀ schema place, (visit root schema place part).Rearranged
      (visit root schema place part.normalize)) :
    (visitElement root node place (part, i)).Rearranged
      (visitElement root node place (part.normalize, i)) := by
  simp only [visitElement]
  cases node.items with
  | none => exact .refl _
  | some inner => exact hpart inner _

/-- The members of an object and of its normal form are checked alike, up to their order. -/
theorem sequence_normalizeMembers {members : List (String × Json)}
    (hparts : ∀ key part, (key, part) ∈ members → ∀ schema place,
      (visit root schema place part).Rearranged (visit root schema place part.normalize)) :
    (Outcome.sequence (members.map (visitMember root node place))).Rearranged
      (.sequence ((sortMembers (normalizeMembers members)).map (visitMember root node place))) := by
  have hsorted := (sortMembers_perm (normalizeMembers members)).map (visitMember root node place)
  -- First the order of the members changes, then each of them.
  refine Outcome.Rearranged.trans ?_ (Outcome.Rearranged.sequence_of_perm hsorted).symm
  rw [normalizeMembers_eq_map, List.map_map]
  apply Outcome.Rearranged.sequence
  rintro ⟨key, part⟩ hmem
  exact visitMember_normalize_value (hparts key part hmem)

/-- The elements of an array and of its normal form are checked alike. -/
theorem sequence_normalizeItems {items : List Json}
    (hparts : ∀ part ∈ items, ∀ schema place,
      (visit root schema place part).Rearranged (visit root schema place part.normalize)) :
    (Outcome.sequence (items.zipIdx.map (visitElement root node place))).Rearranged
      (.sequence ((normalizeItems items).zipIdx.map (visitElement root node place))) := by
  rw [normalizeItems_eq_map, List.zipIdx_map, List.map_map]
  apply Outcome.Rearranged.sequence
  rintro ⟨part, i⟩ hmem
  exact visitElement_normalize_value (hparts part (List.fst_mem_of_mem_zipIdx hmem))

/-- The parts of a value and of its normal form are checked alike, up to their order. -/
theorem visitParts_normalize_value {value : Json}
    (hparts : ∀ part, Part part value → ∀ schema place,
      (visit root schema place part).Rearranged (visit root schema place part.normalize)) :
    (visitParts root node place value).Rearranged (visitParts root node place value.normalize) := by
  cases value with
  | object members =>
    rw [Json.normalize, visitParts, visitParts]
    refine Outcome.Rearranged.andThen ?_ (.refl _)
    cases node.wantsObject with
    | false => exact .refl _
    | true =>
      rw [if_pos rfl, if_pos rfl, Node.missingFindings_normalize]
      exact Outcome.Rearranged.andThen (.refl _)
        (sequence_normalizeMembers fun key part hmem => hparts part (.member hmem))
  | array items =>
    rw [Json.normalize, visitParts, visitParts]
    cases node.wantsObject with
    | true => exact .refl _
    | false =>
      cases node.wantsArray with
      | false => exact .refl _
      | true =>
        rw [Node.duplicateFindings_normalize]
        exact Outcome.Rearranged.andThen
          (sequence_normalizeItems fun part hmem => hparts part (.element hmem)) (.refl _)
  -- Only numbers change without having parts, and their kind stays the same.
  | number n =>
    change (Outcome.found _).Rearranged (.found (node.shapeFindings place (Json.number n).normalize.kind))
    rw [kind_normalize]
    exact .refl _
  | _ => exact .refl _

/-- A value and its normal form are checked alike against a schema, up to the order of what is found. -/
theorem visit_normalize_value (root : Json) (value : Json) :
    ∀ schema place, (visit root schema place value).Rearranged
      (visit root schema place value.normalize) := by
  induction value using partInduction with
  | step value ih =>
    intro schema place
    cases hresolves : effectiveSchema root schema with
    | error e =>
      rw [visit_of_error hresolves, visit_of_error hresolves]
      exact .refl _
    | ok target =>
      have hsame := (Node.ofJson target).typeViolation?_normalize value
      cases htype : (Node.ofJson target).typeViolation? value with
      | some violation =>
        rw [visit_of_mistyped hresolves htype, visit_of_mistyped hresolves (hsame.trans htype)]
        exact .refl _
      | none =>
        rw [visit_of_typed hresolves htype, visit_of_typed hresolves (hsame.trans htype)]
        refine Outcome.Rearranged.andThen ?_ (visitParts_normalize_value ih)
        exact (Outcome.Alike.of_findings (Node.sites_valueFindings_congr rfl rfl
          (canonicalText_normalize value).symm place)).rearranged

end Instance

/-! ### Equivalent checks -/

/-- Equivalent schemas of equivalent documents are walked alike. -/
theorem visit_alike_of_equivalent {root root' schema schema' : Json}
    (hroot : root.equivalent root' = true)
    (hschema : schema.equivalent schema' = true) (place : Location) (value : Json) :
    (visit root schema place value).Alike (visit root' schema' place value) := by
  have hleft := visit_normalize_schema root value schema place
  rw [equivalent_iff.1 hroot, equivalent_iff.1 hschema] at hleft
  exact hleft.trans (visit_normalize_schema root' value schema' place).symm

/-- Equivalent values are walked alike, up to the order of what is found. -/
theorem visit_rearranged_of_equivalent {value value' : Json} (hvalue : value.equivalent value' = true)
    (root schema : Json) (place : Location) :
    (visit root schema place value).Rearranged (visit root schema place value') := by
  have hleft := visit_normalize_value root value schema place
  rw [equivalent_iff.1 hvalue] at hleft
  exact hleft.trans (visit_normalize_value root value' schema place).symm

/-- A check that comes to an end reports the paths and rules of what the walk found. -/
theorem map_site_of_check {root value : Json} {report : Report} (h : check root value = .ok report) :
    report.items.map Diagnostic.site =
      ((visit root root .whole value).findings.map Finding.site).map
        fun site => (site.1.text, site.2) := by
  rw [(check_eq_ok_iff.1 h).2, Report.items_append, Report.items_empty, List.nil_append, List.map_map,
    List.map_map]
  rfl

/-- Equivalent documents and instances are checked alike: both checks come to an end or neither does, and
    then they report the same rules at the same paths, in any order. For one instance the order is the
    same as well, and so is the variant of an error. -/
theorem check_congr {root root' value value' : Json} (hroot : root.equivalent root' = true)
    (hvalue : value.equivalent value' = true) :
    ((∃ report, check root value = .ok report) ↔ ∃ report', check root' value' = .ok report') ∧
    (∀ report report', check root value = .ok report → check root' value' = .ok report' →
      (report.items.map Diagnostic.site).Perm (report'.items.map Diagnostic.site)) ∧
    (value = value' →
      (∀ report report', check root value = .ok report → check root' value' = .ok report' →
        report.items.map Diagnostic.site = report'.items.map Diagnostic.site) ∧
      ∀ e, check root value = .error e →
        ∃ e', check root' value' = .error e' ∧ e.variant = e'.variant) := by
  have halike := visit_alike_of_equivalent hroot hroot .whole value
  have hrearranged := halike.rearranged.trans (visit_rearranged_of_equivalent hvalue root' root' .whole)
  refine ⟨?_, fun report report' h h' => ?_, fun heq => ⟨fun report report' h h' => ?_, fun e h => ?_⟩⟩
  · simp only [check_eq_ok_iff, exists_and_left, exists_eq, and_true]
    exact hrearranged.failure
  · rw [map_site_of_check h, map_site_of_check h']
    exact (hrearranged.findings (check_eq_ok_iff.1 h).1).map _
  · subst heq
    rw [map_site_of_check h, map_site_of_check h', halike.findings]
  · subst heq
    have hfailure := halike.failure
    rw [check_eq_error_iff.1 h, Option.map_some, eq_comm, Option.map_eq_some_iff] at hfailure
    obtain ⟨e', h', hvariant⟩ := hfailure
    exact ⟨e', check_eq_error_iff.2 h', hvariant.symm⟩

/-- A schema and an instance with their members in another order, and a whole number written
    as a double. -/
theorem check_congr_reordered :
    let size : Json := .object [("size", .object [("$ref", .string "#/whole")])]
    let whole : Json := .object [("type", .string "integer")]
    let root : Json := .object
      [("properties", size), ("additionalProperties", .bool false), ("whole", whole)]
    let root' : Json := .object
      [("whole", whole), ("additionalProperties", .bool false), ("properties", size)]
    let value : Json := .object [("size", .number (.integer ⟨1, by decide, by decide⟩)), ("extra", .null)]
    let value' : Json :=
      .object [("extra", .null), ("size", .number (.float ⟨false, 1023 * 2 ^ 52, by decide⟩))]
    root.equivalent root' = true ∧ value.equivalent value' = true ∧
      ∃ report, check root' value' = .ok report ∧
        report.items.map Diagnostic.site = [("$.extra", .additionalProperty)] := by
  intro size whole root root' value value'
  have hroot : root.equivalent root' = true := by
    refine equivalent_iff.2 (normalize_object_eq_of_perm (by decide) ?_)
    rw [normalizeMembers_eq_map, normalizeMembers_eq_map]
    exact (List.reverse_perm _).symm.map _
  have hone : (Number.float ⟨false, 1023 * 2 ^ 52, by decide⟩).reduced =
      .integer ⟨1, by decide, by decide⟩ := by decide +kernel
  have hmembers : ∀ n : Number, n.reduced = .integer ⟨1, by decide, by decide⟩ →
      value.equivalent (.object [("extra", .null), ("size", .number n)]) = true := by
    intro n hn
    refine equivalent_iff.2 (normalize_object_eq_of_perm (by decide) ?_)
    simp only [normalizeMembers, Json.normalize, hn]
    exact .swap _ _ _
  have hvalue : value.equivalent value' = true := hmembers _ hone
  obtain ⟨hends, hreports, -⟩ := check_congr hroot hvalue
  have hcheck : check root value =
      .ok ⟨[⟨"$.extra", .additionalProperty, "additional properties not allowed"⟩]⟩ :=
    check_eq_ok_iff.2 (by decide +kernel)
  obtain ⟨report, hreport⟩ := hends.1 ⟨_, hcheck⟩
  exact ⟨hroot, hvalue, report, hreport, List.perm_singleton.1 (hreports _ _ hcheck hreport).symm⟩

end Conform
