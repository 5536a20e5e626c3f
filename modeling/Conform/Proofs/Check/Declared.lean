/-
Module: Conform.Proofs.Check.Declared
Purpose: Schemas with a `type` declaration and nothing else. The declaration is read twice: as a list of
  alternatives, of which one has to admit the value, and as the shape that the value has to have, where
  `object` and `array` count even if they are alternatives to something else. So the other names form a
  union, and each of these two rules out all other values.
Main exports: DeclaresOnly, Json.AcceptedBy, Node.shapeViolation?, visit_of_declaresOnly,
  declaration_accepts_iff
-/
import Conform.Proofs.Check.Conformance
import Conform.Proofs.Schema.Extended

namespace Conform

open Json

/-! ### Schemas that only declare types -/

/-- A schema with a `type` declaration and no other recognized keyword. It may have entries under other
    names. -/
structure DeclaresOnly (schema declared : Json) : Prop where
  type : schema.get? "type" = some declared
  alone : ∀ keyword ∈ recognized, keyword ≠ "type" → schema.get? keyword = none

namespace Json

/-- One of the entries of a declaration admits the value; and the value is an object if an entry is
    `object`, and an array if an entry is `array`. A null declares nothing. -/
structure AcceptedBy (value declared : Json) : Prop where
  admitted : declared = .null ∨ ∃ entry ∈ declared.typeEntries, NameAdmits entry value
  isObject : .string "object" ∈ declared.typeEntries → value.isObject = true
  isArray : .string "array" ∈ declared.typeEntries → ∃ items, value = .array items

/-- A declaration has the entries of another one and perhaps further ones, but not `object` or `array`. -/
structure Widens (declared declared' : Json) : Prop where
  kept : ∀ entry ∈ declared.typeEntries, entry ∈ declared'.typeEntries
  shapeless : ∀ entry ∈ declared'.typeEntries,
    entry ∈ declared.typeEntries ∨ entry ≠ .string "object" ∧ entry ≠ .string "array"

/-- What a declaration accepts is accepted with further alternatives. -/
theorem AcceptedBy.widens {value declared declared' : Json} (h : value.AcceptedBy declared)
    (hnamed : declared ≠ .null) (hwidens : Widens declared declared') : value.AcceptedBy declared' := by
  constructor
  · obtain ⟨entry, hentry, hadmits⟩ := h.admitted.resolve_left hnamed
    exact .inr ⟨entry, hwidens.kept entry hentry, hadmits⟩
  · intro hobject
    rcases hwidens.shapeless _ hobject with hkept | ⟨hother, -⟩
    · exact h.isObject hkept
    · exact absurd rfl hother
  · intro harray
    rcases hwidens.shapeless _ harray with hkept | ⟨-, hother⟩
    · exact h.isArray hkept
    · exact absurd rfl hother

end Json

/-! ### Nodes without rules for parts -/

/-- The node says nothing about the members of an object and the elements of an array. -/
structure Node.Partless (node : Node) : Prop where
  required : node.required = []
  memberRule : ∀ key, node.memberRule key = .allow
  items : node.items = none
  distinct : node.distinct = false

/-- The violation of a value that has not the shape of the node, the object before the array. -/
def Node.shapeViolation? (node : Node) (value : Json) : Option Violation :=
  if node.wantsObject = true ∧ value.isObject = false then some (.notAnObject value.kind)
  else if node.wantsArray = true ∧ value.asArray?.isNone = true then some (.notAnArray value.kind)
  else none

section Visits

variable {root schema declared value : Json} {node : Node} {place : Location}

/-- Where nothing is said about parts, all there is to check about them is the shape of the value. -/
theorem visitParts_of_partless (h : node.Partless) :
    visitParts root node place value =
      .found ((node.shapeViolation? value).toList.map (Finding.mk place)) := by
  cases value with
  | object members =>
    have hmembers : Outcome.sequence (members.map (visitMember root node place)) = .found [] := by
      rw [Outcome.sequence_eq_found_nil_iff, List.forall_mem_map]
      intro member _
      rw [visitMember, h.memberRule]
    have hmissing : node.missingFindings place members = [] := by
      rw [Node.missingFindings, h.required]
      rfl
    rw [visitParts, hmembers, hmissing, Outcome.found_nil_andThen, ite_self, Outcome.found_nil_andThen,
      Node.shapeViolation?]
    cases node.wantsObject <;> cases node.wantsArray <;> rfl
  | array items =>
    have hitems : Outcome.sequence (items.zipIdx.map (visitElement root node place)) = .found [] := by
      rw [Outcome.sequence_eq_found_nil_iff, List.forall_mem_map]
      intro element _
      rw [visitElement, h.items]
    have hduplicates : node.duplicateFindings place items = [] := by
      rw [Node.duplicateFindings, h.distinct]
      rfl
    rw [visitParts, hitems, hduplicates, Outcome.found_nil_andThen, ite_self, Node.shapeViolation?]
    cases node.wantsObject <;> cases node.wantsArray <;> rfl
  | _ =>
    simp only [visitParts, Node.shapeFindings, Node.shapeViolation?]
    cases node.wantsObject <;> cases node.wantsArray <;> rfl

/-- A value has no violation of the shape exactly if it is an object where one is wanted, and an array
    where one is. -/
theorem shapeViolation?_eq_none_iff :
    node.shapeViolation? value = none ↔ (node.wantsObject = true → value.isObject = true) ∧
      (node.wantsArray = true → ∃ items, value = .array items) := by
  have harray : value.asArray?.isNone = false ↔ ∃ items, value = .array items := by
    cases value <;> simp [asArray?]
  rw [← harray, Node.shapeViolation?]
  cases node.wantsObject <;> cases node.wantsArray <;> cases value.isObject <;>
    cases value.asArray?.isNone <;> simp

namespace DeclaresOnly

/-- A schema that only declares types says nothing about parts. -/
theorem partless (h : DeclaresOnly schema declared) : (Node.ofJson schema).Partless := by
  have habsent (keyword : String) (hkeyword : keyword ∈ recognized) (hother : keyword ≠ "type") :
      schema.get? keyword = none := h.alone keyword hkeyword hother
  constructor
  · simp [Node.ofJson, Node.requiredOf, habsent "required" (by decide) (by decide)]
  · intro key
    simp [Node.memberRule, Node.memberSchema?, Node.ofJson, Node.extraOf,
      habsent "properties" (by decide) (by decide),
      habsent "additionalProperties" (by decide) (by decide)]
  · simp [Node.ofJson, habsent "items" (by decide) (by decide)]
  · simp [Node.ofJson, habsent "uniqueItems" (by decide) (by decide)]

/-- A schema that only declares types lists no values. -/
theorem valueFindings_eq_nil (h : DeclaresOnly schema declared) :
    (Node.ofJson schema).valueFindings place value = [] := by
  rw [Node.valueFindings_ofJson_eq_nil_iff]
  constructor
  · intro expected hwritten
    rw [h.alone "const" (by decide) (by decide)] at hwritten
    cases hwritten
  · intro allowed hwritten
    rw [h.alone "enum" (by decide) (by decide)] at hwritten
    cases hwritten

/-- The type check finds nothing if the declaration is null or one of its entries admits the value. -/
theorem typeViolation?_eq_none_iff (h : DeclaresOnly schema declared) :
    (Node.ofJson schema).typeViolation? value = none ↔
      declared = .null ∨ ∃ entry ∈ declared.typeEntries, NameAdmits entry value := by
  rw [Node.typeViolation?_ofJson_eq_none_iff]
  constructor
  · intro hallows
    by_cases hnull : declared = .null
    · exact .inl hnull
    · exact .inr (hallows declared h.type hnull)
  · intro hadmitted written hwritten hnamed
    rw [h.type] at hwritten
    cases hwritten
    exact hadmitted.resolve_left hnamed

/-- An object is wanted if an entry is `object`. -/
theorem wantsObject_iff (h : DeclaresOnly schema declared) :
    (Node.ofJson schema).wantsObject = true ↔ .string "object" ∈ declared.typeEntries := by
  rw [Node.wantsObject_ofJson_iff]
  simp [ObjectShaped, NamesType, HasKeyword, h.type, h.alone "properties" (by decide) (by decide),
    h.alone "required" (by decide) (by decide), h.alone "additionalProperties" (by decide) (by decide)]

/-- An array is wanted if an entry is `array`. -/
theorem wantsArray_iff (h : DeclaresOnly schema declared) :
    (Node.ofJson schema).wantsArray = true ↔ .string "array" ∈ declared.typeEntries := by
  rw [Node.wantsArray_ofJson_iff]
  simp [ArrayShaped, NamesType, HasKeyword, h.type, h.alone "items" (by decide) (by decide),
    h.alone "uniqueItems" (by decide) (by decide)]

/-- What a visit reports about the value as a whole, if anything. -/
def violation? (schema value : Json) : Option Violation :=
  ((Node.ofJson schema).typeViolation? value).or ((Node.ofJson schema).shapeViolation? value)

/-- A visit against a schema that only declares types comes to an end with at most one finding, about the
    type or else about the shape of the value. -/
theorem visit_eq (h : DeclaresOnly schema declared) :
    visit root schema place value = .found ((violation? schema value).toList.map (Finding.mk place)) := by
  have hresolves : effectiveSchema root schema = .ok schema :=
    effectiveSchema_of_get?_eq_none (h.alone "$ref" (by decide) (by decide))
  cases htype : (Node.ofJson schema).typeViolation? value with
  | some violation =>
    rw [visit_of_mistyped hresolves htype, violation?, htype]
    rfl
  | none =>
    rw [visit_of_typed hresolves htype, h.valueFindings_eq_nil, Outcome.found_nil_andThen,
      visitParts_of_partless h.partless, violation?, htype, Option.none_or]

/-- Nothing is reported exactly if the declaration accepts the value. -/
theorem violation?_eq_none_iff (h : DeclaresOnly schema declared) :
    violation? schema value = none ↔ value.AcceptedBy declared := by
  rw [violation?, Option.or_eq_none_iff, h.typeViolation?_eq_none_iff, shapeViolation?_eq_none_iff,
    h.wantsObject_iff, h.wantsArray_iff]
  constructor
  · rintro ⟨hadmitted, hobject, harray⟩
    exact ⟨hadmitted, hobject, harray⟩
  · intro haccepted
    exact ⟨haccepted.admitted, haccepted.isObject, haccepted.isArray⟩

/-- Nothing is added to a report exactly if the declaration accepts the value. -/
theorem checkInto_fst_eq_iff (h : DeclaresOnly schema declared) {report : Report} :
    (checkInto root schema place value report).1 = report ↔ value.AcceptedBy declared := by
  rw [← h.violation?_eq_none_iff, checkInto, h.visit_eq]
  cases violation? schema value with
  | none => simp [Outcome.found, Report.append]
  | some violation =>
    constructor
    · intro hsame
      -- A report with one more diagnostic is another report.
      have hlength := congrArg (fun report => report.items.length) hsame
      simp [Outcome.found] at hlength
    · intro hnone
      cases hnone

end DeclaresOnly

end Visits

/-! ### What declarations accept -/

/-- A check against a schema that only declares types comes to an end. It reports nothing exactly if one
    of the entries admits the value and the value is an object where an entry is `object`, and an array
    where an entry is `array`. So alternatives other than these two can be added to a declaration, and
    what was accepted still is. -/
theorem declaration_accepts_iff {schema declared : Json} (h : DeclaresOnly schema declared)
    (root value : Json) (place : Location) (report : Report) :
    (checkInto root schema place value report).2 = none ∧
    ((checkInto root schema place value report).1 = report ↔ value.AcceptedBy declared) ∧
    ∀ schema' declared', DeclaresOnly schema' declared' → declared ≠ .null → Widens declared declared' →
      (checkInto root schema place value report).1 = report →
        (checkInto root schema' place value report).1 = report := by
  refine ⟨?_, h.checkInto_fst_eq_iff, fun schema' declared' h' hnamed hwidens hunchanged => ?_⟩
  · rw [checkInto, h.visit_eq]
    rfl
  · have haccepted := h.checkInto_fst_eq_iff.1 hunchanged
    exact h'.checkInto_fst_eq_iff.2 (haccepted.widens hnamed hwidens)

/-- Strings, null and an unknown name: null is accepted, and still is when `integer` is put in front. -/
theorem declaration_accepts_iff_unknown :
    let declared : Json := .array [.string "string", .string "null", .string "date"]
    let declared' : Json := .array [.string "integer", .string "string", .string "null", .string "date"]
    let schema : Json := .object [("title", .string "object"), ("type", declared)]
    let schema' : Json := .object [("type", declared')]
    DeclaresOnly schema declared ∧ DeclaresOnly schema' declared' ∧ declared ≠ .null ∧
      Widens declared declared' ∧
      (checkInto schema schema .whole .null .empty).1 = .empty ∧
      (checkInto schema schema' .whole .null .empty).1 = .empty := by
  intro declared declared' schema schema'
  have hschema : DeclaresOnly schema declared := ⟨rfl, by decide +kernel⟩
  have hschema' : DeclaresOnly schema' declared' := ⟨rfl, by decide +kernel⟩
  have hnamed : declared ≠ .null := Json.noConfusion
  have hwidens : Widens declared declared' := by
    constructor
    · intro entry hentry
      exact List.mem_cons_of_mem _ hentry
    · intro entry hentry
      rcases List.mem_cons.1 hentry with rfl | hkept
      · exact .inr ⟨by simp, by simp⟩
      · exact .inl hkept
  have haccepted : Json.null.AcceptedBy declared := by
    refine ⟨.inr ⟨.string "null", .tail _ List.mem_cons_self, .null⟩, fun hobject => ?_, fun harray => ?_⟩
    · simp [declared, typeEntries] at hobject
    · simp [declared, typeEntries] at harray
  obtain ⟨-, hiff, hwider⟩ := declaration_accepts_iff hschema schema .null .whole .empty
  exact ⟨hschema, hschema', hnamed, hwidens, hiff.2 haccepted,
    hwider schema' declared' hschema' hnamed hwidens (hiff.2 haccepted)⟩

/-- An object or null: null is admitted by an entry and yet rejected as no object, though it was accepted
    before `object` was added. -/
theorem declaration_rejects_admitted_null :
    let declared : Json := .array [.string "object", .string "null"]
    let schema : Json := .object [("type", declared)]
    let schema' : Json := .object [("type", .array [.string "null"])]
    let rejected : Report := ⟨[⟨"$", .notAnObject, "expected object, got null"⟩]⟩
    DeclaresOnly schema declared ∧ (∃ entry ∈ declared.typeEntries, NameAdmits entry .null) ∧
      check schema .null = .ok rejected ∧ checkInto schema schema .whole .null .empty = (rejected, none) ∧
      check schema' .null = .ok .empty ∧
      ¬ ∀ root schema declared, DeclaresOnly schema declared → declared ≠ .null → ∀ place value report,
        ((checkInto root schema place value report).1 = report ↔
          ∃ entry ∈ declared.typeEntries, NameAdmits entry value) := by
  intro declared schema schema' rejected
  have hschema : DeclaresOnly schema declared := ⟨rfl, by decide +kernel⟩
  have hadmitted : ∃ entry ∈ declared.typeEntries, NameAdmits entry .null :=
    ⟨.string "null", .tail _ List.mem_cons_self, .null⟩
  have hrejected : checkInto schema schema .whole .null .empty = (rejected, none) := by decide +kernel
  refine ⟨hschema, hadmitted, check_eq_ok_iff.2 (by decide +kernel), hrejected,
    check_eq_ok_iff.2 (by decide +kernel), fun hunion => ?_⟩
  have haccepted :=
    (hunion schema schema declared hschema Json.noConfusion .whole .null .empty).2 hadmitted
  rw [hrejected] at haccepted
  exact absurd haccepted (by decide)

end Conform
