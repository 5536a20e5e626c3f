/-
Module: Conform.Proofs.Schema.Inlined
Purpose: Replacing references in a schema by the schemas they lead to, at the schema itself or at any
  schema inside it. One step replaces one reference; any number of steps may follow. A step in the middle
  of a schema leaves its keywords as they are, except for one schema that stands for members or elements;
  a step at the schema itself changes neither the schema that counts nor the variant of an error.
Main exports: InlineStep, Inlined, Node.SameRules, Node.InlineStep, effectiveSchema_inlineStep
-/
import Conform.Entries
import Conform.Proofs.Schema.Chain

namespace Conform

open Json

/-! ### Steps -/

/-- One reference is replaced by what it leads to in the document `root`, and its other keywords are
    dropped. The reference is the schema itself, or it stands under `additionalProperties` or `items`, or
    is an entry of `properties`, or stands inside a schema at one of these positions. -/
inductive InlineStep (root : Json) : Json → Json → Prop where
  | here {schema target : Json} (hop : Hop root schema target) : InlineStep root schema target
  | keyword {members : List (String × Json)} {keyword : String} {inner inner' : Json}
      (position : keyword = "additionalProperties" ∨ keyword = "items")
      (written : members.lookup keyword = some inner) (step : InlineStep root inner inner') :
      InlineStep root (.object members) (.object (Entries.set keyword inner' members))
  | property {members entries : List (String × Json)} {key : String} {inner inner' : Json}
      (written : members.lookup "properties" = some (.object entries))
      (listed : entries.lookup key = some inner) (step : InlineStep root inner inner') :
      InlineStep root (.object members)
        (.object (Entries.set "properties" (.object (Entries.set key inner' entries)) members))

/-- Any number of references are replaced one after the other. -/
def Inlined (root : Json) : Json → Json → Prop := Relation.ReflTransGen (InlineStep root)

/-- A step leads from an object to an object. -/
theorem InlineStep.isObject {root schema schema' : Json} (h : InlineStep root schema schema') :
    schema.isObject = true ∧ schema'.isObject = true := by
  cases h with
  | here hop =>
    obtain ⟨reference, hrefers, hresolves⟩ := hop
    exact ⟨isObject_of_get? hrefers, (descend_of_dereference hresolves).2⟩
  | keyword => exact ⟨rfl, rfl⟩
  | property => exact ⟨rfl, rfl⟩

/-! ### Schemas that differ under one keyword -/

namespace Json

/-- Two schemas have the same keywords, with the same values except under one of them. -/
structure SameExcept (keyword : String) (schema schema' : Json) : Prop where
  kept : ∀ key, key ≠ keyword → schema'.get? key = schema.get? key
  present : ∀ key, (schema'.get? key).isSome = (schema.get? key).isSome

variable {members : List (String × Json)} {keyword : String} {inner inner' : Json}

/-- Another value under a keyword that is there already changes nothing else. -/
theorem sameExcept_set (written : members.lookup keyword = some inner) :
    SameExcept keyword (.object members) (.object (Entries.set keyword inner' members)) := by
  refine ⟨fun key hne => Entries.lookup_set_of_ne inner' members hne, fun key => ?_⟩
  by_cases hkey : key = keyword
  · subst hkey
    rw [get?, get?, Entries.lookup_set_self, written]
    rfl
  · rw [get?, get?, Entries.lookup_set_of_ne inner' members hkey]

end Json

namespace Node

/-- Two nodes have the same rules about a value itself and want the same shapes. -/
structure SameRules (node node' : Node) : Prop where
  types : node'.types = node.types
  const : node'.const = node.const
  enum : node'.enum = node.enum
  required : node'.required = node.required
  distinct : node'.distinct = node.distinct
  wantsObject : node'.wantsObject = node.wantsObject
  wantsArray : node'.wantsArray = node.wantsArray

/-- Two nodes have the same rules, and a step leads from each schema that they have for a member or for
    elements to the other, if that is not the same. -/
structure InlineStep (root : Json) (node node' : Node) : Prop where
  rules : SameRules node node'
  members : ∀ key, node'.memberRule key = node.memberRule key ∨ ∃ inner inner',
    node.memberRule key = .schema inner ∧ node'.memberRule key = .schema inner' ∧
      Conform.InlineStep root inner inner'
  items : node'.items = node.items ∨ ∃ inner inner',
    node.items = some inner ∧ node'.items = some inner' ∧ Conform.InlineStep root inner inner'

section Except

variable {keyword key : String} {root schema schema' inner inner' : Json}

/-- A keyword that is about members or elements only does not touch the other rules. -/
theorem sameRules_of_sameExcept (h : SameExcept keyword schema schema')
    (position : keyword = "properties" ∨ keyword = "additionalProperties" ∨ keyword = "items") :
    SameRules (ofJson schema) (ofJson schema') := by
  have hkept : ∀ key, key ≠ "properties" → key ≠ "additionalProperties" → key ≠ "items" →
      schema'.get? key = schema.get? key := by
    intro key h₁ h₂ h₃
    apply h.kept
    rcases position with rfl | rfl | rfl <;> assumption
  have htypes : typesOf? schema' = typesOf? schema := by
    rw [typesOf?, hkept _ (by decide) (by decide) (by decide), typesOf?]
  have hdeclares : ∀ kind, declares schema' kind = declares schema kind := fun kind => by
    rw [declares, htypes, declares]
  have hany : ∀ keywords, hasAny schema' keywords = hasAny schema keywords := fun keywords => by
    simp only [hasAny, h.present]
  constructor
  · exact htypes
  · exact hkept _ (by decide) (by decide) (by decide)
  · simp only [ofJson, hkept "enum" (by decide) (by decide) (by decide)]
  · simp only [ofJson, requiredOf, hkept "required" (by decide) (by decide) (by decide)]
  · simp only [ofJson, hkept "uniqueItems" (by decide) (by decide) (by decide)]
  · simp only [ofJson, hdeclares, hany]
  · simp only [ofJson, hdeclares, hany]

/-- The rule for a member, read off the schema as it is written. -/
theorem memberRule_ofJson (schema : Json) (key : String) : (ofJson schema).memberRule key =
    (schema.propertySchema? key).elim (extraOf schema) .schema := by
  rw [memberRule, memberSchema?_ofJson]
  cases schema.propertySchema? key <;> rfl

/-- Schemas with the same `properties` list the same schemas for members. -/
theorem propertySchema?_congr (h : schema'.get? "properties" = schema.get? "properties") (key : String) :
    schema'.propertySchema? key = schema.propertySchema? key := by
  rw [propertySchema?, h, propertySchema?]

/-- A step under `additionalProperties` changes the rule for members that are not listed. -/
theorem inlineStep_of_additionalProperties (h : SameExcept "additionalProperties" schema schema')
    (written : schema.get? "additionalProperties" = some inner)
    (written' : schema'.get? "additionalProperties" = some inner')
    (step : Conform.InlineStep root inner inner') : InlineStep root (ofJson schema) (ofJson schema') := by
  have hrule := extraOf_eq_schema_iff.2 ⟨written, step.isObject.1⟩
  have hrule' := extraOf_eq_schema_iff.2 ⟨written', step.isObject.2⟩
  refine ⟨sameRules_of_sameExcept h (.inr (.inl rfl)), fun key => ?_, .inl ?_⟩
  · rw [memberRule_ofJson, memberRule_ofJson, propertySchema?_congr (h.kept _ (by decide))]
    cases schema.propertySchema? key with
    | some listed => exact .inl rfl
    | none => exact .inr ⟨inner, inner', hrule, hrule', step⟩
  · simp only [ofJson, h.kept "items" (by decide)]

/-- A step under `items` changes the schema for elements. -/
theorem inlineStep_of_items (h : SameExcept "items" schema schema')
    (written : schema.get? "items" = some inner) (written' : schema'.get? "items" = some inner')
    (step : Conform.InlineStep root inner inner') : InlineStep root (ofJson schema) (ofJson schema') := by
  refine ⟨sameRules_of_sameExcept h (.inr (.inr rfl)), fun key => .inl ?_,
    .inr ⟨inner, inner', ?_, ?_, step⟩⟩
  · rw [memberRule_ofJson, memberRule_ofJson, propertySchema?_congr (h.kept _ (by decide)), extraOf,
      h.kept _ (by decide), extraOf]
  · exact items_ofJson_eq_some_iff.2 ⟨written, step.isObject.1⟩
  · exact items_ofJson_eq_some_iff.2 ⟨written', step.isObject.2⟩

/-- A step in an entry of `properties` changes the rule for the members with its key. -/
theorem inlineStep_of_properties {entries : List (String × Json)}
    (h : SameExcept "properties" schema schema')
    (written : schema.get? "properties" = some (.object entries))
    (written' : schema'.get? "properties" = some (.object (Entries.set key inner' entries)))
    (listed : entries.lookup key = some inner) (step : Conform.InlineStep root inner inner') :
    InlineStep root (ofJson schema) (ofJson schema') := by
  have hlisted : ∀ other, schema.propertySchema? other = entries.lookup other := fun other => by
    rw [propertySchema?, written]
    rfl
  have hlisted' : ∀ other, schema'.propertySchema? other =
      (Entries.set key inner' entries).lookup other :=
    fun other => by
      rw [propertySchema?, written']
      rfl
  refine ⟨sameRules_of_sameExcept h (.inl rfl), fun other => ?_, .inl ?_⟩
  · rw [memberRule_ofJson, memberRule_ofJson, hlisted, hlisted']
    by_cases hkey : other = key
    · subst hkey
      rw [Entries.lookup_set_self, listed]
      exact .inr ⟨inner, inner', rfl, rfl, step⟩
    · rw [Entries.lookup_set_of_ne inner' entries hkey, extraOf, h.kept _ (by decide), extraOf]
      exact .inl rfl
  · simp only [ofJson, h.kept "items" (by decide)]

end Except

end Node

/-! ### The schema that counts -/

section Effective

variable {root schema schema' : Json}

/-- Schemas with the same reference lead to the same schema or fail with the same variant of error. -/
theorem effectiveSchema_congr_reference (hsame : schema'.get? "$ref" = schema.get? "$ref")
    (hrefers : (schema.get? "$ref").isSome = true) :
    (effectiveSchema root schema).mapError ReferenceError.variant =
      (effectiveSchema root schema').mapError ReferenceError.variant := by
  obtain ⟨written, hwritten⟩ := Option.isSome_iff_exists.1 hrefers
  have hwritten' := hsame.trans hwritten
  have hstops : ∀ result, Stops root schema result → Stops root schema' result →
      effectiveSchema root schema = effectiveSchema root schema' := fun result h h' => by
    rw [effectiveSchema_of_endsWith ⟨schema, .refl, h⟩, effectiveSchema_of_endsWith ⟨schema', .refl, h'⟩]
  by_cases hstring : ∃ reference, written = .string reference
  · obtain ⟨reference, rfl⟩ := hstring
    cases hresolves : dereference root reference with
    | error e => rw [hstops _ (.nowhere hwritten hresolves) (.nowhere hwritten' hresolves)]
    | ok target =>
      rw [effectiveSchema_of_hop ⟨reference, hwritten, hresolves⟩,
        effectiveSchema_of_hop ⟨reference, hwritten', hresolves⟩]
  · have hno : ∀ reference, written ≠ .string reference := fun reference heq => hstring ⟨reference, heq⟩
    rw [hstops _ (.noString hwritten hno) (.noString hwritten' hno)]

/-- A schema without a reference counts itself. -/
theorem effectiveSchema_of_get?_eq_none (h : schema.get? "$ref" = none) :
    effectiveSchema root schema = .ok schema :=
  effectiveSchema_of_endsWith ⟨schema, .refl, .here h⟩

/-- A step under a keyword is a step of the node, or both schemas refer to the same. -/
theorem effectiveSchema_of_sameExcept {keyword : String} (h : SameExcept keyword schema schema')
    (hkeyword : "$ref" ≠ keyword)
    (hnode : Node.InlineStep root (Node.ofJson schema) (Node.ofJson schema')) :
    (effectiveSchema root schema).mapError ReferenceError.variant =
        (effectiveSchema root schema').mapError ReferenceError.variant ∨
      ∃ target target', effectiveSchema root schema = .ok target ∧
        effectiveSchema root schema' = .ok target' ∧
        Node.InlineStep root (Node.ofJson target) (Node.ofJson target') := by
  have hsame := h.kept "$ref" hkeyword
  cases hget : schema.get? "$ref" with
  | some written => exact .inl (effectiveSchema_congr_reference hsame (by rw [hget]; rfl))
  | none =>
    exact .inr ⟨schema, schema', effectiveSchema_of_get?_eq_none hget,
      effectiveSchema_of_get?_eq_none (hsame.trans hget), hnode⟩

/-- A step leads to the same schema or fails with the same variant of error, or it leads from the schema
    that counts to one whose node is a step away. -/
theorem effectiveSchema_inlineStep (h : InlineStep root schema schema') :
    (effectiveSchema root schema).mapError ReferenceError.variant =
        (effectiveSchema root schema').mapError ReferenceError.variant ∨
      ∃ target target', effectiveSchema root schema = .ok target ∧
        effectiveSchema root schema' = .ok target' ∧
        Node.InlineStep root (Node.ofJson target) (Node.ofJson target') := by
  cases h with
  | here hop => exact .inl (effectiveSchema_of_hop hop)
  | @keyword members keyword inner inner' position written step =>
    have hset : (Json.object (Entries.set keyword inner' members)).get? keyword = some inner' :=
      Entries.lookup_set_self keyword inner' members
    rcases position with rfl | rfl
    · exact effectiveSchema_of_sameExcept (sameExcept_set written) (by decide)
        (Node.inlineStep_of_additionalProperties (sameExcept_set written) written hset step)
    · exact effectiveSchema_of_sameExcept (sameExcept_set written) (by decide)
        (Node.inlineStep_of_items (sameExcept_set written) written hset step)
  | property written listed step =>
    exact effectiveSchema_of_sameExcept (sameExcept_set written) (by decide)
      (Node.inlineStep_of_properties (sameExcept_set written) written
        (Entries.lookup_set_self _ _ _) listed step)

end Effective

end Conform
