/-
Module: Conform.Proofs.Schema.Guarded
Purpose: Guarded schemas. Their keywords have values of the right form, and keywords about objects or
  arrays stand beside a `type` that names nothing else, so that a value of an allowed type has the shape
  that the keywords are about. In a guarded document this is so for every schema that references and
  keywords lead to.
Main exports: Json.NamesOnly, Json.Guarded, Json.BareReference, Reachable, GuardedDocument,
  Json.Guarded.isObject, Json.Guarded.isArray, Reachable.effectiveSchema
-/
import Conform.Proofs.Schema.Chain

namespace Conform

open Json Relation

namespace Json

/-! ### Guarded schemas -/

/-- The `type` of the schema names a kind and nothing else. -/
def NamesOnly (schema : Json) (name : String) : Prop :=
  ∃ declared, schema.get? "type" = some declared ∧ ∀ entry ∈ declared.typeEntries, entry = .string name

/-- A schema without a reference is guarded: each keyword that is there has a value of the right form, and
    where the schema is about objects or about arrays, its `type` names nothing else. -/
structure Guarded (schema : Json) : Prop where
  mapping : schema.isObject = true
  unreferring : schema.get? "$ref" = none
  type : ∀ written, schema.get? "type" = some written → (∃ name, written = .string name) ∨
    ∃ entries, written = .array entries ∧ ∀ entry ∈ entries, ∃ name, entry = .string name
  enum : ∀ written, schema.get? "enum" = some written → ∃ allowed, written = .array allowed
  required : ∀ written, schema.get? "required" = some written → ∃ names, written = .array names
  properties : ∀ written, schema.get? "properties" = some written →
    ∃ members, written = .object members ∧ ∀ member ∈ members, member.2.isObject = true
  additionalProperties : ∀ written, schema.get? "additionalProperties" = some written →
    (∃ b, written = .bool b) ∨ written.isObject = true
  items : ∀ written, schema.get? "items" = some written → written.isObject = true
  uniqueItems : ∀ written, schema.get? "uniqueItems" = some written → ∃ b, written = .bool b
  objects : schema.ObjectShaped → schema.NamesOnly "object"
  arrays : schema.ArrayShaped → schema.NamesOnly "array"

/-- The keywords other than `$ref` that say something about a value. -/
def keywords : List String :=
  ["type", "const", "enum", "properties", "required", "additionalProperties", "items", "uniqueItems"]

/-- A schema with a reference and no other keyword. It may have entries that say nothing about a value,
    such as definitions for references to lead to. -/
structure BareReference (schema : Json) : Prop where
  refers : schema.HasKeyword "$ref"
  alone : ∀ keyword ∈ keywords, schema.get? keyword = none

variable {schema value : Json} {key : String}

/-- A value that the only type names admit is of that kind. -/
theorem NamesOnly.nameAdmits {name : String} (h : schema.NamesOnly name)
    (htype : schema.TypeAllows value) :
    NameAdmits (.string name) value := by
  obtain ⟨declared, hwritten, honly⟩ := h
  by_cases hnull : declared = .null
  · subst hnull
    exact absurd (honly .null List.mem_cons_self) Json.noConfusion
  · obtain ⟨entry, hentry, hadmits⟩ := htype declared hwritten hnull
    rwa [honly entry hentry] at hadmits

/-- The name of objects admits objects only. -/
theorem isObject_of_nameAdmits (h : NameAdmits (.string "object") value) : value.isObject = true := by
  generalize hname : Json.string "object" = entry at h
  cases h with
  | object members => rfl
  | _ => simp at hname

/-- The name of arrays admits arrays only. -/
theorem isArray_of_nameAdmits (h : NameAdmits (.string "array") value) :
    ∃ items, value = .array items := by
  generalize hname : Json.string "array" = entry at h
  cases h with
  | array items => exact ⟨items, rfl⟩
  | _ => simp at hname

/-- Where a guarded schema is about objects, a value of an allowed type is an object. -/
theorem Guarded.isObject (h : schema.Guarded) (htype : schema.TypeAllows value)
    (hshaped : schema.ObjectShaped) : value.isObject = true :=
  isObject_of_nameAdmits ((h.objects hshaped).nameAdmits htype)

/-- Where a guarded schema is about arrays, a value of an allowed type is an array. -/
theorem Guarded.isArray (h : schema.Guarded) (htype : schema.TypeAllows value)
    (hshaped : schema.ArrayShaped) : ∃ items, value = .array items :=
  isArray_of_nameAdmits ((h.arrays hshaped).nameAdmits htype)

/-- A bare reference lists no schemas for members. -/
theorem BareReference.propertySchema?_eq_none (h : schema.BareReference) :
    schema.propertySchema? key = none := by
  rw [propertySchema?, h.alone "properties" (by decide), Option.bind_none]

end Json

/-! ### Guarded documents -/

/-- A schema can be reached in a document: it is the root, or a reference or a keyword for parts leads to
    it from a schema that can be reached. -/
inductive Reachable (root : Json) : Json → Prop where
  | root : Reachable root root
  | reference {schema target : Json} (reachable : Reachable root schema) (hop : Hop root schema target) :
      Reachable root target
  | property {schema inner : Json} {key : String} (reachable : Reachable root schema)
      (entry : schema.propertySchema? key = some inner) : Reachable root inner
  | additional {schema inner : Json} (reachable : Reachable root schema)
      (written : schema.get? "additionalProperties" = some inner) (mapping : inner.isObject = true) :
      Reachable root inner
  | items {schema inner : Json} (reachable : Reachable root schema)
      (written : schema.get? "items" = some inner) : Reachable root inner

/-- Every schema that can be reached is guarded or a bare reference. -/
def GuardedDocument (root : Json) : Prop :=
  ∀ schema, Reachable root schema → schema.Guarded ∨ schema.BareReference

section Document

variable {root schema target inner : Json} {key : String}

/-- The schema that applies to a member can be reached. -/
theorem Reachable.memberSchema (h : Reachable root schema) (happlies : schema.MemberSchema key inner) :
    Reachable root inner := by
  cases happlies with
  | listed entry => exact h.property entry
  | extra _ rule mapping => exact h.additional rule mapping

/-- What a chain of references leads to can be reached. -/
theorem Reachable.chain (h : Reachable root schema) (hchain : ReflTransGen (Hop root) schema target) :
    Reachable root target := by
  induction hchain with
  | refl => exact h
  | tail _ hop ih => exact ih.reference hop

/-- The schema that counts ends the chain of references and refers to nothing itself. -/
theorem chain_of_effectiveSchema (h : effectiveSchema root schema = .ok target) :
    ReflTransGen (Hop root) schema target ∧ target.get? "$ref" = none := by
  rcases effectiveSchema_cases root schema with ⟨last, hchain, hstops⟩ | ⟨-, chain, hcycle⟩
  · rw [h] at hstops
    cases hstops with
    | here unreferring => exact ⟨hchain, unreferring⟩
  · rw [h] at hcycle
    cases hcycle

/-- The schema that counts can be reached where the schema can. -/
theorem Reachable.effectiveSchema (h : Reachable root schema)
    (hresolves : effectiveSchema root schema = .ok target) :
    Reachable root target :=
  h.chain (chain_of_effectiveSchema hresolves).1

/-- In a guarded document the schema that counts is guarded. -/
theorem GuardedDocument.guarded (hdocument : GuardedDocument root) (h : Reachable root schema)
    (hresolves : effectiveSchema root schema = .ok target) : target.Guarded := by
  refine (hdocument target (h.effectiveSchema hresolves)).resolve_right fun hbare => ?_
  obtain ⟨written, hwritten⟩ := hbare.refers
  rw [(chain_of_effectiveSchema hresolves).2] at hwritten
  cases hwritten

/-- In a guarded document a schema that hops on is a bare reference. -/
theorem GuardedDocument.bareReference (hdocument : GuardedDocument root) (h : Reachable root schema)
    (hhop : Hop root schema target) : schema.BareReference := by
  refine (hdocument schema h).resolve_left fun hguarded => ?_
  obtain ⟨reference, hrefers, -⟩ := hhop
  rw [hguarded.unreferring] at hrefers
  cases hrefers

end Document

end Conform
