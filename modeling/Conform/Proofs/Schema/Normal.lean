/-
Module: Conform.Proofs.Schema.Normal
Purpose: Schemas and their normal forms. References lead to the same places in a document and in its
  normal form, and fail in the same way; the keywords of a schema and of its normal form say the same.
Main exports: ReferenceError.variant, Json.mem_references_normalize, dereference_normalize,
  effectiveSchema_normalize, TypeDeclaration.kinds_normalize, Node.memberRule_ofJson_normalize
-/
import Conform.Proofs.Json.Normal
import Conform.Proofs.Schema.Keywords

namespace Conform

/-! ### Errors -/

/-- What is wrong with a reference, without the texts involved. -/
inductive ReferenceError.Variant where
  | notLocal
  | missingKey
  | notAnObject
  | cycle
deriving DecidableEq, Repr

/-- The variant of a reference error. -/
def ReferenceError.variant : ReferenceError → Variant
  | .notLocal _ => .notLocal
  | .missingKey _ _ => .missingKey
  | .notAnObject _ => .notAnObject
  | .cycle _ => .cycle

/-! ### References of a document -/

namespace Json

/-- The references of members are the strings under `$ref` and the references of the values. -/
theorem mem_referencesOfMembers {reference : String} {members : List (String × Json)} :
    reference ∈ referencesOfMembers members ↔ ∃ member ∈ members,
      (member.1 = "$ref" ∧ member.2.asString? = some reference) ∨ reference ∈ member.2.references := by
  induction members with
  | nil => simp [referencesOfMembers]
  | cons member rest ih =>
    rcases member with ⟨key, value⟩
    rw [referencesOfMembers, List.mem_append, List.mem_append, ih, ← or_assoc]
    by_cases hkey : key = "$ref" <;> simp [hkey]

mutual

/-- A document and its normal form have the same references. -/
theorem mem_references_normalize (reference : String) : ∀ v : Json,
    reference ∈ v.normalize.references ↔ reference ∈ v.references
  | .null => Iff.rfl
  | .bool _ => Iff.rfl
  | .number _ => Iff.rfl
  | .string _ => Iff.rfl
  | .array items => mem_references_normalizeItems reference items
  | .object members => by
    rw [normalize, references, references, mem_referencesOfMembers]
    simp only [(sortMembers_perm (normalizeMembers members)).mem_iff]
    rw [← mem_referencesOfMembers]
    exact mem_references_normalizeMembers reference members

theorem mem_references_normalizeItems (reference : String) : ∀ items : List Json,
    reference ∈ referencesOfItems (normalizeItems items) ↔ reference ∈ referencesOfItems items
  | [] => Iff.rfl
  | item :: rest => by
    rw [normalizeItems, referencesOfItems, referencesOfItems, List.mem_append, List.mem_append,
      mem_references_normalize reference item, mem_references_normalizeItems reference rest]

theorem mem_references_normalizeMembers (reference : String) : ∀ members : List (String × Json),
    reference ∈ referencesOfMembers (normalizeMembers members) ↔ reference ∈ referencesOfMembers members
  | [] => Iff.rfl
  | (key, value) :: rest => by
    rw [normalizeMembers, referencesOfMembers, referencesOfMembers, asString?_normalize]
    simp only [List.mem_append]
    rw [mem_references_normalize reference value, mem_references_normalizeMembers reference rest]

end

end Json

open Json

/-! ### Following references -/

/-- Keys lead to the normal form of what they lead to. -/
theorem descend_normalize (v : Json) (keys : List String) :
    descend v.normalize keys = (descend v keys).map Json.normalize := by
  induction keys generalizing v with
  | nil => rfl
  | cons key rest ih =>
    rw [descend, descend, get?_normalize]
    cases v.get? key with
    | none => rfl
    | some inner => exact ih inner

/-- A reference leads to the normal form of what it leads to, or fails for the same reason. -/
theorem dereference_normalize (root : Json) (reference : String) :
    dereference root.normalize reference = (dereference root reference).map Json.normalize := by
  rw [dereference, dereference]
  cases keysOf? reference with
  | none => rfl
  | some keys =>
    simp only [descend_normalize]
    cases descend root keys with
    | error key => rfl
    | ok target =>
      simp only [Except.map, isObject_normalize]
      cases target.isObject <;> rfl

/-- Two chains of references end alike: at a schema and its normal form, or with the same variant of
    error. -/
def SameEnd : Except ReferenceError Json → Except ReferenceError Json → Prop
  | .ok target, .ok target' => target' = target.normalize
  | .error e, .error e' => e'.variant = e.variant
  | _, _ => False

/-- Chains that end alike end at schemas or with errors. -/
theorem SameEnd.cases {first second : Except ReferenceError Json} (h : SameEnd first second) :
    (∃ e e', first = .error e ∧ second = .error e' ∧ e'.variant = e.variant) ∨
    ∃ target, first = .ok target ∧ second = .ok target.normalize := by
  cases first with
  | error e =>
    cases second with
    | error e' => exact Or.inl ⟨e, e', rfl, rfl, h⟩
    | ok target' => exact absurd h id
  | ok target =>
    cases second with
    | error e' => exact absurd h id
    | ok target' =>
      have heq : target' = target.normalize := h
      exact Or.inr ⟨target, rfl, congrArg Except.ok heq⟩

/-- Following references from the normal form in the normal form of the document, with the same references
    pending in any order. -/
theorem follow_normalize (root : Json) (pending trail : List String) (schema : Json) :
    ∀ pending' : List String, (∀ reference, reference ∈ pending' ↔ reference ∈ pending) →
      SameEnd (follow root pending trail schema)
        (follow root.normalize pending' trail schema.normalize) := by
  -- The lists of pending references agree as sets only, because members change their order.
  fun_induction follow root pending trail schema with
  | case1 pending trail schema hget =>
    intro pending' _
    rw [follow, get?_normalize, hget]
    exact rfl
  | case2 pending trail schema reference hget hmem e hderef =>
    intro pending' hpending
    rw [follow, get?_normalize, hget]
    simp only [Option.map_some, Json.normalize, dif_pos ((hpending reference).2 hmem),
      dereference_normalize, hderef, Except.map]
    exact rfl
  | case3 pending trail schema reference hget hmem target hderef ih =>
    intro pending' hpending
    rw [follow.eq_def root.normalize, get?_normalize, hget]
    simp only [Option.map_some, Json.normalize, dif_pos ((hpending reference).2 hmem),
      dereference_normalize, hderef, Except.map]
    apply ih
    intro other
    simp only [strike, List.mem_filter, hpending]
  | case4 pending trail schema reference hget hmem =>
    intro pending' hpending
    rw [follow, get?_normalize, hget]
    simp only [Option.map_some, Json.normalize, dif_neg fun h => hmem ((hpending reference).1 h)]
    exact rfl
  | case5 pending trail schema other hother hget =>
    intro pending' _
    rw [follow, get?_normalize, hget]
    cases other with
    | string reference => exact absurd rfl (hother reference)
    | _ => exact rfl

/-- The schema that counts for a normal form in a normal form. -/
theorem effectiveSchema_normalize (root schema : Json) :
    SameEnd (effectiveSchema root schema) (effectiveSchema root.normalize schema.normalize) := by
  rw [effectiveSchema, effectiveSchema, get?_normalize, Option.isSome_map]
  by_cases h : (schema.get? "$ref").isSome = true
  · rw [if_pos h, if_pos h]
    apply follow_normalize
    intro reference
    rw [List.mem_append, List.mem_append, mem_references_normalize, mem_references_normalize]
  · rw [if_neg h, if_neg h]
    exact rfl

/-! ### Keywords -/

namespace TypeDeclaration

theorem entryKind?_normalize (entry : Json) : entryKind? entry.normalize = entryKind? entry := by
  rw [entryKind?, asString?_normalize, entryKind?]

/-- The alternatives of a declaration are those of its normal form. -/
theorem kinds_normalize (written : Json) :
    (TypeDeclaration.mk written.normalize).kinds = (TypeDeclaration.mk written).kinds := by
  rw [kinds_eq, kinds_eq]
  cases written with
  | array entries =>
    rw [Json.normalize, typeEntries, typeEntries, normalizeItems_eq_map, List.filterMap_map]
    exact List.filterMap_congr fun entry _ => entryKind?_normalize entry
  | _ => rfl

end TypeDeclaration

/-- The rule about members with its schema in normal form. -/
def ExtraMembers.normalize : ExtraMembers → ExtraMembers
  | .allow => .allow
  | .deny => .deny
  | .schema inner => .schema inner.normalize

namespace Node

variable (schema value : Json)

theorem typesOf?_normalize :
    typesOf? schema.normalize = (typesOf? schema).map fun declared => ⟨declared.written.normalize⟩ := by
  rw [typesOf?, get?_normalize, typesOf?]
  cases schema.get? "type" with
  | none => rfl
  | some written => cases written <;> rfl

theorem hasAny_normalize (keywords : List String) :
    hasAny schema.normalize keywords = hasAny schema keywords := by
  simp [hasAny]

theorem declares_normalize (kind : Kind) : declares schema.normalize kind = declares schema kind := by
  rw [declares, typesOf?_normalize, declares]
  cases typesOf? schema with
  | none => rfl
  | some declared =>
    rcases declared with ⟨written⟩
    exact congrArg (List.contains · kind) (TypeDeclaration.kinds_normalize written)

theorem wantsObject_ofJson_normalize :
    (Node.ofJson schema.normalize).wantsObject = (Node.ofJson schema).wantsObject := by
  simp only [Node.ofJson, declares_normalize, hasAny_normalize]

theorem wantsArray_ofJson_normalize :
    (Node.ofJson schema.normalize).wantsArray = (Node.ofJson schema).wantsArray := by
  simp only [Node.ofJson, declares_normalize, hasAny_normalize]

theorem required_ofJson_normalize :
    (Node.ofJson schema.normalize).required = (Node.ofJson schema).required := by
  change requiredOf schema.normalize = requiredOf schema
  rw [requiredOf, get?_normalize, requiredOf]
  cases schema.get? "required" with
  | none => rfl
  | some written =>
    cases written with
    | array names =>
      change (normalizeItems names).filterMap asString? = names.filterMap asString?
      rw [normalizeItems_eq_map, List.filterMap_map]
      exact List.filterMap_congr fun name _ => asString?_normalize name
    | _ => rfl

theorem distinct_ofJson_normalize :
    (Node.ofJson schema.normalize).distinct = (Node.ofJson schema).distinct := by
  simp only [Node.ofJson, get?_normalize]
  cases schema.get? "uniqueItems" with
  | none => rfl
  | some written => cases written <;> rfl

theorem items_ofJson_normalize :
    (Node.ofJson schema.normalize).items = (Node.ofJson schema).items.map Json.normalize := by
  simp only [Node.ofJson, get?_normalize]
  cases schema.get? "items" with
  | none => rfl
  | some written => cases written <;> rfl

theorem extraOf_normalize : extraOf schema.normalize = (extraOf schema).normalize := by
  rw [extraOf, get?_normalize, extraOf]
  cases schema.get? "additionalProperties" with
  | none => rfl
  | some written =>
    cases written with
    | bool b => cases b <;> rfl
    | _ => rfl

/-- A normal form has for each member the normal form of the rule. -/
theorem memberRule_ofJson_normalize (key : String) :
    (Node.ofJson schema.normalize).memberRule key = ((Node.ofJson schema).memberRule key).normalize := by
  have hextra : (Node.ofJson schema.normalize).extra = (Node.ofJson schema).extra.normalize :=
    extraOf_normalize schema
  have hlisted : schema.normalize.propertySchema? key =
      (schema.propertySchema? key).map Json.normalize := by
    rw [propertySchema?, get?_normalize, propertySchema?]
    cases schema.get? "properties" with
    | none => rfl
    | some written => exact get?_normalize written key
  rw [memberRule, memberSchema?_ofJson, hlisted, hextra, memberRule, memberSchema?_ofJson]
  cases schema.propertySchema? key <;> rfl

/-- A value breaks the `type` of a schema if it breaks that of the normal form. -/
theorem typeViolation?_ofJson_normalize :
    ((Node.ofJson schema.normalize).typeViolation? value).map Violation.rule =
      ((Node.ofJson schema).typeViolation? value).map Violation.rule := by
  have htypes : ∀ s : Json, (Node.ofJson s).types = typesOf? s := fun _ => rfl
  rw [typeViolation?, htypes, typesOf?_normalize, typeViolation?, htypes]
  cases typesOf? schema with
  | none => rfl
  | some declared =>
    rcases declared with ⟨written⟩
    have hadmits : (TypeDeclaration.mk written.normalize).admits value =
        (TypeDeclaration.mk written).admits value :=
      congrArg (List.any · (Kind.admits · value)) (TypeDeclaration.kinds_normalize written)
    simp only [Option.map_some, hadmits]
    cases (TypeDeclaration.mk written).admits value <;> rfl

theorem const_ofJson_normalize :
    (Node.ofJson schema.normalize).const = (Node.ofJson schema).const.map Json.normalize :=
  get?_normalize schema "const"

theorem enum_ofJson_normalize :
    (Node.ofJson schema.normalize).enum = (Node.ofJson schema).enum.map Json.normalizeItems := by
  simp only [Node.ofJson, get?_normalize]
  cases schema.get? "enum" with
  | none => rfl
  | some written => exact asArray?_normalize written

theorem missingFindings_ofJson_normalize (place : Location) (members : List (String × Json)) :
    (Node.ofJson schema.normalize).missingFindings place members =
      (Node.ofJson schema).missingFindings place members := by
  rw [missingFindings, required_ofJson_normalize, missingFindings]

theorem duplicateFindings_ofJson_normalize (place : Location) (items : List Json) :
    (Node.ofJson schema.normalize).duplicateFindings place items =
      (Node.ofJson schema).duplicateFindings place items := by
  rw [duplicateFindings, distinct_ofJson_normalize, duplicateFindings]

theorem shapeFindings_ofJson_normalize (place : Location) (kind : Kind) :
    (Node.ofJson schema.normalize).shapeFindings place kind =
      (Node.ofJson schema).shapeFindings place kind := by
  rw [shapeFindings, wantsObject_ofJson_normalize, wantsArray_ofJson_normalize, shapeFindings]

end Node

end Conform
