/-
Module: Conform.Proofs.Schema.Tightened
Purpose: Adding constraints to a schema, at the schema itself or at any schema inside it. One step adds
  one keyword with any value where it was absent; any number of steps may follow. What a schema asks of a
  value, a schema with constraints added asks as well, and its schemas for parts are those of the first
  with constraints added.
Main exports: Entries.Added, constraints, TightenStep, Tightened, Json.Tightens, TightenStep.tightens,
  TightenStep.effectiveSchema_eq
-/
import Conform.Proofs.Schema.Inlined

namespace Conform

open Json

/-! ### Entries with one more -/

namespace Entries

variable {α : Type} {name other : String} {value : α} {entries entries' : Entries α}

/-- The second entries are the first with one more, whose name is new, at any place in their order. -/
inductive Added (name : String) (value : α) : Entries α → Entries α → Prop where
  | between (before after : Entries α) (fresh : (before ++ after).lookup name = none) :
      Added name value (before ++ after) (before ++ (name, value) :: after)

/-- The name of the added entry was not there. -/
theorem Added.lookup_before (h : Added name value entries entries') : entries.lookup name = none := by
  cases h with
  | between before after fresh => exact fresh

/-- What is found under other names stays the same. -/
theorem Added.lookup_of_ne (h : Added name value entries entries') (hne : other ≠ name) :
    entries'.lookup other = entries.lookup other := by
  cases h with
  | between before after fresh =>
    have hfalse : (other == name) = false := by simpa using hne
    rw [List.lookup_append, List.lookup_append, List.lookup_cons, hfalse]

/-- What was found is still found. -/
theorem Added.lookup_eq_some (h : Added name value entries entries') {found : α}
    (hfound : entries.lookup other = some found) : entries'.lookup other = some found := by
  have hne : other ≠ name := by
    intro heq
    subst heq
    rw [h.lookup_before] at hfound
    cases hfound
  rw [h.lookup_of_ne hne]
  exact hfound

end Entries

/-! ### Steps -/

/-- The keywords whose presence asks something of a value. `properties` is not one of them: an entry there
    takes a member out of the reach of `additionalProperties`. -/
def constraints : List String :=
  ["type", "const", "enum", "required", "additionalProperties", "items", "uniqueItems"]

/-- One constraint is added, with any value, where its keyword was absent: at the schema itself, or at a
    schema that stands under `additionalProperties` or `items`, or is an entry of `properties`, or stands
    inside a schema at one of these positions. -/
inductive TightenStep : Json → Json → Prop where
  | here {members members' : List (String × Json)} {keyword : String} {written : Json}
      (constraint : keyword ∈ constraints) (added : Entries.Added keyword written members members') :
      TightenStep (.object members) (.object members')
  | keyword {members : List (String × Json)} {keyword : String} {inner inner' : Json}
      (position : keyword = "additionalProperties" ∨ keyword = "items")
      (written : members.lookup keyword = some inner) (step : TightenStep inner inner') :
      TightenStep (.object members) (.object (Entries.set keyword inner' members))
  | property {members entries : List (String × Json)} {key : String} {inner inner' : Json}
      (written : members.lookup "properties" = some (.object entries))
      (listed : entries.lookup key = some inner) (step : TightenStep inner inner') :
      TightenStep (.object members)
        (.object (Entries.set "properties" (.object (Entries.set key inner' entries)) members))

/-- Any number of constraints are added one after the other. -/
def Tightened : Json → Json → Prop := Relation.ReflTransGen TightenStep

/-- A step leads from an object to an object. -/
theorem TightenStep.isObject {schema schema' : Json} (h : TightenStep schema schema') :
    schema.isObject = true ∧ schema'.isObject = true := by
  cases h with
  | here => exact ⟨rfl, rfl⟩
  | keyword => exact ⟨rfl, rfl⟩
  | property => exact ⟨rfl, rfl⟩

/-! ### What stays asked -/

namespace Json

/-- The second schema asks all that the first asks: the keywords about the value itself stay as they are
    written, all keywords stay present, and the schemas for members and elements are the same or have
    constraints added. -/
structure Tightens (schema schema' : Json) : Prop where
  kept : ∀ keyword written, keyword ∉ ["properties", "additionalProperties", "items"] →
    schema.get? keyword = some written → schema'.get? keyword = some written
  present : ∀ keyword, schema.HasKeyword keyword → schema'.HasKeyword keyword
  denies : ∀ key, schema.Denies key → schema'.Denies key
  members : ∀ key inner, schema.MemberSchema key inner →
    ∃ inner', schema'.MemberSchema key inner' ∧ Tightened inner inner'
  elements : ∀ inner, schema.ItemSchema inner →
    ∃ inner', schema'.ItemSchema inner' ∧ Tightened inner inner'

section Schemas

variable {schema schema' inner inner' value : Json} {key name : String}

/-- The same `properties` and a rule for the other members that stays written list the same schema for a
    member. -/
theorem MemberSchema.of_kept (h : schema.MemberSchema key inner)
    (hproperties : schema'.get? "properties" = schema.get? "properties")
    (hextra : schema.get? "additionalProperties" = some inner →
      schema'.get? "additionalProperties" = some inner) : schema'.MemberSchema key inner := by
  have hlisted := Node.propertySchema?_congr hproperties key
  cases h with
  | listed entry => exact .listed (hlisted.trans entry)
  | extra unlisted rule mapping => exact .extra (hlisted.trans unlisted) (hextra rule) mapping

/-- An added constraint leaves everything that was written. -/
theorem tightens_of_added {members members' : List (String × Json)} {keyword : String} {written : Json}
    (constraint : keyword ∈ constraints) (added : Entries.Added keyword written members members') :
    Tightens (.object members) (.object members') := by
  have hkept : ∀ other found, (Json.object members).get? other = some found →
      (Json.object members').get? other = some found := fun other found h => added.lookup_eq_some h
  have hproperties : (Json.object members').get? "properties" =
      (Json.object members).get? "properties" := by
    apply added.lookup_of_ne
    intro heq
    subst heq
    exact absurd constraint (by decide)
  constructor
  · intro other found _ h
    exact hkept other found h
  · intro other h
    obtain ⟨found, hfound⟩ := h
    exact ⟨found, hkept other found hfound⟩
  · intro key h
    exact ⟨(Node.propertySchema?_congr hproperties key).trans h.1, hkept _ _ h.2⟩
  · intro key inner h
    exact ⟨inner, h.of_kept hproperties (hkept _ _), .refl⟩
  · intro inner h
    exact ⟨inner, ⟨hkept _ _ h.1, h.2⟩, .refl⟩

/-- Another value under one keyword leaves those about the value itself, and the presence of all. -/
theorem SameExcept.kept_and_present {keyword : String} (h : SameExcept keyword schema schema')
    (position : keyword ∈ ["properties", "additionalProperties", "items"]) :
    (∀ other written, other ∉ ["properties", "additionalProperties", "items"] →
      schema.get? other = some written → schema'.get? other = some written) ∧
    ∀ other, schema.HasKeyword other → schema'.HasKeyword other := by
  constructor
  · intro other written hother hwritten
    have hne : other ≠ keyword := by
      intro heq
      subst heq
      exact hother position
    rw [h.kept other hne]
    exact hwritten
  · intro other hother
    obtain ⟨written, hwritten⟩ := hother
    apply Option.isSome_iff_exists.1
    rw [h.present other, hwritten]
    rfl

/-- A tightened schema under `additionalProperties` applies to the members that are not listed. -/
theorem tightens_of_additionalProperties (h : SameExcept "additionalProperties" schema schema')
    (written : schema.get? "additionalProperties" = some inner)
    (written' : schema'.get? "additionalProperties" = some inner') (step : TightenStep inner inner') :
    Tightens schema schema' := by
  obtain ⟨hkept, hpresent⟩ := h.kept_and_present (by decide)
  have hproperties : schema'.get? "properties" = schema.get? "properties" := h.kept _ (by decide)
  constructor
  · exact hkept
  · exact hpresent
  · intro key hdenies
    have hinner : inner = .bool false := Option.some.inj (written.symm.trans hdenies.2)
    have hmapping := step.isObject.1
    rw [hinner] at hmapping
    cases hmapping
  · intro key found hfound
    have hlisted := Node.propertySchema?_congr hproperties key
    cases hfound with
    | listed entry => exact ⟨found, .listed (hlisted.trans entry), .refl⟩
    | extra unlisted rule mapping =>
      obtain rfl : inner = found := Option.some.inj (written.symm.trans rule)
      exact ⟨inner', .extra (hlisted.trans unlisted) written' step.isObject.2, .single step⟩
  · intro found hfound
    exact ⟨found, ⟨(h.kept _ (by decide)).trans hfound.1, hfound.2⟩, .refl⟩

/-- A tightened schema under `items` applies to the elements. -/
theorem tightens_of_items (h : SameExcept "items" schema schema')
    (written : schema.get? "items" = some inner) (written' : schema'.get? "items" = some inner')
    (step : TightenStep inner inner') : Tightens schema schema' := by
  obtain ⟨hkept, hpresent⟩ := h.kept_and_present (by decide)
  have hproperties : schema'.get? "properties" = schema.get? "properties" := h.kept _ (by decide)
  have hextra : schema'.get? "additionalProperties" = schema.get? "additionalProperties" :=
    h.kept _ (by decide)
  constructor
  · exact hkept
  · exact hpresent
  · intro key hdenies
    exact ⟨(Node.propertySchema?_congr hproperties key).trans hdenies.1, hextra.trans hdenies.2⟩
  · intro key found hfound
    exact ⟨found, hfound.of_kept hproperties hextra.trans, .refl⟩
  · intro found hfound
    obtain rfl : inner = found := Option.some.inj (written.symm.trans hfound.1)
    exact ⟨inner', ⟨written', step.isObject.2⟩, .single step⟩

/-- A tightened entry of `properties` applies to the members with its key. -/
theorem tightens_of_properties {entries : List (String × Json)}
    (h : SameExcept "properties" schema schema')
    (written : schema.get? "properties" = some (.object entries))
    (written' : schema'.get? "properties" = some (.object (Entries.set key inner' entries)))
    (listed : entries.lookup key = some inner) (step : TightenStep inner inner') :
    Tightens schema schema' := by
  obtain ⟨hkept, hpresent⟩ := h.kept_and_present (by decide)
  have hextra : schema'.get? "additionalProperties" = schema.get? "additionalProperties" :=
    h.kept _ (by decide)
  have hentry : schema.propertySchema? key = some inner := by
    rw [propertySchema?, written]
    exact listed
  have hentry' : schema'.propertySchema? key = some inner' := by
    rw [propertySchema?, written']
    exact Entries.lookup_set_self key inner' entries
  have hothers : ∀ other, other ≠ key → schema'.propertySchema? other = schema.propertySchema? other := by
    intro other hne
    rw [propertySchema?, written', propertySchema?, written]
    exact Entries.lookup_set_of_ne inner' entries hne
  have hunlisted : ∀ other, schema.propertySchema? other = none → other ≠ key := by
    intro other hnone heq
    rw [heq, hentry] at hnone
    cases hnone
  constructor
  · exact hkept
  · exact hpresent
  · intro other hdenies
    exact ⟨(hothers other (hunlisted other hdenies.1)).trans hdenies.1, hextra.trans hdenies.2⟩
  · intro other found hfound
    by_cases hkey : other = key
    · subst hkey
      obtain rfl := hfound.unique (.listed hentry)
      exact ⟨inner', .listed hentry', .single step⟩
    · refine ⟨found, ?_, .refl⟩
      cases hfound with
      | listed entry => exact .listed ((hothers other hkey).trans entry)
      | extra unlisted rule mapping =>
        exact .extra ((hothers other hkey).trans unlisted) (hextra.trans rule) mapping
  · intro found hfound
    exact ⟨found, ⟨(h.kept _ (by decide)).trans hfound.1, hfound.2⟩, .refl⟩

end Schemas

end Json

section Step

variable {schema schema' : Json}

/-- A schema asks all that it asked before a constraint was added. -/
theorem TightenStep.tightens (h : TightenStep schema schema') : Tightens schema schema' := by
  cases h with
  | here constraint added => exact tightens_of_added constraint added
  | @keyword members keyword inner inner' position written step =>
    have hset : (Json.object (Entries.set keyword inner' members)).get? keyword = some inner' :=
      Entries.lookup_set_self keyword inner' members
    rcases position with rfl | rfl
    · exact tightens_of_additionalProperties (sameExcept_set written) written hset step
    · exact tightens_of_items (sameExcept_set written) written hset step
  | property written listed step =>
    exact tightens_of_properties (sameExcept_set written) written
      (Entries.lookup_set_self _ _ _) listed step

/-- A step does not touch the reference of a schema. -/
theorem TightenStep.get?_reference (h : TightenStep schema schema') :
    schema'.get? "$ref" = schema.get? "$ref" := by
  cases h with
  | here constraint added =>
    apply added.lookup_of_ne
    intro heq
    subst heq
    exact absurd constraint (by decide)
  | @keyword members keyword inner inner' position written step =>
    apply Entries.lookup_set_of_ne
    intro heq
    subst heq
    exact absurd position (by decide)
  | property written listed step => exact Entries.lookup_set_of_ne _ _ (by decide)

/-- Where a schema with a constraint added leads to a schema that counts, the schema before leads to the
    same, or both count themselves. -/
theorem TightenStep.effectiveSchema_eq (h : TightenStep schema schema') {root target : Json}
    (hresolves : effectiveSchema root schema' = .ok target) :
    effectiveSchema root schema = .ok target ∨
      effectiveSchema root schema = .ok schema ∧ target = schema' := by
  cases hget : schema.get? "$ref" with
  | none =>
    have hself : effectiveSchema root schema' = .ok schema' :=
      effectiveSchema_of_get?_eq_none (h.get?_reference.trans hget)
    rw [hresolves] at hself
    exact .inr ⟨effectiveSchema_of_get?_eq_none hget, Except.ok.inj hself⟩
  | some written =>
    have hrefers : (schema.get? "$ref").isSome = true := by
      rw [hget]
      rfl
    have hsame : (effectiveSchema root schema).mapError ReferenceError.variant =
        (effectiveSchema root schema').mapError ReferenceError.variant :=
      effectiveSchema_congr_reference h.get?_reference hrefers
    rw [hresolves] at hsame
    cases hbefore : effectiveSchema root schema with
    | error e =>
      rw [hbefore] at hsame
      cases hsame
    | ok target' =>
      rw [hbefore] at hsame
      exact .inl (congrArg Except.ok (Except.ok.inj hsame))

end Step

end Conform
