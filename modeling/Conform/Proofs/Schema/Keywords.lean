/-
Module: Conform.Proofs.Schema.Keywords
Purpose: What the keywords of a schema say, as predicates on the schema as it is written, and the proof
  that the typed fields of a node say the same. A keyword with a value of the wrong form says nothing,
  except that object and array keywords give the schema a shape with any value.
Main exports: Json.NameAdmits, Json.TypeAllows, Json.ObjectShaped, Json.ArrayShaped, Json.Requires,
  Json.MemberSchema, Json.ItemSchema, Json.Denies, Node.typeViolation?_ofJson_eq_none_iff,
  Node.wantsObject_ofJson_iff, Node.memberRule_ofJson_eq_schema_iff
-/
import Conform.Check

namespace Conform

namespace Json

/-! ### Types -/

/-- An entry of a `type` declaration admits a value. Whole numbers are integers however they are stored,
    `number` admits all numbers, and an entry that is no type name admits nothing. -/
inductive NameAdmits : Json → Json → Prop where
  | null : NameAdmits (.string "null") .null
  | boolean (b : Bool) : NameAdmits (.string "boolean") (.bool b)
  | integer {n : Number} (whole : n.isWhole = true) : NameAdmits (.string "integer") (.number n)
  | number (n : Number) : NameAdmits (.string "number") (.number n)
  | string (s : String) : NameAdmits (.string "string") (.string s)
  | array (items : List Json) : NameAdmits (.string "array") (.array items)
  | object (members : List (String × Json)) : NameAdmits (.string "object") (.object members)

/-- The entries of a `type` declaration. -/
def typeEntries : Json → List Json
  | .array entries => entries
  | entry => [entry]

/-- The `type` of the schema is absent or null, or one of its entries admits the value. -/
def TypeAllows (schema value : Json) : Prop :=
  ∀ declared, schema.get? "type" = some declared → declared ≠ .null →
    ∃ entry ∈ declared.typeEntries, NameAdmits entry value

/-- The `type` of the schema names a kind. -/
def NamesType (schema : Json) (name : String) : Prop :=
  ∃ declared, schema.get? "type" = some declared ∧ .string name ∈ declared.typeEntries

/-! ### Listed values -/

/-- The value is equal to `const`, if that is there; a null is as good as any other value. -/
def ConstAllows (schema value : Json) : Prop :=
  ∀ expected, schema.get? "const" = some expected → value.canonicalText = expected.canonicalText

/-- The value is equal to an entry of `enum`, if that is an array. -/
def EnumAllows (schema value : Json) : Prop :=
  ∀ allowed, schema.get? "enum" = some (.array allowed) →
    ∃ candidate ∈ allowed, value.canonicalText = candidate.canonicalText

/-! ### Shapes -/

/-- A keyword is there, with any value. -/
def HasKeyword (schema : Json) (keyword : String) : Prop := ∃ written, schema.get? keyword = some written

/-- The schema is about objects. -/
def ObjectShaped (schema : Json) : Prop :=
  schema.NamesType "object" ∨ schema.HasKeyword "properties" ∨ schema.HasKeyword "required" ∨
    schema.HasKeyword "additionalProperties"

/-- The schema is about arrays. -/
def ArrayShaped (schema : Json) : Prop :=
  schema.NamesType "array" ∨ schema.HasKeyword "items" ∨ schema.HasKeyword "uniqueItems"

/-! ### Objects -/

/-- A name is listed in the array `required`. -/
def Requires (schema : Json) (name : String) : Prop :=
  ∃ names, schema.get? "required" = some (.array names) ∧ .string name ∈ names

/-- The entry of the object `properties` for a member. -/
def propertySchema? (schema : Json) (key : String) : Option Json :=
  (schema.get? "properties").bind (·.get? key)

/-- The schema for a member: its entry in `properties`, else an object `additionalProperties`. -/
inductive MemberSchema (schema : Json) (key : String) : Json → Prop where
  | listed {inner : Json} (entry : schema.propertySchema? key = some inner) :
      MemberSchema schema key inner
  | extra {inner : Json} (unlisted : schema.propertySchema? key = none)
      (rule : schema.get? "additionalProperties" = some inner) (mapping : inner.isObject = true) :
      MemberSchema schema key inner

/-- A member is not allowed: it is not listed in `properties`, and `additionalProperties` is false. -/
def Denies (schema : Json) (key : String) : Prop :=
  schema.propertySchema? key = none ∧ schema.get? "additionalProperties" = some (.bool false)

/-! ### Arrays -/

/-- The schema for the elements: an object `items`. -/
def ItemSchema (schema inner : Json) : Prop :=
  schema.get? "items" = some inner ∧ inner.isObject = true

/-- Elements have to differ: `uniqueItems` is true. -/
def WantsDistinct (schema : Json) : Prop := schema.get? "uniqueItems" = some (.bool true)

end Json

/-! ### Type declarations -/

/-- A name that spells a kind is the name of the kind. -/
theorem Kind.ofName?_eq_some_iff {name : String} {kind : Kind} :
    Kind.ofName? name = some kind ↔ name = kind.name := by
  constructor
  · intro h
    rw [Kind.ofName?] at h
    have hname := List.find?_some h
    exact (eq_of_beq hname).symm
  · rintro rfl
    exact Kind.ofName?_name kind

namespace TypeDeclaration

/-- The alternatives of a declaration are the kinds that its entries name. -/
theorem kinds_eq (declared : TypeDeclaration) :
    declared.kinds = declared.written.typeEntries.filterMap entryKind? := by
  rcases declared with ⟨written⟩
  cases written <;> simp only [kinds, Json.typeEntries, List.filterMap_cons, List.filterMap_nil] <;>
    cases entryKind? _ <;> rfl

/-- An entry names a kind if it is the string with the name of the kind. -/
theorem entryKind?_eq_some_iff {entry : Json} {kind : Kind} :
    entryKind? entry = some kind ↔ entry = .string kind.name := by
  cases entry with
  | string s => simp [entryKind?, Json.asString?, Kind.ofName?_eq_some_iff]
  | _ => simp [entryKind?, Json.asString?]

/-- A name admits what its kind admits. -/
theorem nameAdmits_name_iff {kind : Kind} {v : Json} :
    Json.NameAdmits (.string kind.name) v ↔ kind.admits v = true := by
  constructor
  · intro h
    generalize hname : Json.string kind.name = entry at h
    cases h <;> cases kind <;> simp [Kind.name] at hname <;> simp [Kind.admits, Json.kind, *]
  · intro h
    cases v with
    | null => cases kind <;> simp [Kind.admits, Json.kind] at h; exact .null
    | bool b => cases kind <;> simp [Kind.admits, Json.kind] at h; exact .boolean b
    | number n =>
      cases hn : n.isWhole <;> cases kind <;> simp [Kind.admits, Json.kind, hn] at h
      · exact .number n
      · exact .integer hn
      · exact .number n
    | string s => cases kind <;> simp [Kind.admits, Json.kind] at h; exact .string s
    | array items => cases kind <;> simp [Kind.admits, Json.kind] at h; exact .array items
    | object members => cases kind <;> simp [Kind.admits, Json.kind] at h; exact .object members

/-- Only a type name admits anything. -/
theorem exists_kind_of_nameAdmits {entry v : Json} (h : Json.NameAdmits entry v) :
    ∃ kind : Kind, entry = .string kind.name := by
  cases h with
  | null => exact ⟨.null, rfl⟩
  | boolean b => exact ⟨.boolean, rfl⟩
  | integer whole => exact ⟨.integer, rfl⟩
  | number n => exact ⟨.number, rfl⟩
  | string s => exact ⟨.string, rfl⟩
  | array items => exact ⟨.array, rfl⟩
  | object members => exact ⟨.object, rfl⟩

/-- A declaration admits a value if one of its entries does. -/
theorem admits_iff (written value : Json) :
    (TypeDeclaration.mk written).admits value = true ↔
      ∃ entry ∈ written.typeEntries, Json.NameAdmits entry value := by
  rw [admits, kinds_eq, List.any_eq_true]
  constructor
  · rintro ⟨kind, hkind, hadmits⟩
    obtain ⟨entry, hentry, hname⟩ := List.mem_filterMap.1 hkind
    refine ⟨entry, hentry, ?_⟩
    rw [entryKind?_eq_some_iff.1 hname]
    exact nameAdmits_name_iff.2 hadmits
  · rintro ⟨entry, hentry, hadmits⟩
    obtain ⟨kind, rfl⟩ := exists_kind_of_nameAdmits hadmits
    exact ⟨kind, List.mem_filterMap.2 ⟨_, hentry, entryKind?_eq_some_iff.2 rfl⟩,
      nameAdmits_name_iff.1 hadmits⟩

/-- A declaration names a kind if one of its entries is the name. -/
theorem names_iff (written : Json) (kind : Kind) :
    (TypeDeclaration.mk written).names kind = true ↔ .string kind.name ∈ written.typeEntries := by
  rw [names, kinds_eq, List.contains_iff_mem, List.mem_filterMap]
  constructor
  · rintro ⟨entry, hentry, hname⟩
    rwa [← entryKind?_eq_some_iff.1 hname]
  · intro h
    exact ⟨_, h, entryKind?_eq_some_iff.2 rfl⟩

end TypeDeclaration

/-! ### Nodes -/

namespace Node

open Json

variable {schema value : Json}

/-- The keyword `type` as the schema has it, unless it is null. -/
theorem typesOf?_eq_some_iff {declared : TypeDeclaration} :
    typesOf? schema = some declared ↔
      schema.get? "type" = some declared.written ∧ declared.written ≠ .null := by
  rcases declared with ⟨written⟩
  rw [typesOf?]
  split
  · simp [*]
  · rename_i h
    rw [h]
    constructor
    · intro hnone
      cases hnone
    · rintro ⟨heq, hne⟩
      exact absurd (Option.some.inj heq).symm hne
  · rename_i found hne h
    rw [h]
    constructor
    · intro heq
      cases heq
      exact ⟨rfl, fun hnull => hne (hnull ▸ rfl)⟩
    · rintro ⟨heq, -⟩
      rw [Option.some.inj heq]

/-- The type check finds nothing if `type` allows the value. -/
theorem typeViolation?_ofJson_eq_none_iff :
    (Node.ofJson schema).typeViolation? value = none ↔ schema.TypeAllows value := by
  have htypes : (Node.ofJson schema).types = typesOf? schema := rfl
  rw [typeViolation?, htypes]
  cases h : typesOf? schema with
  | none =>
    refine ⟨fun _ declared hd hne => ?_, fun _ => rfl⟩
    have hsome : typesOf? schema = some ⟨declared⟩ := typesOf?_eq_some_iff.2 ⟨hd, hne⟩
    rw [h] at hsome
    cases hsome
  | some spec =>
    obtain ⟨hd, hne⟩ := typesOf?_eq_some_iff.1 h
    have hadmits : spec.admits value = true ↔
        ∃ entry ∈ spec.written.typeEntries, NameAdmits entry value :=
      TypeDeclaration.admits_iff spec.written value
    by_cases hok : spec.admits value = true
    · refine ⟨fun _ declared hd' _ => ?_, fun _ => if_pos hok⟩
      rw [hd] at hd'
      rw [← Option.some.inj hd']
      exact hadmits.1 hok
    · refine ⟨fun hnone => ?_, fun hall => absurd (hadmits.2 (hall _ hd hne)) hok⟩
      simp [hok] at hnone

/-- A value that `type` does not allow is reported with the declaration, none of whose
    entries admits it. -/
theorem typeViolation?_ofJson_of_not_allows (h : ¬ schema.TypeAllows value) :
    ∃ declared, schema.get? "type" = some declared ∧ declared ≠ .null ∧
      (∀ entry ∈ declared.typeEntries, ¬ NameAdmits entry value) ∧
      (Node.ofJson schema).typeViolation? value = some (.typeMismatch ⟨declared⟩ value.kind) := by
  obtain ⟨declared, hwritten, hnamed, hrejected⟩ : ∃ declared, schema.get? "type" = some declared ∧
      declared ≠ .null ∧ ∀ entry ∈ declared.typeEntries, ¬ NameAdmits entry value := by
    simpa [TypeAllows] using h
  have htypes : (Node.ofJson schema).types = some ⟨declared⟩ := typesOf?_eq_some_iff.2 ⟨hwritten, hnamed⟩
  have hadmits : (TypeDeclaration.mk declared).admits value = false := by
    rw [← Bool.not_eq_true, TypeDeclaration.admits_iff]
    rintro ⟨entry, hentry, hname⟩
    exact hrejected entry hentry hname
  exact ⟨declared, hwritten, hnamed, hrejected, by simp [typeViolation?, htypes, hadmits]⟩

/-- A declaration names a kind if `type` does. -/
theorem declares_iff {kind : Kind} : declares schema kind = true ↔ schema.NamesType kind.name := by
  rw [declares, Option.any_eq_true]
  constructor
  · rintro ⟨spec, hspec, hnames⟩
    exact ⟨spec.written, (typesOf?_eq_some_iff.1 hspec).1,
      (TypeDeclaration.names_iff spec.written kind).1 hnames⟩
  · rintro ⟨written, hwritten, hmem⟩
    refine ⟨⟨written⟩, typesOf?_eq_some_iff.2 ⟨hwritten, ?_⟩,
      (TypeDeclaration.names_iff written kind).2 hmem⟩
    rintro rfl
    simp [typeEntries] at hmem

/-- The node wants an object if the schema is about objects. -/
theorem wantsObject_ofJson_iff : (Node.ofJson schema).wantsObject = true ↔ schema.ObjectShaped := by
  have hdeclares : declares schema .object = true ↔ schema.NamesType "object" := declares_iff
  simp [Node.ofJson, hasAny, ObjectShaped, HasKeyword, hdeclares, Option.isSome_iff_exists]

/-- The node wants an array if the schema is about arrays. -/
theorem wantsArray_ofJson_iff : (Node.ofJson schema).wantsArray = true ↔ schema.ArrayShaped := by
  have hdeclares : declares schema .array = true ↔ schema.NamesType "array" := declares_iff
  simp [Node.ofJson, hasAny, ArrayShaped, HasKeyword, hdeclares, Option.isSome_iff_exists]

/-- The entries of a keyword that is an array. -/
theorem bind_asArray?_eq_some_iff {keyword : String} {items : List Json} :
    (schema.get? keyword).bind asArray? = some items ↔ schema.get? keyword = some (.array items) := by
  rw [Option.bind_eq_some_iff]
  constructor
  · rintro ⟨written, hwritten, hitems⟩
    cases written <;> simp [asArray?] at hitems
    rw [hwritten, hitems]
  · intro h
    exact ⟨_, h, rfl⟩

/-- The comparison with `const` finds nothing if `const` allows the value. -/
theorem constViolations_ofJson_eq_nil_iff :
    (Node.ofJson schema).constViolations value = [] ↔ schema.ConstAllows value := by
  have hconst : (Node.ofJson schema).const = schema.get? "const" := rfl
  rw [constViolations, hconst, ConstAllows]
  cases schema.get? "const" with
  | none => simp
  | some expected => simp [equivalent]

/-- A value that `const` does not allow is reported with it. -/
theorem constViolations_ofJson_of_not_allows (h : ¬ schema.ConstAllows value) :
    ∃ expected, schema.get? "const" = some expected ∧ value.canonicalText ≠ expected.canonicalText ∧
      (Node.ofJson schema).constViolations value = [.constMismatch expected value] := by
  obtain ⟨expected, hwritten, hdiffers⟩ : ∃ expected, schema.get? "const" = some expected ∧
      value.canonicalText ≠ expected.canonicalText := by
    simpa [ConstAllows] using h
  have hconst : (Node.ofJson schema).const = some expected := hwritten
  have hsame : value.equivalent expected = false := by simpa [equivalent] using hdiffers
  exact ⟨expected, hwritten, hdiffers, by simp [constViolations, hconst, hsame]⟩

/-- The comparison with `enum` finds nothing if `enum` allows the value. -/
theorem enumViolations_ofJson_eq_nil_iff :
    (Node.ofJson schema).enumViolations value = [] ↔ schema.EnumAllows value := by
  have henum : (Node.ofJson schema).enum = (schema.get? "enum").bind asArray? := rfl
  rw [enumViolations, henum, EnumAllows]
  cases h : (schema.get? "enum").bind asArray? with
  | none =>
    refine ⟨fun _ allowed hallowed => ?_, fun _ => rfl⟩
    rw [bind_asArray?_eq_some_iff.2 hallowed] at h
    cases h
  | some found =>
    have hfound := bind_asArray?_eq_some_iff.1 h
    simp [hfound, equivalent]

/-- A value that `enum` does not allow is reported with its entries. -/
theorem enumViolations_ofJson_of_not_allows (h : ¬ schema.EnumAllows value) :
    ∃ allowed, schema.get? "enum" = some (.array allowed) ∧
      (∀ candidate ∈ allowed, value.canonicalText ≠ candidate.canonicalText) ∧
      (Node.ofJson schema).enumViolations value = [.enumMismatch allowed value] := by
  obtain ⟨allowed, hwritten, hunlisted⟩ : ∃ allowed, schema.get? "enum" = some (.array allowed) ∧
      ∀ candidate ∈ allowed, value.canonicalText ≠ candidate.canonicalText := by
    simpa [EnumAllows] using h
  have henum : (Node.ofJson schema).enum = some allowed := bind_asArray?_eq_some_iff.2 hwritten
  have hany : allowed.any value.equivalent = false := by simpa [equivalent] using hunlisted
  exact ⟨allowed, hwritten, hunlisted, by simp [enumViolations, henum, hany]⟩

/-- The comparisons find nothing at a place if `const` and `enum` allow the value. -/
theorem valueFindings_ofJson_eq_nil_iff {place : Location} :
    (Node.ofJson schema).valueFindings place value = [] ↔
      schema.ConstAllows value ∧ schema.EnumAllows value := by
  rw [valueFindings, List.map_eq_nil_iff, List.append_eq_nil_iff, constViolations_ofJson_eq_nil_iff,
    enumViolations_ofJson_eq_nil_iff]

/-- The node requires what the schema requires. -/
theorem mem_required_ofJson_iff {name : String} :
    name ∈ (Node.ofJson schema).required ↔ schema.Requires name := by
  have hrequired : (Node.ofJson schema).required =
      (((schema.get? "required").bind asArray?).getD []).filterMap asString? := rfl
  rw [hrequired, List.mem_filterMap, Requires]
  constructor
  · rintro ⟨entry, hentry, hname⟩
    cases h : (schema.get? "required").bind asArray? with
    | none => simp [h] at hentry
    | some names =>
      rw [h, Option.getD_some] at hentry
      refine ⟨names, bind_asArray?_eq_some_iff.1 h, ?_⟩
      cases entry <;> simp [asString?] at hname
      rwa [← hname]
  · rintro ⟨names, hnames, hmem⟩
    refine ⟨.string name, ?_, rfl⟩
    rw [bind_asArray?_eq_some_iff.2 hnames]
    exact hmem

/-- The node lists for a member what `properties` has under its key. -/
theorem memberSchema?_ofJson (key : String) :
    (Node.ofJson schema).memberSchema? key = schema.propertySchema? key := by
  have hproperties : (Node.ofJson schema).properties = (schema.get? "properties").bind asObject? := rfl
  rw [memberSchema?, hproperties, propertySchema?]
  cases schema.get? "properties" with
  | none => rfl
  | some written => cases written <;> rfl

/-- The rule for extra members is a schema if `additionalProperties` is an object. -/
theorem extraOf_eq_schema_iff {inner : Json} :
    extraOf schema = .schema inner ↔
      schema.get? "additionalProperties" = some inner ∧ inner.isObject = true := by
  rw [extraOf]
  constructor
  · intro h
    split at h
    · cases h
    · rename_i members hget
      cases h
      exact ⟨hget, rfl⟩
    · cases h
  · rintro ⟨hget, hmapping⟩
    cases inner with
    | object members => rw [hget]
    | _ => cases hmapping

/-- Extra members are denied if `additionalProperties` is false. -/
theorem extraOf_eq_deny_iff :
    extraOf schema = .deny ↔ schema.get? "additionalProperties" = some (.bool false) := by
  rw [extraOf]
  cases schema.get? "additionalProperties" with
  | none => simp
  | some written =>
    cases written with
    | bool b => cases b <;> simp
    | _ => simp

/-- The rule for a member is the schema that the keywords have for it. -/
theorem memberRule_ofJson_eq_schema_iff {key : String} {inner : Json} :
    (Node.ofJson schema).memberRule key = .schema inner ↔ schema.MemberSchema key inner := by
  have hextra : (Node.ofJson schema).extra = extraOf schema := rfl
  rw [memberRule, memberSchema?_ofJson, hextra]
  cases h : schema.propertySchema? key with
  | none =>
    rw [extraOf_eq_schema_iff]
    constructor
    · rintro ⟨hrule, hmapping⟩
      exact .extra h hrule hmapping
    · intro hmember
      cases hmember with
      | listed entry =>
        rw [h] at entry
        cases entry
      | extra _ rule mapping => exact ⟨rule, mapping⟩
  | some found =>
    constructor
    · intro heq
      cases heq
      exact .listed h
    · intro hmember
      cases hmember with
      | listed entry =>
        rw [h] at entry
        cases entry
        rfl
      | extra unlisted _ _ =>
        rw [h] at unlisted
        cases unlisted

/-- The rule for a member is to deny it if the keywords do. -/
theorem memberRule_ofJson_eq_deny_iff {key : String} :
    (Node.ofJson schema).memberRule key = .deny ↔ schema.Denies key := by
  have hextra : (Node.ofJson schema).extra = extraOf schema := rfl
  rw [memberRule, memberSchema?_ofJson, hextra, Denies]
  cases h : schema.propertySchema? key with
  | none => simp [extraOf_eq_deny_iff]
  | some found => simp

/-- The node has the schema for elements that the keywords have. -/
theorem items_ofJson_eq_some_iff {inner : Json} :
    (Node.ofJson schema).items = some inner ↔ schema.ItemSchema inner := by
  have hitems : (Node.ofJson schema).items = (schema.get? "items").filter isObject := rfl
  rw [hitems, Option.filter_eq_some_iff, ItemSchema]

/-- The node wants distinct elements if `uniqueItems` is true. -/
theorem distinct_ofJson_iff : (Node.ofJson schema).distinct = true ↔ schema.WantsDistinct := by
  simp only [Node.ofJson, WantsDistinct]
  cases schema.get? "uniqueItems" with
  | none => simp
  | some written => cases written <;> simp

end Node

/-! ### Schemas for parts -/

namespace Json

variable {schema inner : Json} {key : String}

/-- A schema for members makes a schema one about objects. -/
theorem MemberSchema.objectShaped (h : schema.MemberSchema key inner) : schema.ObjectShaped := by
  cases h with
  | listed entry =>
    obtain ⟨written, hwritten, -⟩ := Option.bind_eq_some_iff.1 entry
    exact Or.inr (Or.inl ⟨written, hwritten⟩)
  | extra _ rule _ => exact Or.inr (Or.inr (Or.inr ⟨inner, rule⟩))

/-- To deny a member makes a schema one about objects. -/
theorem Denies.objectShaped (h : schema.Denies key) : schema.ObjectShaped :=
  Or.inr (Or.inr (Or.inr ⟨_, h.2⟩))

/-- A schema for elements makes a schema one about arrays. -/
theorem ItemSchema.arrayShaped (h : schema.ItemSchema inner) : schema.ArrayShaped :=
  Or.inr (Or.inl ⟨inner, h.1⟩)

/-- To ask for distinct elements makes a schema one about arrays. -/
theorem WantsDistinct.arrayShaped (h : schema.WantsDistinct) : schema.ArrayShaped :=
  Or.inr (Or.inr ⟨_, h⟩)

/-- Required names make a schema one about objects. -/
theorem Requires.objectShaped {name : String} (h : schema.Requires name) : schema.ObjectShaped := by
  obtain ⟨names, hnames, -⟩ := h
  exact Or.inr (Or.inr (Or.inl ⟨_, hnames⟩))

theorem objectShaped_of_mem_requiredOf {name : String} (h : name ∈ Node.requiredOf schema) :
    schema.ObjectShaped :=
  (Node.mem_required_ofJson_iff.1 h).objectShaped

/-- There is one schema for a member at most. -/
theorem MemberSchema.unique {inner' : Json} (h : schema.MemberSchema key inner)
    (h' : schema.MemberSchema key inner') : inner = inner' := by
  have hrule := Node.memberRule_ofJson_eq_schema_iff.2 h
  rw [Node.memberRule_ofJson_eq_schema_iff.2 h'] at hrule
  exact (ExtraMembers.schema.inj hrule).symm

/-- A member that has a schema is not denied. -/
theorem MemberSchema.not_denies (h : schema.MemberSchema key inner) : ¬ schema.Denies key := by
  intro hdenies
  have hrule := Node.memberRule_ofJson_eq_schema_iff.2 h
  rw [Node.memberRule_ofJson_eq_deny_iff.2 hdenies] at hrule
  cases hrule

/-- There is one schema for elements at most. -/
theorem ItemSchema.unique {inner' : Json} (h : schema.ItemSchema inner) (h' : schema.ItemSchema inner') :
    inner = inner' :=
  Option.some.inj (h.1.symm.trans h'.1)

end Json

end Conform
