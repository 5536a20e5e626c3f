/-
Module: Conform.Schema.Node
Purpose: The keywords of one schema as typed fields. Keywords with a value of the wrong form are as good
  as absent, except that object and array keywords still give the node a shape.
Main exports: ExtraMembers, Node, Node.ofJson, Node.memberSchema?
-/
import Conform.Schema.TypeDeclaration

namespace Conform

/-- What `additionalProperties` says about members without an entry in `properties`. -/
inductive ExtraMembers where
  | allow
  | deny
  | schema (schema : Json)
deriving Inhabited

/-- The recognized keywords of one schema. -/
structure Node where
  /-- The value of `$ref`, whatever it is. -/
  reference : Option Json := none
  types : Option TypeDeclaration := none
  const : Option Json := none
  enum : Option (List Json) := none
  properties : Option (List (String × Json)) := none
  required : List String := []
  extra : ExtraMembers := .allow
  items : Option Json := none
  /-- Elements of an array have to differ from each other. -/
  distinct : Bool := false
  /-- Only objects conform, and the object keywords are checked. -/
  wantsObject : Bool := false
  /-- Only arrays conform, and the array keywords are checked. -/
  wantsArray : Bool := false
deriving Inhabited

namespace Node

/-- The declaration under `type`; a null is as good as none. -/
def typesOf? (schema : Json) : Option TypeDeclaration :=
  match schema.get? "type" with
  | none => none
  | some .null => none
  | some written => some ⟨written⟩

/-- The policy under `additionalProperties`. Only `false` and an object restrict extra members. -/
def extraOf (schema : Json) : ExtraMembers :=
  match schema.get? "additionalProperties" with
  | some (.bool false) => .deny
  | some (.object members) => .schema (.object members)
  | _ => .allow

/-- The names listed under `required`; entries that are no strings are skipped. -/
def requiredOf (schema : Json) : List String :=
  (((schema.get? "required").bind Json.asArray?).getD []).filterMap Json.asString?

/-- One of the keywords is present, with any value. -/
def hasAny (schema : Json) (keywords : List String) : Bool :=
  keywords.any fun keyword => (schema.get? keyword).isSome

/-- The `type` declaration names the kind. -/
def declares (schema : Json) (kind : Kind) : Bool := (typesOf? schema).any (·.names kind)

/-- Read the keywords of a schema. A schema that is no object has none. -/
def ofJson (schema : Json) : Node where
  reference := schema.get? "$ref"
  types := typesOf? schema
  const := schema.get? "const"
  enum := (schema.get? "enum").bind Json.asArray?
  properties := (schema.get? "properties").bind Json.asObject?
  required := requiredOf schema
  extra := extraOf schema
  items := (schema.get? "items").filter Json.isObject
  distinct :=
    match schema.get? "uniqueItems" with
    | some (.bool b) => b
    | _ => false
  wantsObject :=
    declares schema .object || hasAny schema ["properties", "required", "additionalProperties"]
  wantsArray := declares schema .array || hasAny schema ["items", "uniqueItems"]

/-- A value that is no object constrains nothing. -/
theorem ofJson_of_not_isObject {schema : Json} (h : schema.isObject = false) :
    ofJson schema = {} := by
  cases schema with
  | object members => cases h
  | _ => rfl

/-- The schema listed for a member under `properties`. -/
def memberSchema? (node : Node) (key : String) : Option Json :=
  node.properties.bind (List.lookup key)

end Node

end Conform
