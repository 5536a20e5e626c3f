/-
Module: Conform.Json.Kind
Purpose: The seven type names and which values each of them admits. A number without a fractional
  part is an integer however it is stored, and `number` admits integers.
Main exports: Kind, Kind.name, Kind.ofName?, Json.kind, Kind.admits
-/
import Conform.Json.Basic

namespace Conform

/-- The type names of schemas. Every value has exactly one of them as its kind. -/
inductive Kind where
  | null
  | boolean
  | integer
  | number
  | string
  | array
  | object
deriving DecidableEq, Repr

namespace Kind

/-- All kinds. -/
def all : List Kind := [.null, .boolean, .integer, .number, .string, .array, .object]

/-- The name used in schemas and messages. -/
def name : Kind → String
  | .null => "null"
  | .boolean => "boolean"
  | .integer => "integer"
  | .number => "number"
  | .string => "string"
  | .array => "array"
  | .object => "object"

/-- The kind with a name, if it is one of the seven. -/
def ofName? (name : String) : Option Kind := all.find? fun kind => kind.name == name

theorem mem_all (kind : Kind) : kind ∈ all := by
  cases kind <;> decide

/-- A name leads back to its kind. -/
theorem ofName?_name (kind : Kind) : ofName? kind.name = some kind := by
  cases kind <;> decide

end Kind

/-- The kind of a value. -/
def Json.kind : Json → Kind
  | .null => .null
  | .bool _ => .boolean
  | .number n => if n.isWhole then .integer else .number
  | .string _ => .string
  | .array _ => .array
  | .object _ => .object

namespace Kind

/-- The type name admits the value. -/
def admits (kind : Kind) (v : Json) : Bool :=
  kind == v.kind || (kind == .number && v.kind == .integer)

/-- A value's own kind admits it. -/
theorem admits_kind (v : Json) : v.kind.admits v = true := by
  simp [admits]

end Kind

end Conform
