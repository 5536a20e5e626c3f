/-
Module: Conform.Report.Violation
Purpose: The eight rules an instance can break, with what each report says about it.
Main exports: Rule, Violation, Violation.rule, Violation.message
-/
import Conform.Schema.TypeDeclaration

namespace Conform

/-- Which rule was broken. -/
inductive Rule where
  | typeMismatch
  | constMismatch
  | enumMismatch
  | missingRequired
  | additionalProperty
  | notAnObject
  | notAnArray
  | duplicateItem
deriving DecidableEq, Repr

namespace Rule

/-- All rules. -/
def all : List Rule :=
  [.typeMismatch, .constMismatch, .enumMismatch, .missingRequired, .additionalProperty, .notAnObject,
   .notAnArray, .duplicateItem]

/-- The name used in reports. -/
def name : Rule → String
  | .typeMismatch => "type-mismatch"
  | .constMismatch => "const-mismatch"
  | .enumMismatch => "enum-mismatch"
  | .missingRequired => "missing-required"
  | .additionalProperty => "additional-property"
  | .notAnObject => "not-an-object"
  | .notAnArray => "not-an-array"
  | .duplicateItem => "duplicate-item"

/-- The rule with a name, if there is one. -/
def ofName? (name : String) : Option Rule := all.find? fun rule => rule.name == name

/-- A name leads back to its rule. -/
theorem ofName?_name (rule : Rule) : ofName? rule.name = some rule := by
  cases rule <;> decide

end Rule

/-- A broken rule with the values its message shows. -/
inductive Violation where
  | typeMismatch (expected : TypeDeclaration) (found : Kind)
  | constMismatch (expected found : Json)
  | enumMismatch (allowed : List Json) (found : Json)
  | missingRequired
  | additionalProperty
  | notAnObject (found : Kind)
  | notAnArray (found : Kind)
  | duplicateItem
deriving Inhabited

namespace Violation

/-- The rule that was broken. -/
def rule : Violation → Rule
  | .typeMismatch _ _ => .typeMismatch
  | .constMismatch _ _ => .constMismatch
  | .enumMismatch _ _ => .enumMismatch
  | .missingRequired => .missingRequired
  | .additionalProperty => .additionalProperty
  | .notAnObject _ => .notAnObject
  | .notAnArray _ => .notAnArray
  | .duplicateItem => .duplicateItem

/-- The wording of a violation. Values are shown as compact JSON. -/
def message : Violation → String
  | .typeMismatch expected found => "expected type " ++ expected.text ++ ", got " ++ found.name
  | .constMismatch expected found => "expected const " ++ expected.compact ++ ", got " ++ found.compact
  | .enumMismatch allowed found =>
    "expected one of " ++ Json.compactList allowed ++ ", got " ++ found.compact
  | .missingRequired => "missing required property"
  | .additionalProperty => "additional properties not allowed"
  | .notAnObject found => "expected object, got " ++ found.name
  | .notAnArray found => "expected array, got " ++ found.name
  | .duplicateItem => "duplicate array entry violates uniqueItems"

end Violation

end Conform
