/-
Module: Conform.Json.Canonical
Purpose: The normal form of a JSON value and the equality it decides. Two values are equal in
  structure when they differ only in the order of members and in how a whole number is stored.
Main exports: Json.normalize, Json.canonicalText, Json.equivalent
-/
import Conform.Json.Printer

namespace Conform
namespace Json

/-- Members in ascending order of their keys, by code point. -/
def sortMembers (members : List (String × Json)) : List (String × Json) :=
  members.mergeSort fun a b => decide (a.1 ≤ b.1)

mutual

/-- The normal form: members sorted at every depth, small integral numbers stored as whole numbers. -/
def normalize : Json → Json
  | .number n => .number n.reduced
  | .array items => .array (normalizeItems items)
  | .object members => .object (sortMembers (normalizeMembers members))
  | scalar => scalar

def normalizeItems : List Json → List Json
  | [] => []
  | item :: rest => item.normalize :: normalizeItems rest

def normalizeMembers : List (String × Json) → List (String × Json)
  | [] => []
  | (key, value) :: rest => (key, value.normalize) :: normalizeMembers rest

end

/-- The compact text of the normal form. -/
def canonicalText (v : Json) : String := v.normalize.compact

/-- Equality up to the order of members and the storage of numbers. -/
def equivalent (a b : Json) : Bool := a.canonicalText == b.canonicalText

end Json
end Conform
