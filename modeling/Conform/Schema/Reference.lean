/-
Module: Conform.Schema.Reference
Purpose: References inside one schema document. A reference names a path of keys from the root; a chain
  follows references until a schema without one.
Main exports: ReferenceError, ReferenceError.message, keysOf?, dereference, effectiveSchema
-/
import Conform.Json.Printer

namespace Conform

/-- Why a reference leads nowhere. -/
inductive ReferenceError where
  /-- The reference is no path inside the document. -/
  | notLocal (reference : String)
  /-- One of the keys is not there in the value reached so far. -/
  | missingKey (reference key : String)
  /-- The path ends at a value that is no object. -/
  | notAnObject (reference : String)
  /-- The last reference of the chain was followed before. -/
  | cycle (chain : List String)
deriving DecidableEq, Repr

/-- The wording of a reference error. -/
def ReferenceError.message : ReferenceError → String
  | .notLocal reference => "unsupported $ref target: " ++ reference
  | .missingKey reference key =>
    "$ref path '" ++ reference ++ "' segment '" ++ key ++ "' missing from schema"
  | .notAnObject reference => "$ref '" ++ reference ++ "' does not resolve to an object"
  | .cycle chain => "cyclic $ref chain: " ++ " -> ".intercalate chain

/-! ### One reference -/

/-- The keys that a local reference names: what stands between the slashes behind `#/`, literally. -/
def keysOf? (reference : String) : Option (List String) :=
  match reference.toList with
  | '#' :: '/' :: path => some ((path.splitOn '/').map String.ofList)
  | _ => none

/-- Look up the keys one after the other; on failure, the first key that is not there. -/
def descend (value : Json) : List String → Except String Json
  | [] => .ok value
  | key :: rest =>
    match value.get? key with
    | some inner => descend inner rest
    | none => .error key

/-- The object a reference names in the document `root`. -/
def dereference (root : Json) (reference : String) : Except ReferenceError Json :=
  match keysOf? reference with
  | none => .error (.notLocal reference)
  | some keys =>
    match descend root keys with
    | .error key => .error (.missingKey reference key)
    | .ok target =>
      if target.isObject then .ok target else .error (.notAnObject reference)

/-! ### Chains of references -/

mutual

/-- The strings under the key `$ref`, at any depth. -/
def Json.references : Json → List String
  | .array items => referencesOfItems items
  | .object members => referencesOfMembers members
  | _ => []

def referencesOfItems : List Json → List String
  | [] => []
  | item :: rest => item.references ++ referencesOfItems rest

def referencesOfMembers : List (String × Json) → List String
  | [] => []
  | (key, value) :: rest =>
    (if key = "$ref" then value.asString?.toList else []) ++
      (value.references ++ referencesOfMembers rest)

end

/-- The references other than one. -/
def strike (reference : String) (pending : List String) : List String :=
  pending.filter (· != reference)

/-- Striking off a reference that is on the list makes the list shorter. -/
theorem length_strike_lt {reference : String} {pending : List String} (h : reference ∈ pending) :
    (strike reference pending).length < pending.length := by
  simpa [strike, List.length_filter_lt_length_iff_exists] using h

/-- Follow the references from a schema. Those on the list `pending` were not followed yet, those on
    `trail` were, in that order; every reference is struck off when it is followed, so one that is not
    pending closes a cycle. -/
def follow (root : Json) (pending trail : List String) (schema : Json) : Except ReferenceError Json :=
  match schema.get? "$ref" with
  | none => .ok schema
  | some (.string reference) =>
    if _ : reference ∈ pending then
      match dereference root reference with
      | .error e => .error e
      | .ok target => follow root (strike reference pending) (trail ++ [reference]) target
    else .error (.cycle (trail ++ [reference]))
  | some other => .error (.notLocal other.compact)
termination_by pending.length
decreasing_by exact length_strike_lt ‹_›

/-- The schema at the end of the chain of references that starts at `schema`, each resolved in `root`. -/
def effectiveSchema (root schema : Json) : Except ReferenceError Json :=
  if (schema.get? "$ref").isSome then
    follow root (schema.references ++ root.references) [] schema
  else .ok schema

end Conform
