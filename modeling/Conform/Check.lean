/-
Module: Conform.Check
Purpose: Checking an instance against a schema. The walk goes through the instance in its own order and
  looks up, for each place, the schema that applies there; a reference that leads nowhere ends the walk
  with what was found so far.
Main exports: Outcome, visit, checkInto, check
-/
import Conform.Json.Fingerprint
import Conform.Report.Basic
import Conform.Schema.Node
import Conform.Schema.Reference

namespace Conform

/-! ### Outcomes -/

/-- What a walk found, and the reference error that cut it short, if any. -/
structure Outcome where
  findings : List Finding
  failure : Option ReferenceError
deriving Inhabited

namespace Outcome

/-- The walk ended normally with these findings. -/
def found (findings : List Finding) : Outcome := ⟨findings, none⟩

/-- The walk ended normally with one finding. -/
def one (location : Location) (violation : Violation) : Outcome := found [⟨location, violation⟩]

/-- The walk was cut short without a finding. -/
def failed (e : ReferenceError) : Outcome := ⟨[], some e⟩

/-- Two walks in a row; the second one is dropped if the first was cut short. -/
def andThen (first second : Outcome) : Outcome :=
  match first.failure with
  | some _ => first
  | none => ⟨first.findings ++ second.findings, second.failure⟩

theorem found_nil_andThen (o : Outcome) : (found []).andThen o = o := by
  simp [found, andThen]

theorem andThen_found_nil (o : Outcome) : o.andThen (found []) = o := by
  rcases o with ⟨findings, _ | e⟩ <;> simp [andThen, found]

theorem andThen_assoc (a b c : Outcome) : (a.andThen b).andThen c = a.andThen (b.andThen c) := by
  rcases a with ⟨as, _ | ae⟩ <;> rcases b with ⟨bs, _ | be⟩ <;> simp [andThen]

end Outcome

/-! ### Rules about one value -/

namespace Node

/-- The violation of a value that no declared type admits. -/
def typeViolation? (node : Node) (value : Json) : Option Violation :=
  match node.types with
  | some spec => if spec.admits value then none else some (.typeMismatch spec value.kind)
  | none => none

/-- The violation of a value other than `const`. -/
def constViolations (node : Node) (value : Json) : List Violation :=
  match node.const with
  | some expected =>
    if value.equivalent expected then [] else [.constMismatch expected value]
  | none => []

/-- The violation of a value that `enum` does not list. -/
def enumViolations (node : Node) (value : Json) : List Violation :=
  match node.enum with
  | some allowed =>
    if allowed.any value.equivalent then [] else [.enumMismatch allowed value]
  | none => []

/-- The violations of `const` and `enum` at a place. -/
def valueFindings (node : Node) (place : Location) (value : Json) : List Finding :=
  (node.constViolations value ++ node.enumViolations value).map (Finding.mk place)

/-- A missing member for each required name that is no key of the object, in the order of the schema. -/
def missingFindings (node : Node) (place : Location) (members : List (String × Json)) : List Finding :=
  (node.required.filter fun name => (members.lookup name).isNone).map fun name =>
    ⟨place.member name, .missingRequired⟩

/-- A duplicate for each element that repeats an earlier one, if elements have to differ. -/
def duplicateFindings (node : Node) (place : Location) (items : List Json) : List Finding :=
  if node.distinct then
    (Json.laterDuplicates items).map fun i => ⟨place.element i, .duplicateItem⟩
  else []

/-- The violation of a value that is neither an object nor an array and has to be one of them. -/
def shapeFindings (node : Node) (place : Location) (kind : Kind) : List Finding :=
  if node.wantsObject then [⟨place, .notAnObject kind⟩]
  else if node.wantsArray then [⟨place, .notAnArray kind⟩]
  else []

/-- What the schema says about a member: its entry under `properties`, else the rule for extra members. -/
def memberRule (node : Node) (key : String) : ExtraMembers :=
  match node.memberSchema? key with
  | some schema => .schema schema
  | none => node.extra

end Node

/-! ### The walk -/

mutual

/-- Check a value at a place against a schema. A value of the wrong type is not looked at further, and
    of two shapes the object comes first: an array has no elements checked where an object belongs. -/
def visit (root schema : Json) (place : Location) (value : Json) : Outcome :=
  match effectiveSchema root schema with
  | .error e => .failed e
  | .ok target =>
    let node := Node.ofJson target
    match node.typeViolation? value with
    | some violation => .one place violation
    | none =>
      (Outcome.found (node.valueFindings place value)).andThen <|
        match value with
        | .object members =>
          (if node.wantsObject then
              (Outcome.found (node.missingFindings place members)).andThen
                (visitMembers root node place members)
            else .found []).andThen
          (if node.wantsArray then .one place (.notAnArray .object) else .found [])
        | .array items =>
          if node.wantsObject then .one place (.notAnObject .array)
          else if node.wantsArray then
            (visitItems root node place 0 items).andThen
              (.found (node.duplicateFindings place items))
          else .found []
        | scalar => .found (node.shapeFindings place scalar.kind)

/-- Check the members of an object at a place, in their own order. -/
def visitMembers (root : Json) (node : Node) (place : Location) : List (String × Json) → Outcome
  | [] => .found []
  | (key, value) :: rest =>
    (match node.memberRule key with
      | .schema schema => visit root schema (place.member key) value
      | .deny => .one (place.member key) .additionalProperty
      | .allow => .found []).andThen
    (visitMembers root node place rest)

/-- Check the elements of an array at a place, the first of them counted as `i`. -/
def visitItems (root : Json) (node : Node) (place : Location) (i : Nat) : List Json → Outcome
  | [] => .found []
  | item :: rest =>
    (match node.items with
      | some schema => visit root schema (place.element i) item
      | none => .found []).andThen
    (visitItems root node place (i + 1) rest)

end

/-! ### Reports -/

/-- Check a value at a place against a schema of the document `root` and add what is found to a report.
    The diagnostics found before a reference error stay in the report. -/
def checkInto (root schema : Json) (place : Location) (value : Json) (report : Report) :
    Report × Option ReferenceError :=
  let outcome := visit root schema place value
  (report.append outcome.findings, outcome.failure)

/-- The report on an instance, or the reference error that prevents it. -/
def check (root value : Json) : Except ReferenceError Report :=
  match checkInto root root .whole value .empty with
  | (report, none) => .ok report
  | (_, some e) => .error e

end Conform
