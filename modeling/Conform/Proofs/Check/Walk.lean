/-
Module: Conform.Proofs.Check.Walk
Purpose: The walk taken apart: what a visit does once the schema of a place is known, with the members of
  an object and the elements of an array as lists of visits that are made one after the other.
Main exports: Outcome.sequence, Outcome.sequence_eq_found_nil_iff, visitMember, visitElement, visitParts,
  visitMembers_eq_sequence, visitItems_eq_sequence, visit_of_error, visit_of_mistyped, visit_of_typed,
  check_eq_ok_iff, check_eq_error_iff
-/
import Conform.Check

namespace Conform

/-! ### Outcomes in a row -/

namespace Outcome

/-- Walks one after the other, up to the first that is cut short. -/
def sequence (outcomes : List Outcome) : Outcome := outcomes.foldr andThen (found [])

@[simp] theorem sequence_nil : sequence [] = found [] := rfl

@[simp] theorem sequence_cons (first : Outcome) (rest : List Outcome) :
    sequence (first :: rest) = first.andThen (sequence rest) := rfl

theorem sequence_append (first second : List Outcome) :
    sequence (first ++ second) = (sequence first).andThen (sequence second) := by
  induction first with
  | nil => exact (found_nil_andThen _).symm
  | cons o rest ih => rw [List.cons_append, sequence_cons, ih, sequence_cons, andThen_assoc]

/-- Walks that are left out count as finding nothing. -/
theorem sequence_map_filterMap {α β : Type} (f : α → Option β) (g : β → Outcome) (parts : List α) :
    sequence ((parts.filterMap f).map g) =
      sequence (parts.map fun part => (f part).elim (found []) g) := by
  induction parts with
  | nil => rfl
  | cons part rest ih =>
    rw [List.map_cons, sequence_cons, ← ih]
    cases h : f part with
    | none => rw [List.filterMap_cons_none h, Option.elim_none, found_nil_andThen]
    | some task => rw [List.filterMap_cons_some h, List.map_cons, sequence_cons, Option.elim_some]

theorem failure_andThen_eq_none_iff {a b : Outcome} :
    (a.andThen b).failure = none ↔ a.failure = none ∧ b.failure = none := by
  rcases a with ⟨as, _ | e⟩ <;> simp [andThen]

theorem findings_andThen {a : Outcome} (h : a.failure = none) (b : Outcome) :
    (a.andThen b).findings = a.findings ++ b.findings := by
  simp [andThen, h]

/-- Walks in a row come to an end if each of them does. -/
theorem failure_sequence_eq_none_iff {outcomes : List Outcome} :
    (sequence outcomes).failure = none ↔ ∀ o ∈ outcomes, o.failure = none := by
  induction outcomes with
  | nil => simp [found]
  | cons o rest ih => rw [sequence_cons, failure_andThen_eq_none_iff, ih, List.forall_mem_cons]

/-- What walks in a row find is found by one of them. -/
theorem exists_of_mem_findings_sequence {outcomes : List Outcome} {f : Finding}
    (h : f ∈ (sequence outcomes).findings) : ∃ o ∈ outcomes, f ∈ o.findings := by
  induction outcomes with
  | nil => exact absurd h List.not_mem_nil
  | cons o rest ih =>
    rw [sequence_cons, andThen] at h
    split at h
    · exact ⟨o, List.mem_cons_self, h⟩
    · rcases List.mem_append.1 h with hfirst | hrest
      · exact ⟨o, List.mem_cons_self, hfirst⟩
      · obtain ⟨other, hmem, hfound⟩ := ih hrest
        exact ⟨other, List.mem_cons_of_mem o hmem, hfound⟩

/-- Two walks find nothing and end normally exactly if both do. -/
theorem andThen_eq_found_nil_iff {a b : Outcome} :
    a.andThen b = found [] ↔ a = found [] ∧ b = found [] := by
  rcases a with ⟨as, _ | e⟩ <;> rcases b with ⟨bs, _ | f⟩ <;> simp [andThen, found]

/-- A row of walks finds nothing and ends normally exactly if all do. -/
theorem sequence_eq_found_nil_iff {outcomes : List Outcome} :
    sequence outcomes = found [] ↔ ∀ o ∈ outcomes, o = found [] := by
  induction outcomes with
  | nil => simp
  | cons first rest ih => simp [andThen_eq_found_nil_iff, ih]

theorem found_eq_found_nil_iff {findings : List Finding} : found findings = found [] ↔ findings = [] := by
  simp [found]

theorem one_ne_found_nil (place : Location) (violation : Violation) :
    one place violation ≠ found [] := by
  simp [one, found]

theorem failed_ne_found_nil (e : ReferenceError) : failed e ≠ found [] := by
  simp [failed, found]

end Outcome

/-! ### Parts of a visit -/

variable (root : Json) (node : Node) (place : Location)

/-- Check one member of an object at a place. -/
def visitMember (member : String × Json) : Outcome :=
  match node.memberRule member.1 with
  | .schema schema => visit root schema (place.member member.1) member.2
  | .deny => .one (place.member member.1) .additionalProperty
  | .allow => .found []

/-- Check one element of an array at a place. -/
def visitElement (element : Json × Nat) : Outcome :=
  match node.items with
  | some schema => visit root schema (place.element element.2) element.1
  | none => .found []

/-- Check the parts of a value that has an allowed type, and its shape. -/
def visitParts : Json → Outcome
  | .object members =>
    (if node.wantsObject then
        (Outcome.found (node.missingFindings place members)).andThen
          (.sequence (members.map (visitMember root node place)))
      else .found []).andThen
    (if node.wantsArray then .one place (.notAnArray .object) else .found [])
  | .array items =>
    if node.wantsObject then .one place (.notAnObject .array)
    else if node.wantsArray then
      (Outcome.sequence (items.zipIdx.map (visitElement root node place))).andThen
        (.found (node.duplicateFindings place items))
    else .found []
  | scalar => .found (node.shapeFindings place scalar.kind)

/-- The members of an object are checked one after the other. -/
theorem visitMembers_eq_sequence (members : List (String × Json)) :
    visitMembers root node place members = .sequence (members.map (visitMember root node place)) := by
  induction members with
  | nil => rw [visitMembers, List.map_nil, Outcome.sequence_nil]
  | cons member rest ih =>
    rcases member with ⟨key, value⟩
    rw [visitMembers, ih, List.map_cons, Outcome.sequence_cons]
    rfl

/-- The elements of an array are checked one after the other. -/
theorem visitItems_eq_sequence (i : Nat) (items : List Json) :
    visitItems root node place i items =
      .sequence ((items.zipIdx i).map (visitElement root node place)) := by
  induction items generalizing i with
  | nil => rw [visitItems, List.zipIdx_nil, List.map_nil, Outcome.sequence_nil]
  | cons item rest ih =>
    rw [visitItems, ih, List.zipIdx_cons, List.map_cons, Outcome.sequence_cons]
    rfl

variable {root} {schema value : Json} {place}

/-- A reference that leads nowhere ends a visit before it begins. -/
theorem visit_of_error {e : ReferenceError} (h : effectiveSchema root schema = .error e) :
    visit root schema place value = .failed e := by
  rw [visit, h]

/-- A value of the wrong type is reported and not looked at further. -/
theorem visit_of_mistyped {target : Json} {violation : Violation}
    (h : effectiveSchema root schema = .ok target)
    (ht : (Node.ofJson target).typeViolation? value = some violation) :
    visit root schema place value = .one place violation := by
  rw [visit, h]
  simp only [ht]

/-- A value of an allowed type is compared with `const` and `enum`, then its parts are checked. -/
theorem visit_of_typed {target : Json} (h : effectiveSchema root schema = .ok target)
    (ht : (Node.ofJson target).typeViolation? value = none) :
    visit root schema place value =
      (Outcome.found ((Node.ofJson target).valueFindings place value)).andThen
        (visitParts root (Node.ofJson target) place value) := by
  rw [visit, h]
  simp only [ht]
  cases value with
  | object members => simp only [visitParts, visitMembers_eq_sequence]
  | array items => simp only [visitParts, visitItems_eq_sequence]
  | _ => rfl

/-! ### Results of a check -/

/-- A check comes to an end if the walk does, with what the walk found. -/
theorem check_eq_ok_iff {root value : Json} {report : Report} :
    check root value = .ok report ↔ (visit root root .whole value).failure = none ∧
      report = Report.empty.append (visit root root .whole value).findings := by
  rw [check, checkInto]
  cases (visit root root .whole value).failure with
  | none => simp [eq_comm]
  | some e => simp

/-- A check fails with the error that cut the walk short. -/
theorem check_eq_error_iff {root value : Json} {e : ReferenceError} :
    check root value = .error e ↔ (visit root root .whole value).failure = some e := by
  rw [check, checkInto]
  cases (visit root root .whole value).failure <;> simp

end Conform
