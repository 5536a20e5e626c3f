/-
Module: Conform.Proofs.Check.Relocation
Purpose: A check only adds to a report, and what it adds depends on the report not at all and on the place
  in one way only: with the way to the place in front, it is what the check of the value on its own finds.
  So the check of a part, made on its own and moved to the place of the part, is the piece of the whole
  report that the visit of the part leaves there.
Main exports: Outcome.under, visit_under, checkInto_eq_relocate
-/
import Conform.Proofs.Check.Reached
import Conform.Proofs.Report.Location

namespace Conform

open Json

/-! ### Outcomes elsewhere -/

namespace Outcome

/-- The outcome of the same walk at the places that its ways lead to from `base`. -/
def under (base : Location) (o : Outcome) : Outcome := ⟨o.findings.map (Finding.under base), o.failure⟩

variable {base place : Location}

@[simp] theorem under_found (findings : List Finding) :
    (found findings).under base = found (findings.map (Finding.under base)) := rfl

@[simp] theorem under_one (violation : Violation) :
    (one place violation).under base = one (place.under base) violation := rfl

@[simp] theorem under_failed (e : ReferenceError) : (failed e).under base = failed e := rfl

theorem under_andThen (a b : Outcome) :
    (a.andThen b).under base = (a.under base).andThen (b.under base) := by
  rcases a with ⟨as, _ | e⟩ <;> simp [andThen, under]

theorem under_sequence (outcomes : List Outcome) :
    (sequence outcomes).under base = sequence (outcomes.map (under base)) := by
  induction outcomes with
  | nil => rfl
  | cons o rest ih => rw [sequence_cons, under_andThen, ih, List.map_cons, sequence_cons]

end Outcome

/-! ### Findings elsewhere -/

namespace Node

variable (node : Node) (place base : Location)

theorem valueFindings_under (value : Json) :
    node.valueFindings (place.under base) value =
      (node.valueFindings place value).map (Finding.under base) := by
  rw [valueFindings, valueFindings, List.map_map]
  rfl

theorem missingFindings_under (members : List (String × Json)) :
    node.missingFindings (place.under base) members =
      (node.missingFindings place members).map (Finding.under base) := by
  rw [missingFindings, missingFindings, List.map_map]
  rfl

theorem duplicateFindings_under (items : List Json) :
    node.duplicateFindings (place.under base) items =
      (node.duplicateFindings place items).map (Finding.under base) := by
  rw [duplicateFindings, duplicateFindings]
  cases node.distinct with
  | false => rfl
  | true =>
    rw [if_pos rfl, if_pos rfl, List.map_map]
    rfl

theorem shapeFindings_under (kind : Kind) :
    node.shapeFindings (place.under base) kind =
      (node.shapeFindings place kind).map (Finding.under base) := by
  rw [shapeFindings, shapeFindings]
  cases node.wantsObject with
  | true => rfl
  | false => cases node.wantsArray <;> rfl

end Node

/-! ### Visits elsewhere -/

section Visit

variable {root : Json} {node : Node} {place base : Location}

/-- The check of a member elsewhere. -/
theorem visitMember_under {key : String} {part : Json}
    (hpart : ∀ schema place, visit root schema (place.under base) part =
      (visit root schema place part).under base) :
    visitMember root node (place.under base) (key, part) =
      (visitMember root node place (key, part)).under base := by
  simp only [visitMember, ← Location.member_under]
  cases node.memberRule key with
  | allow => rfl
  | deny => rfl
  | schema inner => exact hpart inner _

/-- The check of an element elsewhere. -/
theorem visitElement_under {part : Json} {i : Nat}
    (hpart : ∀ schema place, visit root schema (place.under base) part =
      (visit root schema place part).under base) :
    visitElement root node (place.under base) (part, i) =
      (visitElement root node place (part, i)).under base := by
  simp only [visitElement, ← Location.element_under]
  cases node.items with
  | none => rfl
  | some inner => exact hpart inner _

/-- The check of the parts of a value elsewhere. -/
theorem visitParts_under {value : Json}
    (hparts : ∀ part, Part part value → ∀ schema place,
      visit root schema (place.under base) part = (visit root schema place part).under base) :
    visitParts root node (place.under base) value = (visitParts root node place value).under base := by
  cases value with
  | object members =>
    rw [visitParts, visitParts, Outcome.under_andThen]
    congr 1
    · cases node.wantsObject with
      | false => rfl
      | true =>
        rw [if_pos rfl, if_pos rfl, Outcome.under_andThen, Outcome.under_sequence, Outcome.under_found,
          Node.missingFindings_under, List.map_map]
        congr 2
        apply List.map_congr_left
        rintro ⟨key, part⟩ hmem
        exact visitMember_under (hparts part (.member hmem))
    · cases node.wantsArray <;> rfl
  | array items =>
    rw [visitParts, visitParts]
    cases node.wantsObject with
    | true => rfl
    | false =>
      cases node.wantsArray with
      | false => rfl
      | true =>
        simp only [Bool.false_eq_true, if_false, if_true]
        rw [Outcome.under_andThen, Outcome.under_sequence, Outcome.under_found,
          Node.duplicateFindings_under, List.map_map]
        congr 2
        apply List.map_congr_left
        rintro ⟨part, i⟩ hmem
        exact visitElement_under (hparts part (.element (List.fst_mem_of_mem_zipIdx hmem)))
  | _ => exact congrArg Outcome.found (Node.shapeFindings_under node place base _)

/-- A visit elsewhere finds the same violations at the places that the same ways lead to. -/
theorem visit_under (root : Json) (base : Location) (value : Json) :
    ∀ schema place, visit root schema (place.under base) value =
      (visit root schema place value).under base := by
  induction value using partInduction with
  | step value ih =>
    intro schema place
    cases hresolves : effectiveSchema root schema with
    | error e => rw [visit_of_error hresolves, visit_of_error hresolves, Outcome.under_failed]
    | ok target =>
      cases htype : (Node.ofJson target).typeViolation? value with
      | some violation =>
        rw [visit_of_mistyped hresolves htype, visit_of_mistyped hresolves htype, Outcome.under_one]
      | none =>
        rw [visit_of_typed hresolves htype, visit_of_typed hresolves htype, Outcome.under_andThen,
          Outcome.under_found, Node.valueFindings_under, visitParts_under ih]

end Visit

/-! ### Checks elsewhere -/

section Check

variable (root schema value : Json) (place : Location)

/-- A visit at a place is the visit of the value on its own, seen from the place. -/
theorem visit_eq_under : visit root schema place value = (visit root schema .whole value).under place :=
  visit_under root place value schema .whole

/-- How a check ends depends neither on the place nor on the report. -/
theorem failure_checkInto (report : Report) : (checkInto root schema place value report).2 =
    (checkInto root schema .whole value .empty).2 := by
  rw [checkInto, visit_eq_under]
  rfl

/-- What a visit at a place finds is what a check of the value on its own reports, with the path of the
    place for `$`. -/
theorem diagnostics_visit :
    (visit root schema place value).findings.map Finding.diagnostic =
      (checkInto root schema .whole value .empty).1.items.map (Diagnostic.relocate place.text) := by
  rw [visit_eq_under]
  exact Report.relocate_append place _

/-- The paths of a check of a value on its own begin with `$`. -/
theorem path_of_mem_checkInto {d : Diagnostic}
    (h : d ∈ (checkInto root schema .whole value .empty).1.items) : ∃ way, d.path = "$" ++ way := by
  obtain ⟨f, -, rfl⟩ : ∃ f, f ∈ (visit root schema .whole value).findings ∧ f.diagnostic = d := by
    simpa [checkInto] using h
  obtain ⟨way, hway, -⟩ := f.location.exists_text_under
  exact ⟨way, hway⟩

/-- In a check that comes to an end, the check of a part that is reached comes to an end on its own. Moved
    to the place of the part, it stands in the report between what was found before the part was entered
    and what was found after it was left. -/
theorem items_checkInto_of_reached {report : Report} {stop : Stop}
    (hreached : Reached root ⟨[], place, schema, value⟩ stop)
    (hends : (checkInto root schema place value report).2 = none) :
    (checkInto root stop.schema .whole stop.value .empty).2 = none ∧
      ∃ earlier later, tour root ⟨[], place, schema, value⟩ = earlier ++ tour root stop ++ later ∧
        (checkInto root schema place value report).1.items = report.items ++
          (reported earlier).map Finding.diagnostic ++
          (checkInto root stop.schema .whole stop.value .empty).1.items.map
            (Diagnostic.relocate stop.place.text) ++
          (reported later).map Finding.diagnostic := by
  obtain ⟨hstop, earlier, later, htour, hfindings⟩ :=
    @visit_of_reached root ⟨[], place, schema, value⟩ stop hends hreached
  refine ⟨(failure_checkInto root stop.schema stop.value stop.place report).symm.trans hstop,
    earlier, later, htour, ?_⟩
  change report.items ++ (visit root schema place value).findings.map Finding.diagnostic = _
  rw [hfindings, List.map_append, List.map_append, diagnostics_visit]
  simp only [List.append_assoc]

/-- A check adds to the end of a report what the check of the value on its own reports, with the path of
    the place for the leading `$`, and it ends in the same way. So the check of a part on its own, moved
    to the place of the part, is its piece of the whole report. -/
theorem checkInto_eq_relocate (report : Report) :
    (checkInto root schema place value report).1.items = report.items ++
        (checkInto root schema .whole value .empty).1.items.map (Diagnostic.relocate place.text) ∧
      (checkInto root schema place value report).2 = (checkInto root schema .whole value .empty).2 ∧
      (∀ d ∈ (checkInto root schema .whole value .empty).1.items, ∃ way, d.path = "$" ++ way) ∧
      ∀ stop, Reached root ⟨[], place, schema, value⟩ stop →
        (checkInto root schema place value report).2 = none →
        (checkInto root stop.schema .whole stop.value .empty).2 = none ∧
        ∃ earlier later, tour root ⟨[], place, schema, value⟩ = earlier ++ tour root stop ++ later ∧
          (checkInto root schema place value report).1.items = report.items ++
            (reported earlier).map Finding.diagnostic ++
            (checkInto root stop.schema .whole stop.value .empty).1.items.map
              (Diagnostic.relocate stop.place.text) ++
            (reported later).map Finding.diagnostic := by
  have hadded : (checkInto root schema place value report).1.items = report.items ++
      (visit root schema place value).findings.map Finding.diagnostic := rfl
  rw [diagnostics_visit] at hadded
  exact ⟨hadded, failure_checkInto root schema value place report,
    fun _ hd => path_of_mem_checkInto root schema value hd,
    fun _ hreached hends => items_checkInto_of_reached root schema value place hreached hends⟩

/-- An element of a list inside an object. Checked on its own it is reported at `$`; that diagnostic,
    moved to the place of the element, is its piece of the report on the list. -/
theorem checkInto_eq_relocate_element :
    let name : Json := .object [("type", .string "string")]
    let root : Json := .object [("items", name)]
    let list : Location := .member .whole "list"
    let names : Json := .array [.string "a", .null]
    let message := "expected type string, got null"
    Reached root ⟨[], list, root, names⟩ ⟨[1], .element list 1, name, .null⟩ ∧
      checkInto root name .whole .null .empty = (⟨[⟨"$", .typeMismatch, message⟩]⟩, none) ∧
      (checkInto root root list names .empty).2 = none ∧
      ∃ before after, (checkInto root root list names .empty).1.items =
        before ++ [⟨"$.list[1]", .typeMismatch, message⟩] ++ after := by
  intro name root list names message
  have hreached : Reached root ⟨[], list, root, names⟩ ⟨[1], .element list 1, name, .null⟩ :=
    .single (.element rfl (fun _ h => nomatch h) rfl (Or.inr (Or.inl ⟨name, rfl⟩))
      (mt Node.wantsObject_ofJson_iff.2 (by decide)) rfl ⟨rfl, rfl⟩)
  have halone : checkInto root name .whole .null .empty = (⟨[⟨"$", .typeMismatch, message⟩]⟩, none) := by
    decide +kernel
  have hends : (checkInto root root list names .empty).2 = none := by decide +kernel
  obtain ⟨-, -, -, hpiece⟩ := checkInto_eq_relocate root root names list .empty
  obtain ⟨-, earlier, later, -, hitems⟩ := hpiece _ hreached hends
  have hmoved : (⟨"$", .typeMismatch, message⟩ : Diagnostic).relocate (list.element 1).text =
      ⟨"$.list[1]", .typeMismatch, message⟩ := by decide +kernel
  rw [halone, List.map_singleton, hmoved] at hitems
  exact ⟨hreached, halone, hends, _, _, hitems⟩

end Check

end Conform
