/-
Module: Conform.Proofs.Check.Agenda
Purpose: What a visit does at one stop, as a list of tasks: report a finding or go on to a part. A visit
  is its tasks done one after the other. The parts it goes on to are told by type and shape alone; what
  `const`, `enum` and `required` say makes no difference.
Main exports: Stop, Stop.Child, Task, Stop.tasks, Stop.descend_mem_tasks_iff, Stop.visit_eq_sequence
-/
import Conform.Proofs.Check.Walk
import Conform.Proofs.Json.Parts
import Conform.Proofs.Schema.Keywords

namespace Conform

open Json

/-! ### Stops -/

/-- A value at a place, with a schema for it. The trail counts the members and elements on the way there,
    so it tells stops apart that differ in nothing else, and orders them. -/
structure Stop where
  trail : List Nat
  place : Location
  schema : Json
  value : Json

namespace Stop

/-- The stop at a member. -/
def member (stop : Stop) (i : Nat) (key : String) (schema part : Json) : Stop :=
  ⟨stop.trail ++ [i], stop.place.member key, schema, part⟩

/-- The stop at an element. -/
def element (stop : Stop) (i : Nat) (schema part : Json) : Stop :=
  ⟨stop.trail ++ [i], stop.place.element i, schema, part⟩

/-- The schema of a stop leads nowhere. -/
def Fails (root : Json) (stop : Stop) (e : ReferenceError) : Prop :=
  effectiveSchema root stop.schema = .error e

/-- A stop comes right after another: at a member of an object if the schema that counts is about objects
    and has a schema for the member, or at an element of an array if the schema is about arrays, not about
    objects, and has a schema for elements. The type of the value has to be allowed. -/
inductive Child (root : Json) (stop : Stop) : Stop → Prop where
  | member {target inner part : Json} {members : List (String × Json)} {i : Nat} {key : String}
      (resolves : effectiveSchema root stop.schema = .ok target) (type : target.TypeAllows stop.value)
      (object : stop.value = .object members) (shaped : target.ObjectShaped)
      (at_index : members[i]? = some (key, part)) (applies : target.MemberSchema key inner) :
      Child root stop (stop.member i key inner part)
  | element {target inner part : Json} {items : List Json} {i : Nat}
      (resolves : effectiveSchema root stop.schema = .ok target) (type : target.TypeAllows stop.value)
      (array : stop.value = .array items) (shaped : target.ArrayShaped) (unshaped : ¬ target.ObjectShaped)
      (at_index : items[i]? = some part) (applies : target.ItemSchema inner) :
      Child root stop (stop.element i inner part)

end Stop

/-! ### Tasks -/

/-- One thing to do in a visit. -/
inductive Task where
  | report (finding : Finding)
  | descend (stop : Stop)

namespace Task

/-- Do a task. -/
def run (root : Json) : Task → Outcome
  | .report finding => .found [finding]
  | .descend stop => visit root stop.schema stop.place stop.value

end Task

namespace Stop

variable (root : Json) (stop : Stop) (node : Node)

/-- The task for a member, if there is one. -/
def memberTask? : (String × Json) × Nat → Option Task
  | ((key, part), i) =>
    match node.memberRule key with
    | .schema inner => some (.descend (stop.member i key inner part))
    | .deny => some (.report ⟨stop.place.member key, .additionalProperty⟩)
    | .allow => none

/-- The task for an element, if there is one. -/
def elementTask? : Json × Nat → Option Task
  | (part, i) => node.items.map fun inner => .descend (stop.element i inner part)

/-- The tasks for the parts of a value and for its shape. -/
def partTasks : Json → List Task
  | .object members =>
    (if node.wantsObject then
        (node.missingFindings stop.place members).map .report ++
          members.zipIdx.filterMap (stop.memberTask? node)
      else []) ++
    (if node.wantsArray then [.report ⟨stop.place, .notAnArray .object⟩] else [])
  | .array items =>
    if node.wantsObject then [.report ⟨stop.place, .notAnObject .array⟩]
    else if node.wantsArray then
      items.zipIdx.filterMap (stop.elementTask? node) ++
        (node.duplicateFindings stop.place items).map .report
    else []
  | scalar => (node.shapeFindings stop.place scalar.kind).map .report

/-- The tasks of a visit, in order. There are none where the schema leads nowhere. -/
def tasks : List Task :=
  match effectiveSchema root stop.schema with
  | .error _ => []
  | .ok target =>
    match (Node.ofJson target).typeViolation? stop.value with
    | some violation => [.report ⟨stop.place, violation⟩]
    | none =>
      ((Node.ofJson target).valueFindings stop.place stop.value).map .report ++
        stop.partTasks (Node.ofJson target) stop.value

variable {root stop node}

/-- Where the schema leads nowhere there is nothing to do. -/
theorem tasks_of_fails {e : ReferenceError} (h : stop.Fails root e) : stop.tasks root = [] := by
  have hresolves : effectiveSchema root stop.schema = .error e := h
  simp only [tasks, hresolves]

/-- A value of the wrong type is reported. -/
theorem tasks_of_mistyped {target : Json} {violation : Violation}
    (h : effectiveSchema root stop.schema = .ok target)
    (ht : (Node.ofJson target).typeViolation? stop.value = some violation) :
    stop.tasks root = [.report ⟨stop.place, violation⟩] := by
  simp only [tasks, h, ht]

/-- For a value of an allowed type, the findings about itself come before its parts. -/
theorem tasks_of_typed {target : Json} (h : effectiveSchema root stop.schema = .ok target)
    (ht : (Node.ofJson target).typeViolation? stop.value = none) :
    stop.tasks root = ((Node.ofJson target).valueFindings stop.place stop.value).map .report ++
      stop.partTasks (Node.ofJson target) stop.value := by
  simp only [tasks, h, ht]

/-! ### The parts a visit goes on to -/

theorem descend_not_mem_map_report {part : Stop} {findings : List Finding} :
    .descend part ∉ findings.map Task.report := by
  simp

/-- From an object a visit goes on to the members that have a schema. -/
theorem descend_mem_partTasks_object_iff {members : List (String × Json)} {part : Stop} :
    .descend part ∈ stop.partTasks node (.object members) ↔ node.wantsObject = true ∧
      ∃ i key value inner, members[i]? = some (key, value) ∧ node.memberRule key = .schema inner ∧
        part = stop.member i key inner value := by
  have htask : ∀ (key : String) (value : Json) (i : Nat),
      stop.memberTask? node ((key, value), i) = some (.descend part) ↔
        ∃ inner, node.memberRule key = .schema inner ∧ part = stop.member i key inner value := by
    intro key value i
    rw [memberTask?]
    cases node.memberRule key <;> simp [eq_comm]
  have hlast : .descend part ∉
      (if node.wantsArray then [.report ⟨stop.place, .notAnArray .object⟩] else [] : List Task) := by
    cases node.wantsArray <;> simp
  rw [partTasks, List.mem_append, or_iff_left hlast]
  by_cases hobject : node.wantsObject = true
  · rw [if_pos hobject, List.mem_append, or_iff_right descend_not_mem_map_report, List.mem_filterMap,
      and_iff_right hobject]
    constructor
    · rintro ⟨⟨⟨key, value⟩, i⟩, hmem, hsome⟩
      obtain ⟨inner, hrule, hpart⟩ := (htask key value i).1 hsome
      exact ⟨i, key, value, inner, List.mk_mem_zipIdx_iff_getElem?.1 hmem, hrule, hpart⟩
    · rintro ⟨i, key, value, inner, hget, hrule, hpart⟩
      exact ⟨((key, value), i), List.mk_mem_zipIdx_iff_getElem?.2 hget,
        (htask key value i).2 ⟨inner, hrule, hpart⟩⟩
  · simp [hobject]

/-- From an array a visit goes on to all elements if there is a schema for them. -/
theorem descend_mem_partTasks_array_iff {items : List Json} {part : Stop} :
    .descend part ∈ stop.partTasks node (.array items) ↔
      node.wantsArray = true ∧ ¬ node.wantsObject = true ∧
      ∃ i value inner, items[i]? = some value ∧ node.items = some inner ∧
        part = stop.element i inner value := by
  have htask : ∀ (value : Json) (i : Nat),
      stop.elementTask? node (value, i) = some (.descend part) ↔
        ∃ inner, node.items = some inner ∧ part = stop.element i inner value := by
    intro value i
    rw [elementTask?]
    cases node.items <;> simp [eq_comm]
  rw [partTasks]
  by_cases hobject : node.wantsObject = true
  · simp [hobject]
  · by_cases harray : node.wantsArray = true
    · rw [if_neg hobject, if_pos harray, List.mem_append, or_iff_left descend_not_mem_map_report,
        List.mem_filterMap, and_iff_right harray, and_iff_right hobject]
      constructor
      · rintro ⟨⟨value, i⟩, hmem, hsome⟩
        obtain ⟨inner, hitems, hpart⟩ := (htask value i).1 hsome
        exact ⟨i, value, inner, List.mk_mem_zipIdx_iff_getElem?.1 hmem, hitems, hpart⟩
      · rintro ⟨i, value, inner, hget, hitems, hpart⟩
        exact ⟨(value, i), List.mk_mem_zipIdx_iff_getElem?.2 hget,
          (htask value i).2 ⟨inner, hitems, hpart⟩⟩
    · simp [hobject, harray]

/-- The tasks for the parts of a value with an allowed type go on to its children. -/
theorem descend_mem_partTasks_iff {target : Json} {part : Stop}
    (hresolves : effectiveSchema root stop.schema = .ok target) (htype : target.TypeAllows stop.value) :
    .descend part ∈ stop.partTasks (Node.ofJson target) stop.value ↔ Child root stop part := by
  constructor
  · intro h
    cases hvalue : stop.value with
    | object members =>
      rw [hvalue, descend_mem_partTasks_object_iff, Node.wantsObject_ofJson_iff] at h
      obtain ⟨hshaped, i, key, value, inner, hget, hrule, rfl⟩ := h
      exact .member hresolves htype hvalue hshaped hget (Node.memberRule_ofJson_eq_schema_iff.1 hrule)
    | array items =>
      rw [hvalue, descend_mem_partTasks_array_iff, Node.wantsObject_ofJson_iff,
        Node.wantsArray_ofJson_iff] at h
      obtain ⟨hshaped, hunshaped, i, value, inner, hget, hitems, rfl⟩ := h
      exact .element hresolves htype hvalue hshaped hunshaped hget
        (Node.items_ofJson_eq_some_iff.1 hitems)
    | _ =>
      rw [hvalue] at h
      exact absurd h descend_not_mem_map_report
  · intro h
    cases h with
    | member resolves type object shaped at_index applies =>
      rw [hresolves] at resolves
      cases resolves
      rw [object, descend_mem_partTasks_object_iff, Node.wantsObject_ofJson_iff]
      exact ⟨shaped, _, _, _, _, at_index, Node.memberRule_ofJson_eq_schema_iff.2 applies, rfl⟩
    | element resolves type array shaped unshaped at_index applies =>
      rw [hresolves] at resolves
      cases resolves
      rw [array, descend_mem_partTasks_array_iff, Node.wantsObject_ofJson_iff,
        Node.wantsArray_ofJson_iff]
      exact ⟨shaped, unshaped, _, _, _, at_index, Node.items_ofJson_eq_some_iff.2 applies, rfl⟩

/-- A child has a stop whose schema counts and allows the type of the value. -/
theorem Child.resolves_and_type {part : Stop} (h : Child root stop part) :
    ∃ target, effectiveSchema root stop.schema = .ok target ∧ target.TypeAllows stop.value := by
  cases h with
  | member resolves type => exact ⟨_, resolves, type⟩
  | element resolves type => exact ⟨_, resolves, type⟩

/-- The stops a visit goes on to are the children. -/
theorem descend_mem_tasks_iff {part : Stop} : .descend part ∈ stop.tasks root ↔ Child root stop part := by
  cases hresolves : effectiveSchema root stop.schema with
  | error e =>
    rw [tasks_of_fails hresolves]
    refine ⟨fun h => absurd h List.not_mem_nil, fun h => ?_⟩
    obtain ⟨target, htarget, -⟩ := h.resolves_and_type
    rw [hresolves] at htarget
    cases htarget
  | ok target =>
    cases hviolation : (Node.ofJson target).typeViolation? stop.value with
    | some violation =>
      rw [tasks_of_mistyped hresolves hviolation]
      refine ⟨fun h => by simp at h, fun h => ?_⟩
      obtain ⟨target', htarget, htype⟩ := h.resolves_and_type
      rw [hresolves] at htarget
      cases htarget
      rw [Node.typeViolation?_ofJson_eq_none_iff.2 htype] at hviolation
      cases hviolation
    | none =>
      rw [tasks_of_typed hresolves hviolation, List.mem_append, or_iff_right descend_not_mem_map_report]
      exact descend_mem_partTasks_iff hresolves (Node.typeViolation?_ofJson_eq_none_iff.1 hviolation)

/-! ### The order of the parts -/

/-- Where two tasks go on to children, the first comes before the second. -/
def InOrder (stop : Stop) (first second : Task) : Prop :=
  ∀ a b, first = .descend a → second = .descend b →
    ∃ i j, i < j ∧ a.trail = stop.trail ++ [i] ∧ b.trail = stop.trail ++ [j]

theorem pairwise_zipIdx_lt {α : Type} (parts : List α) :
    parts.zipIdx.Pairwise fun a b => a.2 < b.2 := by
  rw [← List.pairwise_map (f := Prod.snd), List.zipIdx_map_snd]
  exact List.pairwise_lt_range'

/-- Findings are in order with anything. -/
theorem pairwise_map_report_append (findings : List Finding) {rest : List Task}
    (h : rest.Pairwise stop.InOrder) : (findings.map Task.report ++ rest).Pairwise stop.InOrder := by
  induction findings with
  | nil => exact h
  | cons finding findings ih => exact .cons (fun _ _ _ _ heq => nomatch heq) ih

theorem pairwise_append_map_report (findings : List Finding) {first : List Task}
    (h : first.Pairwise stop.InOrder) : (first ++ findings.map Task.report).Pairwise stop.InOrder := by
  have hreports : (findings.map Task.report).Pairwise stop.InOrder := by
    have hempty : ([] : List Task).Pairwise stop.InOrder := .nil
    simpa using pairwise_map_report_append findings hempty
  refine List.pairwise_append.2 ⟨h, hreports, fun _ _ task htask a b _ heq => ?_⟩
  rw [heq] at htask
  exact absurd htask descend_not_mem_map_report

/-- The tasks for members and elements are in order. -/
theorem pairwise_filterMap_zipIdx {α : Type} {task? : α × Nat → Option Task} {parts : List α}
    (h : ∀ part inner, task? part = some (.descend inner) → inner.trail = stop.trail ++ [part.2]) :
    (parts.zipIdx.filterMap task?).Pairwise stop.InOrder := by
  rw [List.pairwise_filterMap]
  apply (pairwise_zipIdx_lt parts).imp
  intro x y hlt a hx b hy inner inner' ha hb
  subst ha
  subst hb
  exact ⟨x.2, y.2, hlt, h x inner hx, h y inner' hy⟩

theorem trail_of_memberTask? (part : (String × Json) × Nat) (inner : Stop)
    (h : stop.memberTask? node part = some (.descend inner)) :
    inner.trail = stop.trail ++ [part.2] := by
  rcases part with ⟨⟨key, value⟩, i⟩
  rw [memberTask?] at h
  cases hrule : node.memberRule key with
  | allow => simp [hrule] at h
  | deny => simp [hrule] at h
  | schema schema =>
    rw [hrule] at h
    cases h
    rfl

theorem trail_of_elementTask? (part : Json × Nat) (inner : Stop)
    (h : stop.elementTask? node part = some (.descend inner)) :
    inner.trail = stop.trail ++ [part.2] := by
  rcases part with ⟨value, i⟩
  rw [elementTask?, Option.map_eq_some_iff] at h
  obtain ⟨schema, -, heq⟩ := h
  cases heq
  rfl

/-- The tasks for the parts of a value are in order. -/
theorem pairwise_partTasks (value : Json) : (stop.partTasks node value).Pairwise stop.InOrder := by
  cases value with
  | object members =>
    have hmembers : ((node.missingFindings stop.place members).map Task.report ++
        members.zipIdx.filterMap (stop.memberTask? node)).Pairwise stop.InOrder :=
      pairwise_map_report_append _ (pairwise_filterMap_zipIdx trail_of_memberTask?)
    rw [partTasks]
    cases node.wantsArray with
    | false =>
      rw [if_neg Bool.false_ne_true, List.append_nil]
      cases node.wantsObject with
      | false => exact .nil
      | true => exact hmembers
    | true =>
      cases node.wantsObject with
      | false => exact pairwise_append_map_report [_] .nil
      | true => exact pairwise_append_map_report [_] hmembers
  | array items =>
    have helements : (items.zipIdx.filterMap (stop.elementTask? node) ++
        (node.duplicateFindings stop.place items).map Task.report).Pairwise stop.InOrder :=
      pairwise_append_map_report _ (pairwise_filterMap_zipIdx trail_of_elementTask?)
    rw [partTasks]
    cases node.wantsObject with
    | true => exact .cons (fun _ h => nomatch h) .nil
    | false =>
      cases node.wantsArray with
      | false => exact .nil
      | true => exact helements
  | _ =>
    have hnone : ([] : List Task).Pairwise stop.InOrder := .nil
    exact pairwise_append_map_report _ hnone

/-- The tasks of a visit are in order. -/
theorem pairwise_tasks : (stop.tasks root).Pairwise stop.InOrder := by
  cases hresolves : effectiveSchema root stop.schema with
  | error e =>
    rw [tasks_of_fails hresolves]
    exact .nil
  | ok target =>
    cases hviolation : (Node.ofJson target).typeViolation? stop.value with
    | some violation =>
      rw [tasks_of_mistyped hresolves hviolation]
      exact List.pairwise_singleton _ _
    | none =>
      rw [tasks_of_typed hresolves hviolation]
      exact pairwise_map_report_append _ (pairwise_partTasks _)

/-! ### A visit is its tasks -/

theorem sequence_run_map_report (findings : List Finding) :
    Outcome.sequence ((findings.map Task.report).map (Task.run root)) = .found findings := by
  induction findings with
  | nil => rfl
  | cons finding rest ih =>
    rw [List.map_cons, List.map_cons, Outcome.sequence_cons, ih]
    rfl

/-- The check of a member is its task. -/
theorem visitMember_eq_run (key : String) (part : Json) (i : Nat) :
    visitMember root node stop.place (key, part) =
      (stop.memberTask? node ((key, part), i)).elim (.found []) (Task.run root) := by
  rw [visitMember, memberTask?]
  cases node.memberRule key <;> rfl

/-- The check of an element is its task. -/
theorem visitElement_eq_run (part : Json) (i : Nat) :
    visitElement root node stop.place (part, i) =
      (stop.elementTask? node (part, i)).elim (.found []) (Task.run root) := by
  rw [visitElement, elementTask?]
  cases node.items <;> rfl

/-- The members of an object are checked by their tasks. -/
theorem sequence_visitMember_eq (members : List (String × Json)) :
    Outcome.sequence (members.map (visitMember root node stop.place)) =
      .sequence ((members.zipIdx.filterMap (stop.memberTask? node)).map (Task.run root)) := by
  rw [Outcome.sequence_map_filterMap]
  have hmembers : members.zipIdx.map (visitMember root node stop.place ∘ Prod.fst) =
      members.map (visitMember root node stop.place) := by
    rw [← List.map_map, List.zipIdx_map_fst]
  rw [← hmembers]
  congr 1
  apply List.map_congr_left
  rintro ⟨⟨key, part⟩, i⟩ -
  exact visitMember_eq_run key part i

/-- The elements of an array are checked by their tasks. -/
theorem sequence_visitElement_eq (items : List Json) :
    Outcome.sequence (items.zipIdx.map (visitElement root node stop.place)) =
      .sequence ((items.zipIdx.filterMap (stop.elementTask? node)).map (Task.run root)) := by
  rw [Outcome.sequence_map_filterMap]
  congr 1
  apply List.map_congr_left
  rintro ⟨part, i⟩ -
  exact visitElement_eq_run part i

/-- The parts of a value are checked by their tasks. -/
theorem visitParts_eq_sequence (value : Json) :
    visitParts root node stop.place value =
      .sequence ((stop.partTasks node value).map (Task.run root)) := by
  cases value with
  | object members =>
    rw [visitParts, partTasks, List.map_append, Outcome.sequence_append]
    congr 1
    · cases node.wantsObject with
      | false => rfl
      | true =>
        rw [if_pos rfl, if_pos rfl, List.map_append, Outcome.sequence_append, sequence_run_map_report,
          sequence_visitMember_eq]
    · cases node.wantsArray <;> rfl
  | array items =>
    rw [visitParts, partTasks]
    cases node.wantsObject with
    | true => rfl
    | false =>
      cases node.wantsArray with
      | false => rfl
      | true =>
        change Outcome.andThen _ _ = Outcome.sequence (List.map _ (_ ++ _))
        rw [List.map_append, Outcome.sequence_append, sequence_run_map_report, sequence_visitElement_eq]
  | _ => exact (sequence_run_map_report _).symm

/-- A visit whose schema counts is its tasks, done one after the other. -/
theorem visit_eq_sequence {target : Json} (hresolves : effectiveSchema root stop.schema = .ok target) :
    visit root stop.schema stop.place stop.value = .sequence ((stop.tasks root).map (Task.run root)) := by
  cases hviolation : (Node.ofJson target).typeViolation? stop.value with
  | some violation =>
    rw [visit_of_mistyped hresolves hviolation, tasks_of_mistyped hresolves hviolation]
    rfl
  | none =>
    rw [visit_of_typed hresolves hviolation, tasks_of_typed hresolves hviolation, List.map_append,
      Outcome.sequence_append, sequence_run_map_report, visitParts_eq_sequence]

end Stop

end Conform
