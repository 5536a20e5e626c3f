/-
Module: Conform.Proofs.Check.Reached
Purpose: Which references a check resolves, and what is left when one of them leads nowhere. A tour goes
  through an instance like a visit, but goes on where a reference leads nowhere, and keeps a log. It
  enters exactly the stops that are reached, in the order of their trails. A visit is the log of the tour
  up to the first stop that fails.
Main exports: Reached, FirstFailing, tour, enter_mem_tour_iff, pairwise_entered_tour, visit_eq_replay,
  visit_of_reached, checkInto_cases, check_fails_iff_reached
-/
import Conform.Document
import Conform.Proofs.Check.Agenda

namespace Conform

open Json

/-! ### Reached stops -/

/-- A stop is the start, or a child of a stop that is reached. -/
def Reached (root : Json) : Stop → Stop → Prop := Relation.ReflTransGen (Stop.Child root)

/-- A stop comes before another: their trails are compared number by number. Members and elements are in
    their own order, and a whole comes before its parts. -/
def Stop.Before (first second : Stop) : Prop := List.Lex (· < ·) first.trail second.trail

/-- A stop is reached and fails with an error, and it comes before all other reached stops that fail. -/
structure FirstFailing (root : Json) (start stop : Stop) (e : ReferenceError) : Prop where
  reached : Reached root start stop
  fails : stop.Fails root e
  first : ∀ other e', Reached root start other → other.Fails root e' → other = stop ∨ stop.Before other

namespace Stop

variable {root : Json} {stop inner : Stop}

/-- The value of a child is a part. -/
theorem Child.part (h : Child root stop inner) : Part inner.value stop.value := by
  cases h with
  | member resolves type object shaped at_index applies =>
    rw [object]
    exact .member (List.mem_of_getElem? at_index)
  | element resolves type array shaped unshaped at_index applies =>
    rw [array]
    exact .element (List.mem_of_getElem? at_index)

/-- The trail of a child has one number more. -/
theorem Child.trail_eq (h : Child root stop inner) : ∃ i, inner.trail = stop.trail ++ [i] := by
  cases h with
  | member => exact ⟨_, rfl⟩
  | element => exact ⟨_, rfl⟩

end Stop

/-- The trail to a stop goes on where the trail to the start ends. -/
theorem Reached.trail_prefix {root : Json} {start stop : Stop} (h : Reached root start stop) :
    start.trail <+: stop.trail := by
  induction h with
  | refl => exact List.prefix_refl _
  | tail _ hchild ih =>
    obtain ⟨i, hi⟩ := hchild.trail_eq
    rw [hi]
    exact ih.trans (List.prefix_append _ _)

/-! ### Tours -/

/-- An entry in the log of a tour. -/
inductive Event where
  | enter (stop : Stop)
  | report (finding : Finding)

namespace Event

/-- The stop that is entered. -/
def stop? : Event → Option Stop
  | .enter stop => some stop
  | .report _ => none

/-- The finding that is reported. -/
def finding? : Event → Option Finding
  | .enter _ => none
  | .report finding => some finding

end Event

/-- The log of a walk that does not end at references that lead nowhere: such a stop is entered and has
    nothing to do. -/
def tour (root : Json) (stop : Stop) : List Event :=
  .enter stop :: (stop.tasks root).attach.flatMap fun
    | ⟨.report finding, _⟩ => [.report finding]
    | ⟨.descend inner, _⟩ => tour root inner
termination_by sizeOf stop.value
decreasing_by
  rename_i hmem
  exact (Stop.descend_mem_tasks_iff.1 hmem).part.sizeOf_lt

/-- The log of one task of a tour. -/
def Task.events (root : Json) : Task → List Event
  | .report finding => [.report finding]
  | .descend stop => tour root stop

section Tour

variable {root : Json} {start stop : Stop}

/-- A tour enters the stop and then does its tasks. -/
theorem tour_eq (root : Json) (stop : Stop) :
    tour root stop = .enter stop :: (stop.tasks root).flatMap (Task.events root) := by
  rw [tour, List.flatMap_subtype (g := Task.events root), List.unattach_attach]
  intro task _
  cases task <;> rfl

/-- A tour enters a stop if it is there already or on the tour of a child. -/
theorem enter_mem_tour_iff_child :
    .enter stop ∈ tour root start ↔ stop = start ∨
      ∃ inner, start.Child root inner ∧ .enter stop ∈ tour root inner := by
  rw [tour_eq, List.mem_cons, List.mem_flatMap, Event.enter.injEq]
  refine or_congr_right ⟨?_, ?_⟩
  · rintro ⟨task, htask, hmem⟩
    cases task with
    | report finding => simp [Task.events] at hmem
    | descend inner => exact ⟨inner, Stop.descend_mem_tasks_iff.1 htask, hmem⟩
  · rintro ⟨inner, hchild, hmem⟩
    exact ⟨.descend inner, Stop.descend_mem_tasks_iff.2 hchild, hmem⟩

/-- A tour enters exactly the stops that are reached. -/
theorem enter_mem_tour_iff : .enter stop ∈ tour root start ↔ Reached root start stop := by
  induction hvalue : start.value using partInduction generalizing start with
  | step value ih =>
    subst hvalue
    rw [enter_mem_tour_iff_child]
    constructor
    · rintro (rfl | ⟨inner, hchild, hmem⟩)
      · exact .refl
      · exact .head hchild ((ih inner.value hchild.part rfl).1 hmem)
    · intro h
      rcases Relation.ReflTransGen.cases_head h with rfl | ⟨inner, hchild, hreached⟩
      · exact Or.inl rfl
      · exact Or.inr ⟨inner, hchild, (ih inner.value hchild.part rfl).2 hreached⟩

/-- The tour of a stop that is reached is one piece of the whole tour. -/
theorem exists_tour_eq_of_reached (h : Reached root start stop) :
    ∃ earlier later, tour root start = earlier ++ tour root stop ++ later := by
  induction h using Relation.ReflTransGen.head_induction_on with
  | refl => exact ⟨[], [], by simp⟩
  | @head start inner hchild _ ih =>
    obtain ⟨earlier, later, htour⟩ := ih
    obtain ⟨before, after, htasks⟩ := List.append_of_mem (Stop.descend_mem_tasks_iff.2 hchild)
    refine ⟨.enter start :: before.flatMap (Task.events root) ++ earlier,
      later ++ after.flatMap (Task.events root), ?_⟩
    rw [tour_eq root start, htasks, List.flatMap_append, List.flatMap_cons, Task.events, htour]
    simp only [List.cons_append, List.append_assoc]

/-! ### The order of a tour -/

/-- The stops that are entered, in order. -/
def entered (events : List Event) : List Stop := events.filterMap Event.stop?

/-- The findings that are reported, in order. -/
def reported (events : List Event) : List Finding := events.filterMap Event.finding?

theorem mem_entered_iff {events : List Event} : stop ∈ entered events ↔ .enter stop ∈ events := by
  rw [entered, List.mem_filterMap]
  constructor
  · rintro ⟨event, hmem, hstop⟩
    cases event with
    | enter other =>
      cases hstop
      exact hmem
    | report finding => cases hstop
  · intro h
    exact ⟨_, h, rfl⟩

/-- The stops that a task enters are reached from the child it goes on to. -/
theorem exists_reached_of_mem_entered_events {task : Task} (h : stop ∈ entered (task.events root)) :
    ∃ inner, task = .descend inner ∧ Reached root inner stop := by
  rw [mem_entered_iff] at h
  cases task with
  | report finding => simp [Task.events] at h
  | descend inner => exact ⟨inner, rfl, enter_mem_tour_iff.1 h⟩

/-- Trails that begin alike are in the order of what follows. -/
theorem lex_append_left {first second : List Nat} (h : List.Lex (· < ·) first second) :
    ∀ trail : List Nat, List.Lex (· < ·) (trail ++ first) (trail ++ second)
  | [] => h
  | _ :: rest => .cons (lex_append_left h rest)

/-- Of two trails at most one comes before the other. -/
theorem lex_asymm {first second : List Nat} (h : List.Lex (· < ·) first second) :
    ¬ List.Lex (· < ·) second first := by
  induction h with
  | nil => exact fun h' => nomatch h'
  | rel hlt =>
    intro h'
    cases h' with
    | rel hlt' => omega
    | cons => omega
  | cons _ ih =>
    intro h'
    cases h' with
    | rel hlt => omega
    | cons h' => exact ih h'

/-- What is reached from an earlier child comes before what is reached from a later one. -/
theorem before_of_lt {trail : List Nat} {first second : Stop} {i j : Nat} (hij : i < j)
    (hfirst : trail ++ [i] <+: first.trail) (hsecond : trail ++ [j] <+: second.trail) :
    first.Before second := by
  obtain ⟨u, hu⟩ := hfirst
  obtain ⟨v, hv⟩ := hsecond
  rw [Stop.Before, ← hu, ← hv, List.append_assoc, List.append_assoc]
  exact lex_append_left (.rel hij) trail

/-- A stop comes before what is reached from its children. -/
theorem before_of_child {first second : Stop} {i : Nat} (h : first.trail ++ [i] <+: second.trail) :
    first.Before second := by
  obtain ⟨u, hu⟩ := h
  have hlex : List.Lex (· < ·) (first.trail ++ []) (first.trail ++ i :: u) := lex_append_left .nil _
  rw [List.append_nil] at hlex
  rw [Stop.Before, ← hu, List.append_assoc]
  exact hlex

/-- The stops of a tour are entered in the order of their trails. -/
theorem pairwise_entered_tour (root : Json) (start : Stop) :
    (entered (tour root start)).Pairwise Stop.Before := by
  induction hvalue : start.value using partInduction generalizing start with
  | step value ih =>
    subst hvalue
    have htour : entered (tour root start) =
        start :: (start.tasks root).flatMap fun task => entered (task.events root) := by
      rw [tour_eq, entered, List.filterMap_cons, List.filterMap_flatMap]
      rfl
    rw [htour, List.pairwise_cons, List.pairwise_flatMap]
    refine ⟨fun stop hstop => ?_, fun task htask => ?_, ?_⟩
    -- The start comes before everything reached from its children.
    · obtain ⟨task, htask, hentered⟩ := List.mem_flatMap.1 hstop
      obtain ⟨inner, rfl, hreached⟩ := exists_reached_of_mem_entered_events hentered
      obtain ⟨i, hi⟩ := (Stop.descend_mem_tasks_iff.1 htask).trail_eq
      exact before_of_child (hi ▸ hreached.trail_prefix)
    · cases task with
      | report finding => exact .nil
      | descend inner => exact ih inner.value (Stop.descend_mem_tasks_iff.1 htask).part inner rfl
    -- What is reached from different children is in the order of the children.
    · apply Stop.pairwise_tasks.imp
      intro first second horder a ha b hb
      obtain ⟨inner, hfirst, hreached⟩ := exists_reached_of_mem_entered_events ha
      obtain ⟨inner', hsecond, hreached'⟩ := exists_reached_of_mem_entered_events hb
      obtain ⟨i, j, hij, hi, hj⟩ := horder inner inner' hfirst hsecond
      exact before_of_lt hij (hi ▸ hreached.trail_prefix) (hj ▸ hreached'.trail_prefix)

/-! ### The log up to the first failure -/

/-- Go through a log up to the first stop that fails. -/
def replay (root : Json) : List Event → Outcome
  | [] => .found []
  | .enter stop :: rest =>
    match effectiveSchema root stop.schema with
    | .error e => .failed e
    | .ok _ => replay root rest
  | .report finding :: rest => (Outcome.found [finding]).andThen (replay root rest)

theorem replay_append (first second : List Event) :
    replay root (first ++ second) = (replay root first).andThen (replay root second) := by
  induction first with
  | nil => exact (Outcome.found_nil_andThen _).symm
  | cons event rest ih =>
    cases event with
    | report finding => rw [List.cons_append, replay, ih, replay, Outcome.andThen_assoc]
    | enter stop =>
      rw [List.cons_append, replay, ih, replay]
      cases effectiveSchema root stop.schema <;> rfl

/-- Tasks that are their logs up to the first failure are so one after the other. -/
theorem sequence_run_eq_replay {tasks : List Task}
    (h : ∀ task ∈ tasks, task.run root = replay root (task.events root)) :
    Outcome.sequence (tasks.map (Task.run root)) = replay root (tasks.flatMap (Task.events root)) := by
  induction tasks with
  | nil => rfl
  | cons task rest ih =>
    rw [List.map_cons, Outcome.sequence_cons, List.flatMap_cons, replay_append,
      h task List.mem_cons_self, ih fun other hother => h other (List.mem_cons_of_mem task hother)]

/-- A visit is the log of the tour up to the first stop that fails. -/
theorem visit_eq_replay (root : Json) (start : Stop) :
    visit root start.schema start.place start.value = replay root (tour root start) := by
  induction hvalue : start.value using partInduction generalizing start with
  | step value ih =>
    subst hvalue
    rw [tour_eq, replay]
    cases hresolves : effectiveSchema root start.schema with
    | error e => exact visit_of_error hresolves
    | ok target =>
      rw [Stop.visit_eq_sequence hresolves]
      apply sequence_run_eq_replay
      intro task htask
      cases task with
      | report finding => exact (Outcome.andThen_found_nil _).symm
      | descend inner => exact ih inner.value (Stop.descend_mem_tasks_iff.1 htask).part inner rfl

/-- A log in which no stop fails is gone through to its end. -/
theorem replay_of_fine {events : List Event}
    (h : ∀ stop e, .enter stop ∈ events → ¬ stop.Fails root e) :
    replay root events = .found (reported events) := by
  induction events with
  | nil => rfl
  | cons event rest ih =>
    have hrest := ih fun stop e hmem => h stop e (List.mem_cons_of_mem event hmem)
    cases event with
    | report finding =>
      rw [replay, hrest]
      rfl
    | enter stop =>
      cases hresolves : effectiveSchema root stop.schema with
      | error e => exact absurd hresolves (h stop e List.mem_cons_self)
      | ok target =>
        rw [replay, hresolves]
        exact hrest

/-- A log is gone through up to the first stop that fails. -/
theorem replay_of_fails {earlier later : List Event} {e : ReferenceError}
    (hfine : ∀ other e', .enter other ∈ earlier → ¬ other.Fails root e') (hfails : stop.Fails root e) :
    replay root (earlier ++ .enter stop :: later) = ⟨reported earlier, some e⟩ := by
  have hstop : replay root (.enter stop :: later) = .failed e := by
    have hresolves : effectiveSchema root stop.schema = .error e := hfails
    rw [replay, hresolves]
  rw [replay_append, replay_of_fine hfine, hstop]
  simp [Outcome.andThen, Outcome.found, Outcome.failed]

/-- A log has no stop that fails, or a first one. -/
theorem fine_or_first_fails (root : Json) (events : List Event) :
    (∀ stop e, .enter stop ∈ events → ¬ stop.Fails root e) ∨
    ∃ earlier stop later e, events = earlier ++ .enter stop :: later ∧ stop.Fails root e ∧
      ∀ other e', .enter other ∈ earlier → ¬ other.Fails root e' := by
  induction events with
  | nil => exact Or.inl fun _ _ h => absurd h List.not_mem_nil
  | cons event rest ih =>
    by_cases hfails : ∃ stop e, event = .enter stop ∧ stop.Fails root e
    · obtain ⟨stop, e, rfl, hfails⟩ := hfails
      exact Or.inr ⟨[], stop, rest, e, rfl, hfails, fun _ _ h => absurd h List.not_mem_nil⟩
    · have hfirst : ∀ {events : List Event}, (∀ stop e, .enter stop ∈ events → ¬ stop.Fails root e) →
          ∀ stop e, .enter stop ∈ event :: events → ¬ stop.Fails root e := by
        intro events hfine stop e hmem
        rcases List.mem_cons.1 hmem with heq | hmem
        · exact fun h => hfails ⟨stop, e, heq.symm, h⟩
        · exact hfine stop e hmem
      rcases ih with hfine | ⟨earlier, stop, later, e, rfl, hstop, hfine⟩
      · exact Or.inl (hfirst hfine)
      · exact Or.inr ⟨event :: earlier, stop, later, e, rfl, hstop, hfirst hfine⟩

/-- Where a visit comes to an end, no stop that is reached fails. -/
theorem not_fails_of_visit (h : (visit root start.schema start.place start.value).failure = none)
    (hreached : Reached root start stop) (e : ReferenceError) : ¬ stop.Fails root e := by
  rw [visit_eq_replay] at h
  rcases fine_or_first_fails root (tour root start) with
    hfine | ⟨earlier, first, later, e', htour, hfails, hfine⟩
  · exact hfine stop e (enter_mem_tour_iff.2 hreached)
  · rw [htour, replay_of_fails hfine hfails] at h
    cases h

/-- A visit that comes to an end finds what the tour reports. -/
theorem visit_eq_found_reported (h : (visit root start.schema start.place start.value).failure = none) :
    visit root start.schema start.place start.value = .found (reported (tour root start)) := by
  rw [visit_eq_replay]
  exact replay_of_fine fun stop e hmem => not_fails_of_visit h (enter_mem_tour_iff.1 hmem) e

/-- Where a visit comes to an end, so does the visit of each stop that is reached, and what that finds is
    one piece of what the whole visit finds. -/
theorem visit_of_reached (h : (visit root start.schema start.place start.value).failure = none)
    (hreached : Reached root start stop) :
    (visit root stop.schema stop.place stop.value).failure = none ∧
      ∃ earlier later, tour root start = earlier ++ tour root stop ++ later ∧
        (visit root start.schema start.place start.value).findings =
          reported earlier ++ (visit root stop.schema stop.place stop.value).findings ++
            reported later := by
  have hstop : visit root stop.schema stop.place stop.value = .found (reported (tour root stop)) := by
    rw [visit_eq_replay]
    exact replay_of_fine fun other e hmem =>
      not_fails_of_visit h (hreached.trans (enter_mem_tour_iff.1 hmem)) e
  obtain ⟨earlier, later, htour⟩ := exists_tour_eq_of_reached hreached
  refine ⟨congrArg Outcome.failure hstop, earlier, later, htour, ?_⟩
  rw [visit_eq_found_reported h, hstop, htour]
  simp only [Outcome.found, reported, List.filterMap_append]

/-- The first stop of a tour that fails is the first reached one. -/
theorem firstFailing_of_tour_eq {earlier later : List Event} {e : ReferenceError}
    (htour : tour root start = earlier ++ .enter stop :: later) (hfails : stop.Fails root e)
    (hfine : ∀ other e', .enter other ∈ earlier → ¬ other.Fails root e') :
    FirstFailing root start stop e := by
  have horder := pairwise_entered_tour root start
  have hentered : entered (tour root start) = entered earlier ++ stop :: entered later := by
    rw [htour, entered, List.filterMap_append]
    rfl
  rw [hentered] at horder
  refine ⟨enter_mem_tour_iff.1 ?_, hfails, fun other e' hreached hfails' => ?_⟩
  · rw [htour]
    exact List.mem_append_right _ List.mem_cons_self
  · have hother : other ∈ entered earlier ++ stop :: entered later := by
      rw [← hentered]
      exact mem_entered_iff.2 (enter_mem_tour_iff.2 hreached)
    rcases List.mem_append.1 hother with hmem | hmem
    · exact absurd hfails' (hfine other e' (mem_entered_iff.1 hmem))
    · rcases List.mem_cons.1 hmem with rfl | hmem
      · exact Or.inl rfl
      · exact Or.inr ((List.pairwise_cons.1 (List.pairwise_append.1 horder).2.1).1 other hmem)

/-- There is at most one first stop that fails. -/
theorem FirstFailing.unique {a b : Stop} {e e' : ReferenceError} (ha : FirstFailing root start a e)
    (hb : FirstFailing root start b e') : a = b ∧ e = e' := by
  have heq : a = b := by
    rcases ha.first b e' hb.reached hb.fails with heq | hab
    · exact heq.symm
    · rcases hb.first a e ha.reached ha.fails with heq | hba
      · exact heq
      · exact absurd hba (lex_asymm hab)
  subst heq
  have hsame : (Except.error e : Except ReferenceError Json) = .error e' :=
    ha.fails.symm.trans hb.fails
  exact ⟨rfl, Except.error.inj hsame⟩

end Tour

/-! ### Checks -/

section Check

variable (root : Json)

/-- A check adds the whole log of the tour to a report if no stop fails, and else what the log has before
    the first stop that does. -/
theorem checkInto_cases (schema : Json) (place : Location) (value : Json) (report : Report) :
    ((∀ stop e, Reached root ⟨[], place, schema, value⟩ stop → ¬ stop.Fails root e) ∧
      checkInto root schema place value report =
        (report.append (reported (tour root ⟨[], place, schema, value⟩)), none)) ∨
    ∃ earlier stop later e, FirstFailing root ⟨[], place, schema, value⟩ stop e ∧
      tour root ⟨[], place, schema, value⟩ = earlier ++ .enter stop :: later ∧
      checkInto root schema place value report = (report.append (reported earlier), some e) := by
  have hvisit : visit root schema place value = replay root (tour root ⟨[], place, schema, value⟩) :=
    visit_eq_replay root ⟨[], place, schema, value⟩
  rw [checkInto, hvisit]
  rcases fine_or_first_fails root (tour root ⟨[], place, schema, value⟩) with
    hfine | ⟨earlier, stop, later, e, htour, hfails, hfine⟩
  · refine Or.inl ⟨fun stop e hreached => hfine stop e (enter_mem_tour_iff.2 hreached), ?_⟩
    rw [replay_of_fine hfine]
    rfl
  · refine Or.inr ⟨earlier, stop, later, e, firstFailing_of_tour_eq htour hfails hfine, htour, ?_⟩
    rw [htour, replay_of_fails hfine hfails]

/-- A check fails with the error of the first reached stop that fails. -/
theorem check_eq_error_iff_firstFailing (value : Json) (e : ReferenceError) :
    check root value = .error e ↔ ∃ stop, FirstFailing root ⟨[], .whole, root, value⟩ stop e := by
  have hcheck : check root value = .error e ↔ (checkInto root root .whole value .empty).2 = some e :=
    check_eq_error_iff
  rw [hcheck]
  rcases checkInto_cases root root .whole value .empty with
    ⟨hfine, hinto⟩ | ⟨earlier, stop, later, e', hfirst, -, hinto⟩
  · rw [hinto]
    refine ⟨fun h => (nomatch h), ?_⟩
    rintro ⟨stop, hstop⟩
    exact absurd hstop.fails (hfine stop e hstop.reached)
  · rw [hinto]
    constructor
    · intro h
      cases h
      exact ⟨stop, hfirst⟩
    · rintro ⟨other, hother⟩
      rw [(hfirst.unique hother).2]

/-- A check fails if a reached stop fails. -/
theorem exists_check_eq_error_iff (value : Json) :
    (∃ e, check root value = .error e) ↔
      ∃ stop e, Reached root ⟨[], .whole, root, value⟩ stop ∧ stop.Fails root e := by
  constructor
  · rintro ⟨e, h⟩
    obtain ⟨stop, hfirst⟩ := (check_eq_error_iff_firstFailing root value e).1 h
    exact ⟨stop, e, hfirst.reached, hfirst.fails⟩
  · rintro ⟨stop, e, hreached, hfails⟩
    rcases checkInto_cases root root .whole value .empty with
      ⟨hfine, -⟩ | ⟨-, first, -, e', hfirst, -⟩
    · exact absurd hfails (hfine stop e hreached)
    · exact ⟨e', (check_eq_error_iff_firstFailing root value e').2 ⟨first, hfirst⟩⟩

/-- Among the input errors, those of a check are structural. -/
theorem isStructural_of_check {value : Json} {e : InputError}
    (h : (check root value).mapError InputError.reference = .error e) : e.isStructural = true := by
  cases hcheck : check root value with
  | ok report =>
    rw [hcheck] at h
    cases h
  | error cause =>
    rw [hcheck] at h
    cases h
    exact InputError.isStructural_reference cause

/-- Errors of a check come from references that are reached, and the first of these decides. As input
    errors they are structural. A check that adds to a report leaves there what a tour, which enters the
    reached stops one after the other and does not end where they fail, logs before the first stop that
    fails. -/
theorem check_fails_iff_reached (value : Json) :
    ((∃ e, check root value = .error e) ↔
      ∃ stop e, Reached root ⟨[], .whole, root, value⟩ stop ∧ stop.Fails root e) ∧
    (∀ e, check root value = .error e ↔ ∃ stop, FirstFailing root ⟨[], .whole, root, value⟩ stop e) ∧
    (∀ e, (check root value).mapError InputError.reference = .error e → e.isStructural = true) ∧
    ∀ schema place part report,
      (∀ stop, .enter stop ∈ tour root ⟨[], place, schema, part⟩ ↔
        Reached root ⟨[], place, schema, part⟩ stop) ∧
      (entered (tour root ⟨[], place, schema, part⟩)).Pairwise Stop.Before ∧
      (((∀ stop e, Reached root ⟨[], place, schema, part⟩ stop → ¬ stop.Fails root e) ∧
          checkInto root schema place part report =
            (report.append (reported (tour root ⟨[], place, schema, part⟩)), none)) ∨
        ∃ earlier stop later e, FirstFailing root ⟨[], place, schema, part⟩ stop e ∧
          tour root ⟨[], place, schema, part⟩ = earlier ++ .enter stop :: later ∧
          checkInto root schema place part report = (report.append (reported earlier), some e)) :=
  ⟨exists_check_eq_error_iff root value, check_eq_error_iff_firstFailing root value,
    fun _ => isStructural_of_check root,
    fun schema place part report => ⟨fun _ => enter_mem_tour_iff, pairwise_entered_tour root _,
      checkInto_cases root schema place part report⟩⟩

end Check

end Conform
