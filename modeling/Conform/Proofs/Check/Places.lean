/-
Module: Conform.Proofs.Check.Places
Purpose: One visit for each place. In a value that has each key once, a place tells the stop that is
  reached there, so no place is entered twice, and the stops below a place are those reached from the stop
  there.
Main exports: visited, Reached.eq_of_place, Reached.of_under, exists_visited_of_mem_findings,
  nodup_place_visited
-/
import Mathlib.Data.List.Nodup
import Conform.Proofs.Check.Genuine

namespace Conform

open Json Relation

section Places

variable {root : Json} {start stop inner inner' other : Stop}

/-! ### Places of children -/

/-- A child is one step deeper. -/
theorem Stop.Child.depth_place (h : Child root stop inner) :
    inner.place.depth = stop.place.depth + 1 := by
  cases h with
  | member => rfl
  | element => rfl

/-- Where two children are at one place, so are the stops they are children of. -/
theorem Stop.Child.parent_place (h : Child root stop inner) (h' : Child root other inner')
    (hplace : inner.place = inner'.place) : stop.place = other.place := by
  cases h with
  | member =>
    cases h' with
    | member => exact (Location.member.inj hplace).1
    | element => cases hplace
  | element =>
    cases h' with
    | member => cases hplace
    | element => exact (Location.element.inj hplace).1

/-- Members with distinct keys are found at one position each. -/
theorem getElem?_inj_of_nodup_keys {members : List (String × Json)} (h : (members.map Prod.fst).Nodup)
    {i j : Nat} {key : String} {x y : Json} (hi : members[i]? = some (key, x))
    (hj : members[j]? = some (key, y)) : i = j := by
  have hkey : ∀ {k : Nat} {z : Json}, members[k]? = some (key, z) →
      (members.map Prod.fst)[k]? = some key := by
    intro k z hk
    rw [List.getElem?_map, hk, Option.map_some]
  by_contra hne
  rcases Nat.lt_or_gt_of_ne hne with hlt | hlt
  · exact List.nodup_iff_getElem?_ne_getElem?.1 h i j hlt (List.getElem?_eq_some_iff.1 (hkey hj)).1
      ((hkey hi).trans (hkey hj).symm)
  · exact List.nodup_iff_getElem?_ne_getElem?.1 h j i hlt (List.getElem?_eq_some_iff.1 (hkey hi)).1
      ((hkey hj).trans (hkey hi).symm)

/-- A stop whose value has each key once has one child at a place. -/
theorem Stop.Child.eq_of_place (hproper : stop.value.Proper) (h : Child root stop inner)
    (h' : Child root stop inner') (hplace : inner.place = inner'.place) : inner = inner' := by
  cases h with
  | member resolves _ object _ at_index applies =>
    cases h' with
    | member resolves' _ object' _ at_index' applies' =>
      obtain rfl := (Location.member.inj hplace).2
      obtain rfl := Except.ok.inj (resolves.symm.trans resolves')
      obtain rfl := Json.object.inj (object.symm.trans object')
      rw [object] at hproper
      obtain rfl := getElem?_inj_of_nodup_keys hproper.1 at_index at_index'
      obtain rfl := (Prod.mk.inj (Option.some.inj (at_index.symm.trans at_index'))).2
      rw [applies.unique applies']
    | element => cases hplace
  | element resolves _ array _ _ at_index applies =>
    cases h' with
    | member => cases hplace
    | element resolves' _ array' _ _ at_index' applies' =>
      obtain rfl := (Location.element.inj hplace).2
      obtain rfl := Except.ok.inj (resolves.symm.trans resolves')
      obtain rfl := Json.array.inj (array.symm.trans array')
      obtain rfl := Option.some.inj (at_index.symm.trans at_index')
      rw [applies.unique applies']

/-! ### Places of reached stops -/

/-- The value of a stop that is reached in a proper value is proper. -/
theorem Reached.proper (h : Reached root start stop) (hproper : start.value.Proper) :
    stop.value.Proper := by
  induction h with
  | refl => exact hproper
  | tail _ hchild ih => exact hchild.part.proper ih

/-- A stop that is reached is not above the start. -/
theorem Reached.depth_place_le (h : Reached root start stop) : start.place.depth ≤ stop.place.depth := by
  induction h with
  | refl => exact Nat.le_refl _
  | tail _ hchild ih =>
    rw [hchild.depth_place]
    exact Nat.le_succ_of_le ih

/-- A child of a stop that is reached is below the start. -/
theorem Reached.place_ne_of_child (h : Reached root start stop) (hchild : stop.Child root inner) :
    inner.place ≠ start.place := by
  intro hplace
  have hle := h.depth_place_le
  have hdepth := hchild.depth_place
  rw [hplace] at hdepth
  omega

/-- In a value that has each key once, a place tells the stop that is reached there. The induction is on
    the way to one of two stops at the place; the last step to both is the same. -/
theorem Reached.eq_of_place (h : Reached root start stop) (hproper : start.value.Proper)
    (hother : Reached root start other) (hplace : stop.place = other.place) : stop = other := by
  induction h generalizing other with
  | refl =>
    rcases ReflTransGen.cases_tail hother with rfl | ⟨parent, hparent, hchild⟩
    · rfl
    · exact absurd hplace.symm (Reached.place_ne_of_child hparent hchild)
  | tail hreached hchild ih =>
    rcases ReflTransGen.cases_tail hother with rfl | ⟨parent, hparent, hchild'⟩
    · exact absurd hplace (Reached.place_ne_of_child hreached hchild)
    · obtain rfl := ih hparent (hchild.parent_place hchild' hplace)
      exact hchild.eq_of_place (Reached.proper hreached hproper) hchild' hplace

/-- A stop that is reached at or below the place of another is reached from it. -/
theorem Reached.of_under (h : Reached root start stop) (hproper : start.value.Proper)
    (hother : Reached root start other) {way : Location} (hplace : other.place = way.under stop.place) :
    Reached root stop other := by
  obtain ⟨way', -, hway'⟩ := h.exists_leads
  have hbelow : stop.place.depth = way'.depth + start.place.depth := by rw [hway', Location.depth_under]
  induction hother generalizing way with
  | refl =>
    have hdepth : start.place.depth = way.depth + stop.place.depth := by
      rw [← Location.depth_under, ← hplace]
    have hway : way.depth = 0 := by omega
    obtain rfl := Location.eq_whole_of_depth hway
    rw [h.eq_of_place hproper .refl hplace.symm]
    exact .refl
  | @tail parent other hreached hchild ih =>
    -- The way ends with the step to the child, unless the child is the stop itself.
    cases way with
    | whole =>
      rw [h.eq_of_place hproper (hreached.tail hchild) hplace.symm]
      exact .refl
    | member way key =>
      have hparent : parent.place = way.under stop.place := by
        cases hchild with
        | member => exact (Location.member.inj hplace).1
        | element => cases hplace
      exact .tail (ih hparent) hchild
    | element way i =>
      have hparent : parent.place = way.under stop.place := by
        cases hchild with
        | member => cases hplace
        | element => exact (Location.element.inj hplace).1
      exact .tail (ih hparent) hchild

/-- A stop that is reached from another and is not the same is at or below the place of a child. -/
theorem Reached.exists_child (h : Reached root stop other) :
    other = stop ∨ ∃ inner way, stop.Child root inner ∧ other.place = Location.under way inner.place := by
  rcases ReflTransGen.cases_head h with rfl | ⟨inner, hchild, hreached⟩
  · exact .inl rfl
  · obtain ⟨way, -, hway⟩ := Reached.exists_leads hreached
    exact .inr ⟨inner, way, hchild, hway⟩

/-! ### Places of a visit -/

/-- The stops that a visit enters, by the log of the tour: all up to the first that fails. -/
def visited (root : Json) : List Event → List Stop
  | [] => []
  | .report _ :: rest => visited root rest
  | .enter stop :: rest =>
    match effectiveSchema root stop.schema with
    | .error _ => [stop]
    | .ok _ => stop :: visited root rest

/-- A visit enters stops as the tour does, as far as it goes. -/
theorem visited_prefix_entered (root : Json) (events : List Event) :
    visited root events <+: entered events := by
  induction events with
  | nil => exact List.prefix_refl _
  | cons event rest ih =>
    cases event with
    | report finding => exact ih
    | enter stop =>
      have hcons : entered (.enter stop :: rest) = stop :: entered rest := rfl
      rw [visited, hcons]
      cases effectiveSchema root stop.schema with
      | error e => exact ⟨entered rest, rfl⟩
      | ok target => exact List.cons_prefix_cons.2 ⟨rfl, ih⟩

/-- The stops that a visit enters are reached. -/
theorem reached_of_mem_visited (h : stop ∈ visited root (tour root start)) : Reached root start stop :=
  enter_mem_tour_iff.1 (mem_entered_iff.1 ((visited_prefix_entered root _).subset h))

/-- A longer log goes on where a shorter one is gone through to its end. -/
theorem visited_append (root : Json) (first second : List Event) :
    visited root first <+: visited root (first ++ second) ∧
      ((replay root first).failure = none →
        visited root (first ++ second) = visited root first ++ visited root second) := by
  induction first with
  | nil => exact ⟨List.nil_prefix, fun _ => rfl⟩
  | cons event rest ih =>
    cases event with
    | report finding => exact ⟨ih.1, fun h => ih.2 (Outcome.failure_andThen_eq_none_iff.1 h).2⟩
    | enter stop =>
      rw [List.cons_append, visited, visited, replay]
      cases effectiveSchema root stop.schema with
      | error e => exact ⟨List.prefix_refl _, fun h => absurd h (Option.some_ne_none e)⟩
      | ok target => exact ⟨List.cons_prefix_cons.2 ⟨rfl, ih.1⟩, fun h => congrArg (stop :: ·) (ih.2 h)⟩

/-- What is found in the logs of tasks one after the other is found in the log of a task, all of whose
    stops that are visited are so in the whole. -/
theorem exists_task_of_mem_findings {tasks : List Task} {f : Finding}
    (h : f ∈ (replay root (tasks.flatMap (Task.events root))).findings) :
    ∃ task ∈ tasks, f ∈ (replay root (task.events root)).findings ∧
      visited root (task.events root) ⊆ visited root (tasks.flatMap (Task.events root)) := by
  induction tasks with
  | nil => exact absurd h List.not_mem_nil
  | cons task rest ih =>
    obtain ⟨hfirst, hsecond⟩ := visited_append root (task.events root) (rest.flatMap (Task.events root))
    rw [List.flatMap_cons, replay_append] at h
    rw [List.flatMap_cons]
    cases hends : (replay root (task.events root)).failure with
    | some e =>
      rw [Outcome.andThen, hends] at h
      exact ⟨task, List.mem_cons_self, h, hfirst.subset⟩
    | none =>
      rw [Outcome.findings_andThen hends] at h
      rcases List.mem_append.1 h with hhere | hlater
      · exact ⟨task, List.mem_cons_self, hhere, hfirst.subset⟩
      · obtain ⟨other, hmem, hfound, hsubset⟩ := ih hlater
        refine ⟨other, List.mem_cons_of_mem task hmem, hfound, ?_⟩
        rw [hsecond hends]
        exact List.Subset.trans hsubset (List.subset_append_right _ _)

/-- What a visit finds is reported at a stop that it enters. -/
theorem exists_visited_of_mem_findings {f : Finding}
    (h : f ∈ (visit root start.schema start.place start.value).findings) :
    ∃ stop ∈ visited root (tour root start), .report f ∈ stop.tasks root := by
  rw [visit_eq_replay] at h
  induction hvalue : start.value using partInduction generalizing start with
  | step value ih =>
    subst hvalue
    rw [tour_eq, replay] at h
    rw [tour_eq, visited]
    cases hresolves : effectiveSchema root start.schema with
    | error e =>
      rw [hresolves] at h
      exact absurd h List.not_mem_nil
    | ok target =>
      rw [hresolves] at h
      obtain ⟨task, htask, hfound, hsubset⟩ := exists_task_of_mem_findings h
      cases task with
      | report finding =>
        obtain rfl : f = finding := by
          simpa [Task.events, replay, Outcome.found, Outcome.andThen] using hfound
        exact ⟨start, List.mem_cons_self, htask⟩
      | descend inner =>
        obtain ⟨stop, hstop, hreport⟩ :=
          ih inner.value (Stop.descend_mem_tasks_iff.1 htask).part hfound rfl
        exact ⟨stop, List.mem_cons_of_mem start (hsubset hstop), hreport⟩

/-- A tour of a proper value enters no place twice. -/
theorem nodup_place_entered_tour (hproper : start.value.Proper) :
    ((entered (tour root start)).map Stop.place).Nodup := by
  rw [List.Nodup, List.pairwise_map]
  refine (pairwise_entered_tour root start).imp_of_mem fun {a b} ha hb hbefore hplace => ?_
  have hreached : ∀ {stop}, stop ∈ entered (tour root start) → Reached root start stop :=
    fun h => enter_mem_tour_iff.1 (mem_entered_iff.1 h)
  obtain rfl := (hreached ha).eq_of_place hproper (hreached hb) hplace
  exact lex_asymm hbefore hbefore

/-- A visit of a proper value enters no place twice, whether it comes to an end or not. -/
theorem nodup_place_visited (hproper : start.value.Proper) :
    ((visited root (tour root start)).map Stop.place).Nodup :=
  (nodup_place_entered_tour hproper).sublist ((visited_prefix_entered root _).sublist.map _)

end Places

end Conform
