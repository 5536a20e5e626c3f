/-
Module: Conform.Proofs.Check.Genuine
Purpose: Every diagnostic is about a real place and a violation that is there. A visit reports the rules
  of the schema that counts, which the value breaks itself or at a member or element, unless they are
  passed over for a rule that comes first. A check adds findings of visits at stops that are reached,
  whether it comes to an end or not, and if it does it adds them all.
Main exports: Json.Breaks, Json.PassedOver, Genuine, report_mem_tasks_iff, checkInto_genuine
-/
import Conform.Proofs.Check.Conformance
import Conform.Proofs.Check.Reached
import Conform.Proofs.Json.Duplicates
import Conform.Proofs.Report.Location

namespace Conform

open Json

/-! ### Broken rules -/

namespace Json

/-- A value breaks a rule of a schema, at the end of a way. Most rules are broken by the value as a whole;
    a name that is missing, a member that is denied and a duplicate are told by the member or element,
    which in the first case is not there. The violation has the values that a message about it shows. -/
inductive Breaks (schema : Json) : Json → Location → Violation → Prop where
  | typeMismatch {value declared : Json} (written : schema.get? "type" = some declared)
      (named : declared ≠ .null) (rejected : ∀ entry ∈ declared.typeEntries, ¬ NameAdmits entry value) :
      Breaks schema value .whole (.typeMismatch ⟨declared⟩ value.kind)
  | constMismatch {value expected : Json} (written : schema.get? "const" = some expected)
      (differs : value.canonicalText ≠ expected.canonicalText) :
      Breaks schema value .whole (.constMismatch expected value)
  | enumMismatch {value : Json} {allowed : List Json}
      (written : schema.get? "enum" = some (.array allowed))
      (unlisted : ∀ candidate ∈ allowed, value.canonicalText ≠ candidate.canonicalText) :
      Breaks schema value .whole (.enumMismatch allowed value)
  | notAnObject {value : Json} (shaped : schema.ObjectShaped) (other : value.isObject = false) :
      Breaks schema value .whole (.notAnObject value.kind)
  | notAnArray {value : Json} (shaped : schema.ArrayShaped) (other : ∀ items, value ≠ .array items) :
      Breaks schema value .whole (.notAnArray value.kind)
  | missingRequired {members : List (String × Json)} {name : String} (shaped : schema.ObjectShaped)
      (required : schema.Requires name) (missing : ∀ part, (name, part) ∉ members) :
      Breaks schema (.object members) (.member .whole name) .missingRequired
  | additionalProperty {members : List (String × Json)} {key : String} {part : Json}
      (shaped : schema.ObjectShaped) (mem : (key, part) ∈ members) (denied : schema.Denies key) :
      Breaks schema (.object members) (.member .whole key) .additionalProperty
  | duplicateItem {items : List Json} {i : Nat} (shaped : schema.ArrayShaped)
      (wanted : schema.WantsDistinct) (repeated : HasEarlierTwin items i) :
      Breaks schema (.array items) (.element .whole i) .duplicateItem

/-- A broken rule is passed over for one that comes first: a value of the wrong type is only reported as
    that, and where an object has to be there and is not, nothing is said about arrays. -/
def PassedOver (schema value : Json) (rule : Rule) : Prop :=
  ¬ schema.TypeAllows value ∧ rule ≠ .typeMismatch ∨
    schema.ObjectShaped ∧ value.isObject = false ∧ (rule = .notAnArray ∨ rule = .duplicateItem)

variable {schema value : Json} {rule : Rule}

theorem not_passedOver_typeMismatch : ¬ schema.PassedOver value .typeMismatch := by
  simp [PassedOver]

/-- For a value of an allowed type, the rules before those about arrays are not passed over. -/
theorem not_passedOver_of_rule (htype : schema.TypeAllows value)
    (hrule : rule = .constMismatch ∨ rule = .enumMismatch ∨ rule = .notAnObject) :
    ¬ schema.PassedOver value rule := by
  rcases hrule with rfl | rfl | rfl <;> simp [PassedOver, htype]

/-- For a value of an allowed type that is an object or need not be one, nothing is passed over. -/
theorem not_passedOver_of_isObject (htype : schema.TypeAllows value)
    (hobject : schema.ObjectShaped → value.isObject = true) : ¬ schema.PassedOver value rule := by
  rintro (⟨hrejected, -⟩ | ⟨hshaped, hother, -⟩)
  · exact hrejected htype
  · rw [hobject hshaped] at hother
    cases hother

end Json

/-- A finding at a place is about a rule that the value there breaks and that is not passed over. -/
def Finding.IsBreak (target : Json) (place : Location) (value : Json) (f : Finding) : Prop :=
  ∃ way, target.Breaks value way f.violation ∧ ¬ target.PassedOver value f.violation.rule ∧
    f.location = way.under place

/-! ### Findings of one visit -/

section Findings

variable {target value : Json} {place : Location} {f : Finding}

/-- The one break of a value of the wrong type is that of `type`: all others are passed over. -/
theorem isBreak_iff_of_rejected {declared : Json} (hwritten : target.get? "type" = some declared)
    (hnamed : declared ≠ .null) (hrejected : ∀ entry ∈ declared.typeEntries, ¬ NameAdmits entry value) :
    f.IsBreak target place value ↔ f = ⟨place, .typeMismatch ⟨declared⟩ value.kind⟩ := by
  constructor
  · rcases f with ⟨location, violation⟩
    rintro ⟨way, hbreaks, hshown, rfl⟩
    have hmistyped : ¬ target.TypeAllows value := fun hallows => by
      obtain ⟨entry, hentry, hadmits⟩ := hallows declared hwritten hnamed
      exact hrejected entry hentry hadmits
    have hrule : violation.rule = .typeMismatch := by
      by_contra hother
      exact hshown (.inl ⟨hmistyped, hother⟩)
    cases hbreaks with
    | typeMismatch written =>
      obtain rfl := Option.some.inj (hwritten.symm.trans written)
      rfl
    | _ => cases hrule
  · rintro rfl
    exact ⟨.whole, .typeMismatch hwritten hnamed hrejected, not_passedOver_typeMismatch, rfl⟩

/-- What is found about a value itself is that it breaks `const` or `enum`. -/
theorem isBreak_of_mem_valueFindings (htype : target.TypeAllows value)
    (h : f ∈ (Node.ofJson target).valueFindings place value) : f.IsBreak target place value := by
  obtain ⟨violation, hmem, rfl⟩ := List.mem_map.1 h
  rcases List.mem_append.1 hmem with hconst | henum
  · by_cases hallows : target.ConstAllows value
    · rw [Node.constViolations_ofJson_eq_nil_iff.2 hallows] at hconst
      cases hconst
    · obtain ⟨expected, hwritten, hdiffers, hfound⟩ := Node.constViolations_ofJson_of_not_allows hallows
      obtain rfl := List.mem_singleton.1 (hfound ▸ hconst)
      exact ⟨.whole, .constMismatch hwritten hdiffers, not_passedOver_of_rule htype (.inl rfl), rfl⟩
  · by_cases hallows : target.EnumAllows value
    · rw [Node.enumViolations_ofJson_eq_nil_iff.2 hallows] at henum
      cases henum
    · obtain ⟨allowed, hwritten, hunlisted, hfound⟩ := Node.enumViolations_ofJson_of_not_allows hallows
      obtain rfl := List.mem_singleton.1 (hfound ▸ henum)
      exact ⟨.whole, .enumMismatch hwritten hunlisted,
        not_passedOver_of_rule htype (.inr (.inl rfl)), rfl⟩

/-- What is found about required names is a name that the object does not have. -/
theorem isBreak_of_mem_missingFindings {members : List (String × Json)}
    (htype : target.TypeAllows (.object members)) (hshaped : target.ObjectShaped)
    (h : f ∈ (Node.ofJson target).missingFindings place members) :
    f.IsBreak target place (.object members) := by
  obtain ⟨name, hmem, rfl⟩ := List.mem_map.1 h
  obtain ⟨hrequired, hmissing⟩ := List.mem_filter.1 hmem
  exact ⟨.member .whole name, .missingRequired hshaped (Node.mem_required_ofJson_iff.1 hrequired)
    (lookup_isNone_iff.1 hmissing), not_passedOver_of_isObject htype fun _ => rfl, rfl⟩

/-- What is found about duplicates is an element with an earlier twin. -/
theorem isBreak_of_mem_duplicateFindings {items : List Json} (htype : target.TypeAllows (.array items))
    (hshaped : target.ArrayShaped) (hunshaped : ¬ target.ObjectShaped)
    (h : f ∈ (Node.ofJson target).duplicateFindings place items) :
    f.IsBreak target place (.array items) := by
  rw [Node.duplicateFindings] at h
  by_cases hdistinct : (Node.ofJson target).distinct = true
  · rw [if_pos hdistinct] at h
    obtain ⟨i, hmem, rfl⟩ := List.mem_map.1 h
    exact ⟨.element .whole i, .duplicateItem hshaped (Node.distinct_ofJson_iff.1 hdistinct)
      (mem_laterDuplicates_iff.1 hmem), not_passedOver_of_isObject htype fun h => absurd h hunshaped, rfl⟩
  · rw [if_neg hdistinct] at h
    exact absurd h List.not_mem_nil

/-- What is found about the shape of a value without parts is that it is no object or no array. -/
theorem isBreak_of_mem_shapeFindings (htype : target.TypeAllows value) (hobject : value.isObject = false)
    (harray : ∀ items, value ≠ .array items)
    (h : f ∈ (Node.ofJson target).shapeFindings place value.kind) : f.IsBreak target place value := by
  rw [Node.shapeFindings] at h
  by_cases hwants : (Node.ofJson target).wantsObject = true
  · obtain rfl : f = ⟨place, .notAnObject value.kind⟩ := by simpa [hwants] using h
    exact ⟨.whole, .notAnObject (Node.wantsObject_ofJson_iff.1 hwants) hobject,
      not_passedOver_of_rule htype (.inr (.inr rfl)), rfl⟩
  · have hunshaped : ¬ target.ObjectShaped := mt Node.wantsObject_ofJson_iff.2 hwants
    by_cases hwants' : (Node.ofJson target).wantsArray = true
    · obtain rfl : f = ⟨place, .notAnArray value.kind⟩ := by simpa [hwants, hwants'] using h
      exact ⟨.whole, .notAnArray (Node.wantsArray_ofJson_iff.1 hwants') harray,
        not_passedOver_of_isObject htype fun h => absurd h hunshaped, rfl⟩
    · simp [hwants, hwants'] at h

end Findings

/-! ### Reports of one visit -/

section Tasks

variable {root target : Json} {start stop : Stop} {f : Finding}

theorem report_mem_map_report_iff {findings : List Finding} :
    .report f ∈ findings.map Task.report ↔ f ∈ findings := by
  simp

/-- What a visit reports about a member is that it is denied. -/
theorem memberTask?_eq_report_iff {key : String} {part : Json} {i : Nat} :
    stop.memberTask? (Node.ofJson target) ((key, part), i) = some (.report f) ↔
      target.Denies key ∧ f = ⟨stop.place.member key, .additionalProperty⟩ := by
  rw [Stop.memberTask?, ← Node.memberRule_ofJson_eq_deny_iff]
  cases (Node.ofJson target).memberRule key <;> simp [eq_comm]

/-- What a visit reports about an object, its members apart: missing names, denied members, and that it is
    no array. -/
theorem isBreak_of_report_mem_partTasks_object {members : List (String × Json)}
    (htype : target.TypeAllows (.object members))
    (h : .report f ∈ stop.partTasks (Node.ofJson target) (.object members)) :
    f.IsBreak target stop.place (.object members) := by
  rw [Stop.partTasks] at h
  rcases List.mem_append.1 h with hmem | hmem
  · by_cases hobject : (Node.ofJson target).wantsObject = true
    · have hshaped := Node.wantsObject_ofJson_iff.1 hobject
      rw [if_pos hobject] at hmem
      rcases List.mem_append.1 hmem with hmissing | hmember
      · exact isBreak_of_mem_missingFindings htype hshaped (report_mem_map_report_iff.1 hmissing)
      · obtain ⟨⟨⟨key, part⟩, i⟩, hzip, htask⟩ := List.mem_filterMap.1 hmember
        obtain ⟨hdenied, rfl⟩ := memberTask?_eq_report_iff.1 htask
        exact ⟨.member .whole key, .additionalProperty hshaped (List.fst_mem_of_mem_zipIdx hzip) hdenied,
          not_passedOver_of_isObject htype fun _ => rfl, rfl⟩
    · rw [if_neg hobject] at hmem
      exact absurd hmem List.not_mem_nil
  · by_cases harray : (Node.ofJson target).wantsArray = true
    · obtain rfl : f = ⟨stop.place, .notAnArray .object⟩ := by simpa [harray] using hmem
      exact ⟨.whole, .notAnArray (Node.wantsArray_ofJson_iff.1 harray) (fun _ => Json.noConfusion),
        not_passedOver_of_isObject htype fun _ => rfl, rfl⟩
    · rw [if_neg harray] at hmem
      exact absurd hmem List.not_mem_nil

/-- What a visit reports about an array, its elements apart: that it is no object, else duplicates. -/
theorem isBreak_of_report_mem_partTasks_array {items : List Json}
    (htype : target.TypeAllows (.array items))
    (h : .report f ∈ stop.partTasks (Node.ofJson target) (.array items)) :
    f.IsBreak target stop.place (.array items) := by
  rw [Stop.partTasks] at h
  by_cases hobject : (Node.ofJson target).wantsObject = true
  · obtain rfl : f = ⟨stop.place, .notAnObject .array⟩ := by simpa [hobject] using h
    exact ⟨.whole, .notAnObject (Node.wantsObject_ofJson_iff.1 hobject) rfl,
      not_passedOver_of_rule htype (.inr (.inr rfl)), rfl⟩
  · by_cases harray : (Node.ofJson target).wantsArray = true
    · rw [if_neg hobject, if_pos harray] at h
      rcases List.mem_append.1 h with helement | hduplicate
      · obtain ⟨⟨part, i⟩, -, htask⟩ := List.mem_filterMap.1 helement
        simp [Stop.elementTask?] at htask
      · exact isBreak_of_mem_duplicateFindings htype (Node.wantsArray_ofJson_iff.1 harray)
          (mt Node.wantsObject_ofJson_iff.2 hobject) (report_mem_map_report_iff.1 hduplicate)
    · simp [hobject, harray] at h

/-- What a visit reports about the parts and the shape of a value is a break of the schema. -/
theorem isBreak_of_report_mem_partTasks {value : Json} (htype : target.TypeAllows value)
    (h : .report f ∈ stop.partTasks (Node.ofJson target) value) : f.IsBreak target stop.place value := by
  cases value with
  | object members => exact isBreak_of_report_mem_partTasks_object htype h
  | array items => exact isBreak_of_report_mem_partTasks_array htype h
  | _ =>
    exact isBreak_of_mem_shapeFindings htype rfl (fun _ => Json.noConfusion)
      (report_mem_map_report_iff.1 h)

/-! ### Broken rules are reported -/

/-- A rule that a value of an allowed type breaks, and that is not passed over, is reported. -/
theorem report_mem_of_breaks {value : Json} {way : Location} {violation : Violation}
    (htype : target.TypeAllows value) (hbreaks : target.Breaks value way violation)
    (hshown : ¬ target.PassedOver value violation.rule) :
    .report ⟨way.under stop.place, violation⟩ ∈
      ((Node.ofJson target).valueFindings stop.place value).map .report ++
        stop.partTasks (Node.ofJson target) value := by
  rw [List.mem_append, report_mem_map_report_iff]
  cases hbreaks with
  | typeMismatch written named rejected =>
    obtain ⟨entry, hentry, hadmits⟩ := htype _ written named
    exact absurd hadmits (rejected entry hentry)
  | constMismatch written differs =>
    obtain ⟨expected, hwritten, -, hfound⟩ :=
      Node.constViolations_ofJson_of_not_allows fun hallows => differs (hallows _ written)
    obtain rfl := Option.some.inj (written.symm.trans hwritten)
    exact .inl (List.mem_map_of_mem (List.mem_append_left _ (hfound ▸ List.mem_singleton_self _)))
  | enumMismatch written unlisted =>
    obtain ⟨allowed, hwritten, -, hfound⟩ := Node.enumViolations_ofJson_of_not_allows fun hallows => by
      obtain ⟨candidate, hmem, hsame⟩ := hallows _ written
      exact unlisted candidate hmem hsame
    obtain rfl := Json.array.inj (Option.some.inj (written.symm.trans hwritten))
    exact .inl (List.mem_map_of_mem (List.mem_append_right _ (hfound ▸ List.mem_singleton_self _)))
  | notAnObject shaped other =>
    have hwants := Node.wantsObject_ofJson_iff.2 shaped
    refine .inr ?_
    cases value with
    | object members => cases other
    | array items => simp [Stop.partTasks, hwants, Json.kind]
    | _ => simp [Stop.partTasks, Node.shapeFindings, hwants]
  | notAnArray shaped other =>
    have hwants := Node.wantsArray_ofJson_iff.2 shaped
    refine .inr ?_
    cases value with
    | object members => simp [Stop.partTasks, hwants, Json.kind]
    | array items => exact absurd rfl (other items)
    | _ =>
      have hunshaped := mt Node.wantsObject_ofJson_iff.1 fun h => hshown (.inr ⟨h, rfl, .inl rfl⟩)
      simp [Stop.partTasks, Node.shapeFindings, hwants, hunshaped]
  | @missingRequired members name shaped required missing =>
    rw [Stop.partTasks, if_pos (Node.wantsObject_ofJson_iff.2 shaped)]
    refine .inr (List.mem_append_left _ (List.mem_append_left _ (report_mem_map_report_iff.2 ?_)))
    exact List.mem_map.2 ⟨name, List.mem_filter.2
      ⟨Node.mem_required_ofJson_iff.2 required, lookup_isNone_iff.2 missing⟩, rfl⟩
  | @additionalProperty members key part shaped mem denied =>
    obtain ⟨i, hget⟩ := List.getElem?_of_mem mem
    rw [Stop.partTasks, if_pos (Node.wantsObject_ofJson_iff.2 shaped)]
    refine .inr (List.mem_append_left _ (List.mem_append_right _ (List.mem_filterMap.2 ?_)))
    exact ⟨((key, part), i), List.mk_mem_zipIdx_iff_getElem?.2 hget,
      memberTask?_eq_report_iff.2 ⟨denied, rfl⟩⟩
  | @duplicateItem items i shaped wanted repeated =>
    have hunshaped := mt Node.wantsObject_ofJson_iff.1 fun h => hshown (.inr ⟨h, rfl, .inr rfl⟩)
    rw [Stop.partTasks, if_neg hunshaped, if_pos (Node.wantsArray_ofJson_iff.2 shaped)]
    refine .inr (List.mem_append_right _ (report_mem_map_report_iff.2 ?_))
    rw [Node.duplicateFindings, if_pos (Node.distinct_ofJson_iff.2 wanted)]
    exact List.mem_map.2 ⟨i, mem_laterDuplicates_iff.2 repeated, rfl⟩

/-- What a visit reports at a stop are the rules of the schema that counts there which the value breaks
    and which are not passed over. -/
theorem report_mem_tasks_iff : .report f ∈ stop.tasks root ↔
    ∃ target, effectiveSchema root stop.schema = .ok target ∧ f.IsBreak target stop.place stop.value := by
  cases hresolves : effectiveSchema root stop.schema with
  | error e => simp [Stop.tasks_of_fails hresolves]
  | ok target =>
    simp only [Except.ok.injEq, exists_eq_left']
    by_cases htype : target.TypeAllows stop.value
    · rw [Stop.tasks_of_typed hresolves (Node.typeViolation?_ofJson_eq_none_iff.2 htype)]
      constructor
      · intro h
        rcases List.mem_append.1 h with hvalue | hparts
        · exact isBreak_of_mem_valueFindings htype (report_mem_map_report_iff.1 hvalue)
        · exact isBreak_of_report_mem_partTasks htype hparts
      · rcases f with ⟨place, violation⟩
        rintro ⟨way, hbreaks, hshown, rfl⟩
        exact report_mem_of_breaks htype hbreaks hshown
    · obtain ⟨declared, hwritten, hnamed, hrejected, hfound⟩ :=
        Node.typeViolation?_ofJson_of_not_allows htype
      rw [Stop.tasks_of_mistyped hresolves hfound, isBreak_iff_of_rejected hwritten hnamed hrejected]
      simp

/-! ### Reports of a walk -/

/-- What a tour reports is reported at the stops that are reached. -/
theorem report_mem_tour_iff :
    .report f ∈ tour root start ↔ ∃ stop, Reached root start stop ∧ .report f ∈ stop.tasks root := by
  constructor
  · intro h
    induction hvalue : start.value using partInduction generalizing start with
    | step value ih =>
      subst hvalue
      rw [tour_eq, List.mem_cons, or_iff_right (by simp), List.mem_flatMap] at h
      obtain ⟨task, htask, hmem⟩ := h
      cases task with
      | report finding =>
        obtain rfl : f = finding := by simpa [Task.events] using hmem
        exact ⟨start, .refl, htask⟩
      | descend inner =>
        have hchild := Stop.descend_mem_tasks_iff.1 htask
        obtain ⟨stop, hreached, hstop⟩ := ih inner.value hchild.part hmem rfl
        exact ⟨stop, .head hchild hreached, hstop⟩
  · rintro ⟨stop, hreached, htask⟩
    obtain ⟨earlier, later, htour⟩ := exists_tour_eq_of_reached hreached
    rw [htour]
    refine List.mem_append_left _ (List.mem_append_right _ ?_)
    rw [tour_eq]
    exact List.mem_cons_of_mem _ (List.mem_flatMap.2 ⟨.report f, htask, List.mem_singleton_self _⟩)

/-- What is found in a log up to its first failure is reported in the log. -/
theorem report_mem_of_mem_findings_replay {events : List Event} (h : f ∈ (replay root events).findings) :
    .report f ∈ events := by
  induction events with
  | nil => exact absurd h List.not_mem_nil
  | cons event rest ih =>
    cases event with
    | enter stop =>
      rw [replay] at h
      cases hresolves : effectiveSchema root stop.schema with
      | error e =>
        rw [hresolves] at h
        exact absurd h List.not_mem_nil
      | ok target =>
        rw [hresolves] at h
        exact List.mem_cons_of_mem _ (ih h)
    | report finding =>
      have hcons : f ∈ finding :: (replay root rest).findings := h
      rcases List.mem_cons.1 hcons with rfl | hrest
      · exact List.mem_cons_self
      · exact List.mem_cons_of_mem _ (ih hrest)

theorem mem_reported_iff {events : List Event} : f ∈ reported events ↔ .report f ∈ events := by
  rw [reported, List.mem_filterMap]
  constructor
  · rintro ⟨event, hmem, hfinding⟩
    cases event with
    | enter stop => cases hfinding
    | report finding =>
      cases hfinding
      exact hmem
  · intro h
    exact ⟨_, h, rfl⟩

/-- A visit that comes to an end finds what is reported at the stops that are reached, and one that does
    not finds nothing else. -/
theorem mem_findings_visit (start : Stop) :
    (∀ f ∈ (visit root start.schema start.place start.value).findings,
      ∃ stop, Reached root start stop ∧ .report f ∈ stop.tasks root) ∧
    ((visit root start.schema start.place start.value).failure = none →
      ∀ f stop, Reached root start stop → .report f ∈ stop.tasks root →
        f ∈ (visit root start.schema start.place start.value).findings) := by
  constructor
  · intro f hf
    rw [visit_eq_replay] at hf
    exact report_mem_tour_iff.1 (report_mem_of_mem_findings_replay hf)
  · intro hends f stop hreached htask
    rw [visit_eq_found_reported hends]
    exact mem_reported_iff.2 (report_mem_tour_iff.2 ⟨stop, hreached, htask⟩)

/-- A way leads from the value at the start to the value at a stop that is reached. -/
theorem Reached.exists_leads (h : Reached root start stop) :
    ∃ way, Location.Leads start.value way stop.value ∧ stop.place = way.under start.place := by
  induction h with
  | refl => exact ⟨.whole, .whole, (Location.whole_under _).symm⟩
  | tail _ hchild ih =>
    obtain ⟨way, hleads, hplace⟩ := ih
    cases hchild with
    | @member _ _ _ _ _ key _ _ object _ at_index _ =>
      rw [object] at hleads
      exact ⟨way.member key, hleads.member (List.mem_of_getElem? at_index),
        congrArg (·.member key) hplace⟩
    | @element _ _ _ _ i _ _ array _ _ at_index _ =>
      rw [array] at hleads
      exact ⟨way.element i, hleads.element at_index, congrArg (·.element i) hplace⟩

end Tasks

/-! ### Diagnostics of a check -/

/-- A diagnostic is about a real place and a violation that is there: a way leads from the value at the
    start to the value at a stop that is reached, and the value breaks a rule of the schema that counts at
    the stop. The diagnostic shows the violation, with the path of the place where it is broken. -/
inductive Genuine (root : Json) (start : Stop) : Diagnostic → Prop where
  | intro {stop : Stop} {target : Json} {way broken : Location} {violation : Violation}
      (reached : Reached root start stop) (leads : Location.Leads start.value way stop.value)
      (place : stop.place = way.under start.place)
      (resolves : effectiveSchema root stop.schema = .ok target)
      (breaks : target.Breaks stop.value broken violation)
      (shown : ¬ target.PassedOver stop.value violation.rule) :
      Genuine root start (Finding.diagnostic ⟨(broken.under way).under start.place, violation⟩)

/-- The genuine diagnostics are those of what is reported at the stops that are reached. -/
theorem genuine_iff {root : Json} {start : Stop} {d : Diagnostic} : Genuine root start d ↔
    ∃ f stop, Reached root start stop ∧ .report f ∈ stop.tasks root ∧ f.diagnostic = d := by
  constructor
  · rintro ⟨reached, leads, place, resolves, breaks, shown⟩
    refine ⟨_, _, reached, report_mem_tasks_iff.2 ⟨_, resolves, _, breaks, shown, ?_⟩, rfl⟩
    rw [place, Location.under_under]
  · rintro ⟨⟨location, violation⟩, stop, hreached, htask, rfl⟩
    obtain ⟨target, hresolves, broken, hbreaks, hshown, rfl⟩ := report_mem_tasks_iff.1 htask
    obtain ⟨way, hleads, hplace⟩ := hreached.exists_leads
    rw [hplace, ← Location.under_under]
    exact .intro hreached hleads hplace hresolves hbreaks hshown

/-- All diagnostics that a check adds to a report are genuine, whether it comes to an end or not; and if
    it does, it adds all genuine ones. -/
theorem checkInto_genuine (root schema : Json) (place : Location) (value : Json) (report : Report) :
    ∃ added, (checkInto root schema place value report).1.items = report.items ++ added ∧
      (∀ d ∈ added, Genuine root ⟨[], place, schema, value⟩ d) ∧
      ((checkInto root schema place value report).2 = none →
        ∀ d, Genuine root ⟨[], place, schema, value⟩ d → d ∈ added) := by
  obtain ⟨hsound, hcomplete⟩ := @mem_findings_visit root ⟨[], place, schema, value⟩
  refine ⟨(visit root schema place value).findings.map Finding.diagnostic, rfl, fun d hd => ?_,
    fun hends d hd => ?_⟩
  · obtain ⟨f, hf, rfl⟩ := List.mem_map.1 hd
    obtain ⟨stop, hreached, htask⟩ := hsound f hf
    exact genuine_iff.2 ⟨f, stop, hreached, htask, rfl⟩
  · obtain ⟨f, stop, hreached, htask, rfl⟩ := genuine_iff.1 hd
    exact List.mem_map_of_mem (hcomplete hends f stop hreached htask)

/-- A name that is missing in a member: the diagnostic is genuine, and the check, which comes to an end,
    adds it. -/
theorem checkInto_genuine_missing :
    let owner : Json := .object [("required", .array [.string "name"])]
    let root : Json := .object [("properties", .object [("owner", owner)])]
    let value : Json := .object [("owner", .object [])]
    let missing : Diagnostic := ⟨"$.owner.name", .missingRequired, "missing required property"⟩
    (checkInto root root .whole value .empty).2 = none ∧ Genuine root ⟨[], .whole, root, value⟩ missing ∧
      missing ∈ (checkInto root root .whole value .empty).1.items := by
  intro owner root value missing
  have hends : (checkInto root root .whole value .empty).2 = none := by decide +kernel
  have hreached : Reached root ⟨[], .whole, root, value⟩
      ⟨[0], .member .whole "owner", owner, .object []⟩ :=
    .single (.member rfl (fun _ h => nomatch h) rfl (.inr (.inl ⟨_, rfl⟩)) rfl (.listed rfl))
  have hleads : Location.Leads value (.member .whole "owner") (.object []) :=
    .member .whole List.mem_cons_self
  have hbreaks : owner.Breaks (.object []) (.member .whole "name") .missingRequired :=
    .missingRequired (.inr (.inr (.inl ⟨_, rfl⟩))) ⟨_, rfl, List.mem_cons_self⟩ fun _ => List.not_mem_nil
  have hshown : ¬ owner.PassedOver (.object []) .missingRequired :=
    not_passedOver_of_isObject (fun _ h => nomatch h) fun _ => rfl
  have hgenuine : Genuine root ⟨[], .whole, root, value⟩ missing := by
    have hdiagnostic : missing = Finding.diagnostic
        ⟨.member (.member .whole "owner") "name", .missingRequired⟩ := by decide +kernel
    rw [hdiagnostic]
    exact .intro hreached hleads rfl rfl hbreaks hshown
  obtain ⟨added, hitems, -, hcomplete⟩ := checkInto_genuine root root .whole value .empty
  refine ⟨hends, hgenuine, ?_⟩
  rw [hitems]
  exact List.mem_append_right _ (hcomplete hends missing hgenuine)

end Conform
