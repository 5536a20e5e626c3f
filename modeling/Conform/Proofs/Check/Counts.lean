/-
Module: Conform.Proofs.Check.Counts
Purpose: How often a rule is reported at a place. What a walk reports is what the stops report that it
  enters, and a place and a rule tell the stop that reports it. Each rule is reported at a place at most
  once, but for a missing name: it is reported as often as the schema lists it under `required`.
Main exports: timesReported, home, Stop.findings, reported_tour_perm, home_site,
  Stop.timesReported_missingRequired, check_reports_once
-/
import Conform.Proofs.Check.Congruence
import Conform.Proofs.Check.Places

namespace Conform

open Json

/-! ### Sites -/

/-- How often a rule is reported at a place. -/
def timesReported (findings : List Finding) (place : Location) (rule : Rule) : Nat :=
  (findings.map Finding.site).count (place, rule)

/-- The place of the stop that reports a rule at a place: the place itself, or the one above for rules
    that are told by a member or an element. -/
def home : Location × Rule → Location
  | (.member parent _, .missingRequired) => parent
  | (.member parent _, .additionalProperty) => parent
  | (.element parent _, .duplicateItem) => parent
  | (place, _) => place

/-- Two findings are at different places or about different rules, unless both are about a name that is
    missing. -/
def Finding.Apart (f g : Finding) : Prop := f.site = g.site → f.violation.rule = .missingRequired

section Sites

variable {f g : Finding} {findings first second : List Finding} {place : Location} {rule : Rule}

theorem Finding.Apart.symm (h : f.Apart g) : g.Apart f := fun hsite =>
  (congrArg Prod.snd hsite).trans (h hsite.symm)

theorem Finding.Apart.of_rule_ne (h : f.violation.rule ≠ g.violation.rule) : f.Apart g := fun hsite =>
  absurd (congrArg Prod.snd hsite) h

/-- Of findings that are apart, at most one is about a rule at a place, other than a missing name. -/
theorem timesReported_le_one (h : findings.Pairwise Finding.Apart) (hrule : rule ≠ .missingRequired) :
    timesReported findings place rule ≤ 1 := by
  by_contra hmore
  have htwice : List.Sublist [(place, rule), (place, rule)] (findings.map Finding.site) :=
    List.replicate_sublist_iff.2 (Nat.lt_of_not_le hmore)
  have hsites : (findings.map Finding.site).Pairwise fun s t => s = t → s.2 = .missingRequired :=
    List.pairwise_map.2 h
  have hpair := hsites.sublist htwice
  exact hrule (List.rel_of_pairwise_cons hpair List.mem_cons_self rfl)

theorem timesReported_append :
    timesReported (first ++ second) place rule =
      timesReported first place rule + timesReported second place rule := by
  rw [timesReported, List.map_append, List.count_append]
  rfl

/-- Findings about other rules are apart from those before them. -/
theorem pairwise_apart_append (hfirst : first.Pairwise Finding.Apart)
    (hsecond : second.Pairwise Finding.Apart)
    (h : ∀ f ∈ first, ∀ g ∈ second, f.violation.rule ≠ g.violation.rule) :
    (first ++ second).Pairwise Finding.Apart :=
  List.pairwise_append.2 ⟨hfirst, hsecond, fun f hf g hg => .of_rule_ne (h f hf g hg)⟩

theorem timesReported_eq_zero_iff :
    timesReported findings place rule = 0 ↔ ∀ f ∈ findings, f.site ≠ (place, rule) := by
  rw [timesReported, List.count_eq_zero, List.mem_map]
  simp only [not_exists, not_and, ne_eq]

/-- A rule is not reported by findings about other rules. -/
theorem timesReported_eq_zero (h : ∀ f ∈ findings, f.violation.rule ≠ rule) :
    timesReported findings place rule = 0 :=
  timesReported_eq_zero_iff.2 fun f hf hsite => h f hf (congrArg Prod.snd hsite)

end Sites

/-! ### Findings of a stop -/

/-- The finding that a task reports. -/
def Task.finding? : Task → Option Finding
  | .report finding => some finding
  | .descend _ => none

/-- The findings that a visit reports at a stop, its parts left out, in order. -/
def Stop.findings (root : Json) (stop : Stop) : List Finding := (stop.tasks root).filterMap Task.finding?

section Stops

variable {root target : Json} {start stop other : Stop} {f : Finding}

theorem Stop.mem_findings_iff : f ∈ stop.findings root ↔ .report f ∈ stop.tasks root := by
  rw [Stop.findings, List.mem_filterMap]
  constructor
  · rintro ⟨task, htask, hfinding⟩
    cases task with
    | report finding =>
      cases hfinding
      exact htask
    | descend inner => cases hfinding
  · intro h
    exact ⟨_, h, rfl⟩

/-- The place and the rule of a finding tell the place of the stop that reports it. -/
theorem home_site (h : f ∈ stop.findings root) : home f.site = stop.place := by
  rcases f with ⟨location, violation⟩
  obtain ⟨target, -, way, hbreaks, -, hlocation⟩ := report_mem_tasks_iff.1 (Stop.mem_findings_iff.1 h)
  obtain rfl : location = way.under stop.place := hlocation
  generalize stop.value = value at hbreaks
  cases hbreaks with
  | missingRequired | additionalProperty | duplicateItem => rfl
  | _ => cases stop.place <;> rfl

theorem filterMap_finding?_map_report (findings : List Finding) :
    (findings.map Task.report).filterMap Task.finding? = findings := by
  rw [List.filterMap_map]
  exact List.filterMap_some

/-! ### Findings of one kind -/

theorem constViolations_cases (node : Node) (value : Json) : node.constViolations value = [] ∨
    ∃ expected, node.constViolations value = [.constMismatch expected value] := by
  rw [Node.constViolations]
  cases node.const with
  | none => exact .inl rfl
  | some expected =>
    by_cases hsame : value.equivalent expected = true
    · exact .inl (if_pos hsame)
    · exact .inr ⟨expected, if_neg hsame⟩

theorem enumViolations_cases (node : Node) (value : Json) : node.enumViolations value = [] ∨
    ∃ allowed, node.enumViolations value = [.enumMismatch allowed value] := by
  rw [Node.enumViolations]
  cases node.enum with
  | none => exact .inl rfl
  | some allowed =>
    by_cases hlisted : allowed.any value.equivalent = true
    · exact .inl (if_pos hlisted)
    · exact .inr ⟨allowed, if_neg hlisted⟩

/-- A value is compared with `const` and with `enum` once each. -/
theorem pairwise_valueFindings (node : Node) (place : Location) (value : Json) :
    (node.valueFindings place value).Pairwise Finding.Apart := by
  rw [Node.valueFindings]
  rcases constViolations_cases node value with hconst | ⟨expected, hconst⟩ <;>
    rcases enumViolations_cases node value with henum | ⟨allowed, henum⟩ <;>
      simp [hconst, henum, Finding.Apart, Finding.site, Violation.rule]

theorem rule_of_mem_valueFindings {node : Node} {place : Location} {value : Json}
    (h : f ∈ node.valueFindings place value) :
    f.violation.rule = .constMismatch ∨ f.violation.rule = .enumMismatch := by
  obtain ⟨violation, hmem, rfl⟩ := List.mem_map.1 h
  rcases List.mem_append.1 hmem with hconst | henum
  · rcases constViolations_cases node value with hnone | ⟨expected, hone⟩
    · rw [hnone] at hconst
      cases hconst
    · obtain rfl := List.mem_singleton.1 (hone ▸ hconst)
      exact .inl rfl
  · rcases enumViolations_cases node value with hnone | ⟨allowed, hone⟩
    · rw [hnone] at henum
      cases henum
    · obtain rfl := List.mem_singleton.1 (hone ▸ henum)
      exact .inr rfl

theorem rule_of_mem_missingFindings {node : Node} {place : Location} {members : List (String × Json)}
    (h : f ∈ node.missingFindings place members) : f.violation.rule = .missingRequired := by
  obtain ⟨name, -, rfl⟩ := List.mem_map.1 h
  rfl

/-- The findings about missing names are apart by definition. -/
theorem pairwise_missingFindings (node : Node) (place : Location) (members : List (String × Json)) :
    (node.missingFindings place members).Pairwise Finding.Apart :=
  List.pairwise_of_forall_mem_list fun _ hf _ _ _ => rule_of_mem_missingFindings hf

/-- A missing name is found as often as it is listed. -/
theorem timesReported_missingFindings {node : Node} {place : Location} {members : List (String × Json)}
    {name : String} (h : (members.lookup name).isNone = true) :
    timesReported (node.missingFindings place members) (place.member name) .missingRequired =
      node.required.count name := by
  let site : String → Location × Rule := fun name => (place.member name, .missingRequired)
  have hsites : (node.missingFindings place members).map Finding.site =
      (node.required.filter fun name => (members.lookup name).isNone).map site := by
    rw [Node.missingFindings, List.map_map]
    rfl
  have hinjective : Function.Injective site := fun name name' heq =>
    (Location.member.inj (Prod.mk.inj heq).1).2
  rw [timesReported, hsites]
  exact (List.count_map_of_injective _ site hinjective name).trans (List.count_filter h)

/-- What is reported about members and not by their visits is that they are denied. -/
theorem finding_of_memberTask? {node : Node} {member : (String × Json) × Nat}
    (h : (stop.memberTask? node member).bind Task.finding? = some f) :
    f = ⟨stop.place.member member.1.1, .additionalProperty⟩ := by
  rcases member with ⟨⟨key, part⟩, i⟩
  rw [Stop.memberTask?] at h
  cases hrule : node.memberRule key with
  | deny =>
    rw [hrule] at h
    cases h
    rfl
  | _ =>
    rw [hrule] at h
    cases h

/-- The findings about the members of an object, in order. -/
def Stop.deniedFindings (stop : Stop) (node : Node) (members : List (String × Json)) : List Finding :=
  members.zipIdx.filterMap fun member => (stop.memberTask? node member).bind Task.finding?

theorem rule_of_mem_deniedFindings {node : Node} {members : List (String × Json)}
    (h : f ∈ stop.deniedFindings node members) : f.violation.rule = .additionalProperty := by
  obtain ⟨member, -, hfinding⟩ := List.mem_filterMap.1 h
  rw [finding_of_memberTask? hfinding]
  rfl

/-- Members with distinct keys are denied at different places. -/
theorem pairwise_deniedFindings (node : Node) {members : List (String × Json)}
    (h : (members.map Prod.fst).Nodup) : (stop.deniedFindings node members).Pairwise Finding.Apart := by
  have hkeys : members.zipIdx.Pairwise fun a b => a.1.1 ≠ b.1.1 := by
    have hzip : members.zipIdx.map (Prod.fst ∘ Prod.fst) = members.map Prod.fst := by
      rw [← List.map_map, List.zipIdx_map_fst]
    exact List.pairwise_map.1 (hzip ▸ h)
  rw [Stop.deniedFindings, List.pairwise_filterMap]
  refine hkeys.imp fun hne f hf g hg hsite => ?_
  rw [finding_of_memberTask? hf, finding_of_memberTask? hg] at hsite
  exact absurd (Location.member.inj (Prod.mk.inj hsite).1).2 hne

theorem rule_of_mem_duplicateFindings {node : Node} {place : Location} {items : List Json}
    (h : f ∈ node.duplicateFindings place items) : f.violation.rule = .duplicateItem := by
  rw [Node.duplicateFindings] at h
  split at h
  · obtain ⟨i, -, rfl⟩ := List.mem_map.1 h
    rfl
  · cases h

/-- Duplicates are found at different positions. -/
theorem pairwise_duplicateFindings (node : Node) (place : Location) (items : List Json) :
    (node.duplicateFindings place items).Pairwise Finding.Apart := by
  rw [Node.duplicateFindings]
  split
  · refine List.pairwise_map.2 ((pairwise_laterDuplicates items).imp fun hlt hsite => ?_)
    exact absurd (Location.element.inj (Prod.mk.inj hsite).1).2 (Nat.ne_of_lt hlt)
  · exact .nil

/-! ### Findings of one stop -/

/-- What a stop reports about the parts and the shape of its value. -/
def Stop.partFindings (stop : Stop) (node : Node) : Json → List Finding
  | .object members =>
    (if node.wantsObject then
        node.missingFindings stop.place members ++ stop.deniedFindings node members
      else []) ++
    (if node.wantsArray then [⟨stop.place, .notAnArray .object⟩] else [])
  | .array items =>
    if node.wantsObject then [⟨stop.place, .notAnObject .array⟩]
    else if node.wantsArray then node.duplicateFindings stop.place items
    else []
  | scalar => node.shapeFindings stop.place scalar.kind

/-- The part findings are what the tasks for the parts report. -/
theorem Stop.filterMap_partTasks (node : Node) (value : Json) :
    (stop.partTasks node value).filterMap Task.finding? = stop.partFindings node value := by
  cases value with
  | object members =>
    rw [Stop.partTasks, Stop.partFindings, List.filterMap_append]
    congr 1
    · cases node.wantsObject with
      | false => rfl
      | true =>
        rw [if_pos rfl, if_pos rfl, List.filterMap_append, filterMap_finding?_map_report,
          List.filterMap_filterMap]
        rfl
    · cases node.wantsArray <;> rfl
  | array items =>
    have hvisits : (items.zipIdx.filterMap (stop.elementTask? node)).filterMap Task.finding? = [] := by
      rw [List.filterMap_filterMap, List.filterMap_eq_nil_iff]
      rintro ⟨part, i⟩ -
      rw [Stop.elementTask?]
      cases node.items <;> rfl
    rw [Stop.partTasks, Stop.partFindings]
    cases node.wantsObject with
    | true => rfl
    | false =>
      cases node.wantsArray with
      | false => rfl
      | true =>
        change List.filterMap _ (_ ++ _) = _
        rw [List.filterMap_append, hvisits, filterMap_finding?_map_report]
        rfl
  | _ => exact filterMap_finding?_map_report _

/-- At a stop whose schema counts and allows the type of the value, the value is compared first. -/
theorem Stop.findings_of_typed (h : effectiveSchema root stop.schema = .ok target)
    (htype : target.TypeAllows stop.value) : stop.findings root =
      (Node.ofJson target).valueFindings stop.place stop.value ++
        stop.partFindings (Node.ofJson target) stop.value := by
  rw [Stop.findings, Stop.tasks_of_typed h (Node.typeViolation?_ofJson_eq_none_iff.2 htype),
    List.filterMap_append, filterMap_finding?_map_report, Stop.filterMap_partTasks]

/-- What is reported about the shape of a value is one finding at most. -/
theorem pairwise_shapeFindings (node : Node) (place : Location) (kind : Kind) :
    (node.shapeFindings place kind).Pairwise Finding.Apart := by
  rw [Node.shapeFindings]
  split
  · exact List.pairwise_singleton _ _
  · split
    · exact List.pairwise_singleton _ _
    · exact .nil

/-- What is reported about an object and its members is about missing or denied members or about its
    shape. -/
theorem Stop.mem_partFindings_object {node : Node} {members : List (String × Json)}
    (h : f ∈ stop.partFindings node (.object members)) :
    f ∈ node.missingFindings stop.place members ∨ f ∈ stop.deniedFindings node members ∨
      f = ⟨stop.place, .notAnArray .object⟩ := by
  rw [Stop.partFindings] at h
  rcases List.mem_append.1 h with hmem | hmem
  · split at hmem
    · rcases List.mem_append.1 hmem with hmissing | hdenied
      · exact .inl hmissing
      · exact .inr (.inl hdenied)
    · cases hmem
  · split at hmem
    · exact .inr (.inr (List.mem_singleton.1 hmem))
    · cases hmem

/-- What a stop reports about the parts and the shape of a value that has each key once is apart. -/
theorem Stop.pairwise_partFindings (node : Node) {value : Json} (hproper : value.Proper) :
    (stop.partFindings node value).Pairwise Finding.Apart := by
  cases value with
  | object members =>
    rw [Stop.partFindings]
    refine pairwise_apart_append ?about_members ?about_shape fun f hf g hg => ?other_rules
    case about_members =>
      split
      · exact pairwise_apart_append (pairwise_missingFindings _ _ _)
          (pairwise_deniedFindings node hproper.1)
          fun f hf g hg => by simp [rule_of_mem_missingFindings hf, rule_of_mem_deniedFindings hg]
      · exact .nil
    case about_shape =>
      split
      · exact List.pairwise_singleton _ _
      · exact .nil
    case other_rules =>
      split at hg
      · obtain rfl := List.mem_singleton.1 hg
        split at hf
        · rcases List.mem_append.1 hf with hmissing | hdenied
          · rw [rule_of_mem_missingFindings hmissing]
            exact Rule.noConfusion
          · rw [rule_of_mem_deniedFindings hdenied]
            exact Rule.noConfusion
        · cases hf
      · cases hg
  | array items =>
    rw [Stop.partFindings]
    split
    · exact List.pairwise_singleton _ _
    · split
      · exact pairwise_duplicateFindings _ _ _
      · exact .nil
  | _ => exact pairwise_shapeFindings _ _ _

/-- What is reported about the shape of a value is that it is no object or no array. -/
theorem rule_of_mem_shapeFindings {node : Node} {place : Location} {kind : Kind}
    (h : f ∈ node.shapeFindings place kind) :
    f.violation.rule = .notAnObject ∨ f.violation.rule = .notAnArray := by
  rw [Node.shapeFindings] at h
  split at h
  · obtain rfl := List.mem_singleton.1 h
    exact .inl rfl
  · split at h
    · obtain rfl := List.mem_singleton.1 h
      exact .inr rfl
    · cases h

/-- What is reported about parts and shape is not about `const` or `enum`. -/
theorem Stop.rule_of_mem_partFindings {node : Node} {value : Json}
    (h : f ∈ stop.partFindings node value) :
    f.violation.rule ≠ .constMismatch ∧ f.violation.rule ≠ .enumMismatch := by
  cases value with
  | object members =>
    rcases Stop.mem_partFindings_object h with hmissing | hdenied | rfl
    · simp [rule_of_mem_missingFindings hmissing]
    · simp [rule_of_mem_deniedFindings hdenied]
    · exact ⟨Rule.noConfusion, Rule.noConfusion⟩
  | array items =>
    rw [Stop.partFindings] at h
    split at h
    · obtain rfl := List.mem_singleton.1 h
      exact ⟨Rule.noConfusion, Rule.noConfusion⟩
    · split at h
      · simp [rule_of_mem_duplicateFindings h]
      · cases h
  | _ => rcases rule_of_mem_shapeFindings h with hrule | hrule <;> simp [hrule]

/-- What a stop reports whose value has each key once is apart. -/
theorem Stop.pairwise_findings (hproper : stop.value.Proper) :
    (stop.findings root).Pairwise Finding.Apart := by
  cases hresolves : effectiveSchema root stop.schema with
  | error e =>
    rw [Stop.findings, Stop.tasks_of_fails hresolves]
    exact .nil
  | ok target =>
    by_cases htype : target.TypeAllows stop.value
    · rw [Stop.findings_of_typed hresolves htype]
      refine pairwise_apart_append (pairwise_valueFindings _ _ _) (Stop.pairwise_partFindings _ hproper)
        fun f hf g hg heq => ?_
      obtain ⟨hconst, henum⟩ := Stop.rule_of_mem_partFindings hg
      rcases rule_of_mem_valueFindings hf with hrule | hrule
      · exact hconst (heq.symm.trans hrule)
      · exact henum (heq.symm.trans hrule)
    · obtain ⟨declared, -, -, -, hfound⟩ := Node.typeViolation?_ofJson_of_not_allows htype
      rw [Stop.findings, Stop.tasks_of_mistyped hresolves hfound]
      exact List.pairwise_singleton _ _

/-- A stop reports a missing name as often as the schema that counts lists it. -/
theorem Stop.timesReported_missingRequired (h : f ∈ stop.findings root)
    (hrule : f.violation.rule = .missingRequired) :
    ∃ target name, effectiveSchema root stop.schema = .ok target ∧
      f.location = stop.place.member name ∧
      timesReported (stop.findings root) f.location .missingRequired =
        (Node.requiredOf target).count name := by
  rcases f with ⟨location, violation⟩
  obtain ⟨target, hresolves, way, hbreaks, hshown, hlocation⟩ :=
    report_mem_tasks_iff.1 (Stop.mem_findings_iff.1 h)
  have htype : target.TypeAllows stop.value := by
    by_contra hmistyped
    exact hshown (.inl ⟨hmistyped, by simp [hrule]⟩)
  have hfindings := Stop.findings_of_typed hresolves htype
  generalize stop.value = value at hbreaks hfindings
  cases hbreaks with
  | @missingRequired members name shaped required missing =>
    obtain rfl : location = stop.place.member name := hlocation
    refine ⟨target, name, hresolves, rfl, ?_⟩
    -- Nothing but the findings about missing names is about missing names.
    have hvalue : timesReported ((Node.ofJson target).valueFindings stop.place (.object members))
        (stop.place.member name) .missingRequired = 0 :=
      timesReported_eq_zero fun f hf => by
        rcases rule_of_mem_valueFindings hf with hrule | hrule <;> simp [hrule]
    have hdenied : timesReported (stop.deniedFindings (Node.ofJson target) members)
        (stop.place.member name) .missingRequired = 0 :=
      timesReported_eq_zero fun f hf => by simp [rule_of_mem_deniedFindings hf]
    have hshape : timesReported
        (if (Node.ofJson target).wantsArray then [⟨stop.place, .notAnArray .object⟩] else [])
        (stop.place.member name) .missingRequired = 0 := by
      cases (Node.ofJson target).wantsArray <;> exact timesReported_eq_zero (by simp [Violation.rule])
    rw [hfindings, Stop.partFindings, if_pos (Node.wantsObject_ofJson_iff.2 shaped), timesReported_append,
      timesReported_append, timesReported_append, hvalue, hdenied, hshape,
      timesReported_missingFindings (lookup_isNone_iff.2 missing), Nat.zero_add]
    rfl
  | _ => cases hrule

/-! ### Findings of a walk -/

/-- A walk over tasks reports what the tasks report and the stops that are entered. -/
theorem reported_events_perm {tasks : List Task}
    (h : ∀ inner, .descend inner ∈ tasks →
      (reported (tour root inner)).Perm ((entered (tour root inner)).flatMap (Stop.findings root))) :
    (reported (tasks.flatMap (Task.events root))).Perm (tasks.filterMap Task.finding? ++
      (entered (tasks.flatMap (Task.events root))).flatMap (Stop.findings root)) := by
  induction tasks with
  | nil => exact .nil
  | cons task rest ih =>
    have hrest := ih fun inner hmem => h inner (List.mem_cons_of_mem task hmem)
    cases task with
    | report finding => exact hrest.cons finding
    | descend inner =>
      have hinner := h inner List.mem_cons_self
      have hboth := (hinner.append hrest).trans (List.perm_append_comm_assoc _ _ _)
      rw [← List.flatMap_append] at hboth
      rw [List.flatMap_cons, reported, List.filterMap_append, entered, List.filterMap_append]
      exact hboth

/-- A tour reports what the stops report that it enters, up to the order. -/
theorem reported_tour_perm (root : Json) (start : Stop) :
    (reported (tour root start)).Perm ((entered (tour root start)).flatMap (Stop.findings root)) := by
  induction hvalue : start.value using partInduction generalizing start with
  | step value ih =>
    subst hvalue
    rw [tour_eq]
    exact reported_events_perm fun inner htask =>
      ih inner.value (Stop.descend_mem_tasks_iff.1 htask).part inner rfl

/-- What a walk over a proper value reports is apart. -/
theorem pairwise_reported (hproper : start.value.Proper) :
    (reported (tour root start)).Pairwise Finding.Apart := by
  refine (reported_tour_perm root start).symm.pairwise
    (List.pairwise_flatMap.2 ⟨fun stop hstop => ?_, ?_⟩)
    Finding.Apart.symm
  · have hreached : Reached root start stop := enter_mem_tour_iff.1 (mem_entered_iff.1 hstop)
    exact Stop.pairwise_findings (hreached.proper hproper)
  · -- Findings at one place and about one rule are of one stop.
    apply (List.pairwise_map.1 (nodup_place_entered_tour hproper)).imp
    intro stop other hne f hf g hg hsite
    rw [← home_site hf, ← home_site hg, hsite] at hne
    exact absurd rfl hne

/-- A walk reports a rule at a place as often as the stop that reports it there. -/
theorem timesReported_reported (hproper : start.value.Proper) (hreached : Reached root start stop)
    (hf : f ∈ stop.findings root) :
    timesReported (reported (tour root start)) f.location f.violation.rule =
      timesReported (stop.findings root) f.location f.violation.rule := by
  have hnodup : ((entered (tour root start)).map Stop.place).Nodup := nodup_place_entered_tour hproper
  obtain ⟨before, after, hentered⟩ :=
    List.append_of_mem (mem_entered_iff.2 (enter_mem_tour_iff.2 hreached))
  have hperm := reported_tour_perm root start
  rw [hentered, List.flatMap_append, List.flatMap_cons] at hperm
  rw [hentered, List.map_append, List.map_cons, List.nodup_middle, List.nodup_cons,
    ← List.map_append] at hnodup
  have hothers : ∀ other, other ∈ before ++ after → ∀ g ∈ other.findings root, g.site ≠ f.site := by
    intro other hother g hg hsite
    refine hnodup.1 (List.mem_map.2 ⟨other, hother, ?_⟩)
    rw [← home_site hg, hsite, home_site hf]
  have hnone : ∀ stops, stops ⊆ before ++ after →
      timesReported (stops.flatMap (Stop.findings root)) f.location f.violation.rule = 0 := by
    intro stops hsubset
    refine timesReported_eq_zero_iff.2 fun g hg => ?_
    obtain ⟨other, hother, hg⟩ := List.mem_flatMap.1 hg
    exact hothers other (hsubset hother) g hg
  have hcount := (hperm.map Finding.site).count_eq (f.location, f.violation.rule)
  change timesReported _ _ _ = timesReported _ _ _ at hcount
  rw [hcount, timesReported_append, timesReported_append, hnone before (List.subset_append_left _ _),
    hnone after (List.subset_append_right _ _), Nat.zero_add, Nat.add_zero]

end Stops

/-! ### Reports of a check -/

/-- A check of a proper value reports each rule at each place at most once, but for a name that is
    missing: that is reported as often as the schema of its object lists it. So nothing is reported twice
    if no schema that counts lists a name twice. -/
theorem check_reports_once {root value : Json} {report : Report} (hproper : value.Proper)
    (h : check root value = .ok report) :
    let start : Stop := ⟨[], .whole, root, value⟩
    let findings := (visit root root .whole value).findings
    report.items = findings.map Finding.diagnostic ∧
      (∀ place rule, rule ≠ .missingRequired → timesReported findings place rule ≤ 1) ∧
      (∀ place, 0 < timesReported findings place .missingRequired → ∃ stop target name,
        Reached root start stop ∧ effectiveSchema root stop.schema = .ok target ∧
          place = stop.place.member name ∧
          timesReported findings place .missingRequired = (Node.requiredOf target).count name) ∧
      ((∀ stop target, Reached root start stop → effectiveSchema root stop.schema = .ok target →
          (Node.requiredOf target).Nodup) →
        ∀ place rule, timesReported findings place rule ≤ 1) := by
  intro start findings
  obtain ⟨hends, rfl⟩ := check_eq_ok_iff.1 h
  have hvisit : visit root start.schema start.place start.value = .found (reported (tour root start)) :=
    visit_eq_found_reported hends
  have hfindings : findings = reported (tour root start) := congrArg Outcome.findings hvisit
  have honce : ∀ place rule, rule ≠ .missingRequired → timesReported findings place rule ≤ 1 :=
    fun place rule hrule => timesReported_le_one (hfindings ▸ pairwise_reported hproper) hrule
  have hlisted : ∀ place, 0 < timesReported findings place .missingRequired → ∃ stop target name,
      Reached root start stop ∧ effectiveSchema root stop.schema = .ok target ∧
        place = stop.place.member name ∧
        timesReported findings place .missingRequired = (Node.requiredOf target).count name := by
    intro place hpos
    obtain ⟨f, hf, hsite⟩ := List.mem_map.1 (List.count_pos_iff.1 hpos)
    obtain ⟨rfl, hrule⟩ := Prod.mk.inj hsite
    rw [hfindings, mem_reported_iff, report_mem_tour_iff] at hf
    obtain ⟨stop, hreached, htask⟩ := hf
    have hstop := Stop.mem_findings_iff.2 htask
    obtain ⟨target, name, hresolves, hplace, hcount⟩ := Stop.timesReported_missingRequired hstop hrule
    have htimes := timesReported_reported hproper hreached hstop
    rw [hrule, ← hfindings, hcount] at htimes
    exact ⟨stop, target, name, hreached, hresolves, hplace, htimes⟩
  refine ⟨rfl, honce, hlisted, fun hnodup place rule => ?_⟩
  by_cases hrule : rule = .missingRequired
  · subst hrule
    rcases Nat.eq_zero_or_pos (timesReported findings place .missingRequired) with hzero | hpos
    · omega
    · obtain ⟨stop, target, name, hreached, hresolves, -, hcount⟩ := hlisted place hpos
      rw [hcount]
      exact List.nodup_iff_count_le_one.1 (hnodup stop target hreached hresolves) name
  · exact honce place rule hrule

/-- A member of the wrong type and a name that is missing: two places, and one report of
    the wrong type. -/
theorem check_reports_once_mistyped :
    let root : Json := .object [("required", .array [.string "id"]),
      ("properties", .object [("name", .object [("type", .string "string")])])]
    let value : Json := .object [("name", .null)]
    value.Proper ∧ (∃ report, check root value = .ok report ∧ report.size = 2) ∧
      timesReported (visit root root .whole value).findings (.member .whole "name") .typeMismatch
        ≤ 1 := by
  intro root value
  have hproper : value.Proper := by
    simp only [value, Json.Proper, Json.ProperMembers]
    decide
  have hcheck : check root value = .ok (Report.empty.append (visit root root .whole value).findings) :=
    check_eq_ok_iff.2 ⟨by decide +kernel, rfl⟩
  obtain ⟨-, honce, -⟩ := check_reports_once hproper hcheck
  exact ⟨hproper, ⟨_, hcheck, by decide +kernel⟩, honce _ _ Rule.noConfusion⟩

/-- A name listed twice under `required` is reported twice where it is missing. -/
theorem missing_name_reported_twice :
    let root : Json := .object [("required", .array [.string "a", .string "a"])]
    let missing : Diagnostic := ⟨"$.a", .missingRequired, "missing required property"⟩
    (Json.object []).Proper ∧ check root (.object []) = .ok ⟨[missing, missing]⟩ ∧
      timesReported (visit root root .whole (.object [])).findings (.member .whole "a") .missingRequired
        = 2 := by
  intro root missing
  refine ⟨⟨List.nodup_nil, trivial⟩, check_eq_ok_iff.2 ?_, ?_⟩ <;> decide +kernel

end Conform
