/-
Module: Conform.Proofs.Check.Exclusion
Purpose: Which rules are reported together. A place is visited once, with one schema. A value of the wrong
  type, a value that has to be an object and is none, a member that is missing and one that is denied are
  the end of the walk: nothing is reported below such a place, and little else at the place itself.
Main exports: Rule.Excludes, Rule.Closes, Stop.Ends, Stop.Vacant, checkInto_rules_exclusive
-/
import Conform.Proofs.Check.Places

namespace Conform

open Json

/-! ### Rules that exclude others -/

namespace Rule

/-- Where the first rule is reported, the second is not. -/
inductive Excludes : Rule → Rule → Prop where
  | typeMismatch {other : Rule} (about_value : other = .constMismatch ∨ other = .enumMismatch ∨
      other = .notAnObject ∨ other = .notAnArray) : Excludes .typeMismatch other
  | notAnObject : Excludes .notAnObject .notAnArray
  | additionalProperty {other : Rule} (differs : other ≠ .additionalProperty) :
      Excludes .additionalProperty other
  | missingRequired {other : Rule} (differs : other ≠ .missingRequired) : Excludes .missingRequired other

/-- Below a place where the rule is reported there is nothing else. -/
inductive Closes : Rule → Prop where
  | typeMismatch : Closes .typeMismatch
  | notAnObject : Closes .notAnObject
  | additionalProperty : Closes .additionalProperty
  | missingRequired : Closes .missingRequired

end Rule

section Exclusion

variable {root : Json} {start stop other : Stop} {f g : Finding} {key : String}

/-! ### Where a stop reports -/

/-- A rule is broken by the value as a whole, by a member or by an element. -/
theorem Json.Breaks.way_cases {schema value : Json} {way : Location} {violation : Violation}
    (h : schema.Breaks value way violation) :
    way = .whole ∨ (∃ key, way = .member .whole key) ∨ ∃ i, way = .element .whole i := by
  cases h with
  | missingRequired | additionalProperty => exact .inr (.inl ⟨_, rfl⟩)
  | duplicateItem => exact .inr (.inr ⟨_, rfl⟩)
  | _ => exact .inl rfl

/-- A stop that reports something below a place is at the place or below. -/
theorem exists_place_eq_under (h : .report g ∈ other.tasks root) {way base : Location}
    (hway : way ≠ .whole)
    (hlocation : g.location = way.under base) : ∃ way' : Location, other.place = way'.under base := by
  obtain ⟨target, -, broken, hbreaks, -, hbroken⟩ := report_mem_tasks_iff.1 h
  rw [hlocation] at hbroken
  rcases hbreaks.way_cases with rfl | ⟨key, rfl⟩ | ⟨i, rfl⟩
  · exact ⟨way, hbroken.symm⟩
  · cases way with
    | whole => exact absurd rfl hway
    | member parent key' => exact ⟨parent, (Location.member.inj hbroken).1.symm⟩
    | element parent i => cases hbroken
  · cases way with
    | whole => exact absurd rfl hway
    | member parent key => cases hbroken
    | element parent i' => exact ⟨parent, (Location.element.inj hbroken).1.symm⟩

/-! ### Stops where the walk ends -/

/-- The walk ends at a stop: it has no children, and all that it reports is about the value as a whole. -/
structure Stop.Ends (root : Json) (stop : Stop) : Prop where
  childless : ∀ inner, ¬ stop.Child root inner
  location : ∀ f, .report f ∈ stop.tasks root → f.location = stop.place

/-- Nothing is reported below a stop where the walk ends. -/
theorem Stop.Ends.not_below (hends : stop.Ends root) (hproper : start.value.Proper)
    (hstop : Reached root start stop) (hother : Reached root start other)
    (hg : .report g ∈ other.tasks root) :
    ¬ g.location.Below stop.place := by
  rintro ⟨way, hway, hlocation⟩
  obtain ⟨way', hplace⟩ := exists_place_eq_under hg hway hlocation
  rcases (hstop.of_under hproper hother hplace).exists_child with rfl | ⟨inner, -, hchild, -⟩
  · exact hway (Location.eq_whole_of_under_eq (hlocation.symm.trans (hends.location g hg)))
  · exact hends.childless inner hchild

/-- A value of the wrong type is the one thing reported at its stop, and the walk ends there. -/
theorem Stop.ends_of_typeMismatch (h : .report f ∈ stop.tasks root)
    (hrule : f.violation.rule = .typeMismatch) :
    stop.Ends root ∧ f.location = stop.place ∧
      ∀ g, .report g ∈ stop.tasks root → g.violation.rule = .typeMismatch := by
  rcases f with ⟨location, violation⟩
  obtain ⟨target, hresolves, way, hbreaks, -, hlocation⟩ := report_mem_tasks_iff.1 h
  generalize hvalue : stop.value = value at hbreaks
  cases hbreaks with
  | @typeMismatch _ declared written named rejected =>
    subst hvalue
    have honly : ∀ g, .report g ∈ stop.tasks root →
        g = ⟨stop.place, .typeMismatch ⟨declared⟩ stop.value.kind⟩ := by
      intro g hg
      obtain ⟨target', hresolves', hbreak⟩ := report_mem_tasks_iff.1 hg
      obtain rfl := Except.ok.inj (hresolves.symm.trans hresolves')
      exact (isBreak_iff_of_rejected written named rejected).1 hbreak
    have hmistyped : ¬ target.TypeAllows stop.value := fun hallows => by
      obtain ⟨entry, hentry, hadmits⟩ := hallows declared written named
      exact rejected entry hentry hadmits
    refine ⟨⟨fun inner hchild => ?_, fun g hg => by rw [honly g hg]⟩, hlocation,
      fun g hg => by rw [honly g hg]; rfl⟩
    cases hchild with
    | member resolves type | element resolves type =>
      obtain rfl := Except.ok.inj (hresolves.symm.trans resolves)
      exact hmistyped type
  | _ => cases hrule

/-- At a value that has to be an object and is none the walk ends, and nothing is said about arrays. -/
theorem Stop.ends_of_notAnObject (h : .report f ∈ stop.tasks root)
    (hrule : f.violation.rule = .notAnObject) :
    stop.Ends root ∧ f.location = stop.place ∧
      ∀ g, .report g ∈ stop.tasks root → g.violation.rule ≠ .notAnArray := by
  rcases f with ⟨location, violation⟩
  obtain ⟨target, hresolves, way, hbreaks, -, hlocation⟩ := report_mem_tasks_iff.1 h
  generalize hwhole : stop.value = value at hbreaks
  cases hbreaks with
  | notAnObject shaped hvalue =>
    subst hwhole
    refine ⟨⟨fun inner hchild => ?_, fun g hg => ?_⟩, hlocation, fun g hg harray => ?_⟩
    · cases hchild with
      | member _ _ object => rw [object] at hvalue; cases hvalue
      | element resolves _ _ _ unshaped =>
        obtain rfl := Except.ok.inj (hresolves.symm.trans resolves)
        exact unshaped shaped
    · -- Members are not looked at, and duplicates are passed over; what is left is about the whole.
      rcases g with ⟨location', violation'⟩
      obtain ⟨target', hresolves', way, hbreaks, hshown, hlocation'⟩ := report_mem_tasks_iff.1 hg
      obtain rfl := Except.ok.inj (hresolves.symm.trans hresolves')
      generalize stop.value = value at hvalue hbreaks hshown
      cases hbreaks with
      | missingRequired | additionalProperty => cases hvalue
      | duplicateItem => exact absurd (.inr ⟨shaped, hvalue, .inr rfl⟩) hshown
      | _ => exact hlocation'
    · obtain ⟨target', hresolves', -, -, hshown, -⟩ := report_mem_tasks_iff.1 hg
      obtain rfl := Except.ok.inj (hresolves.symm.trans hresolves')
      exact hshown (.inr ⟨shaped, hvalue, .inl harray⟩)
  | _ => cases hrule

/-! ### Members that are not visited -/

/-- The walk does not go on to a member of this name. -/
def Stop.Vacant (root : Json) (stop : Stop) (key : String) : Prop :=
  ∀ inner, stop.Child root inner → inner.place ≠ stop.place.member key

/-- No stop is reached at a member that is not visited, or below. -/
theorem Stop.Vacant.place_ne (hvacant : stop.Vacant root key) (hproper : start.value.Proper)
    (hstop : Reached root start stop) (hother : Reached root start other) (way : Location) :
    other.place ≠ way.under (stop.place.member key) := by
  intro hplace
  have hunder : other.place = (way.under (.member .whole key)).under stop.place := by
    rw [Location.under_under]
    exact hplace
  rcases (hstop.of_under hproper hother hunder).exists_child with rfl | ⟨inner, way', hchild, hinner⟩
  · have hdepth := congrArg Location.depth hplace
    rw [Location.depth_under] at hdepth
    simp only [Location.depth] at hdepth
    omega
  · -- Both the child and the member are one step below the stop, on the way to the same place.
    refine hvacant inner hchild (Location.eq_of_under_eq_under (hinner.symm.trans hplace) ?_)
    rw [hchild.depth_place]
    rfl

/-- Nothing is reported below a member that is not visited, and what is reported there is reported at the
    stop as a missing or a denied member. -/
theorem Stop.Vacant.reported (hvacant : stop.Vacant root key) (hproper : start.value.Proper)
    (hstop : Reached root start stop) (hother : Reached root start other)
    (hg : .report g ∈ other.tasks root) :
    ¬ g.location.Below (stop.place.member key) ∧ (g.location = stop.place.member key → other = stop) := by
  refine ⟨?_, fun hlocation => ?_⟩
  · rintro ⟨way, hway, hlocation⟩
    obtain ⟨way', hplace⟩ := exists_place_eq_under hg hway hlocation
    exact hvacant.place_ne hproper hstop hother way' hplace
  · obtain ⟨target, -, broken, hbreaks, -, hbroken⟩ := report_mem_tasks_iff.1 hg
    rw [hlocation] at hbroken
    rcases hbreaks.way_cases with rfl | ⟨key', rfl⟩ | ⟨i, rfl⟩
    · exact absurd hbroken.symm (hvacant.place_ne hproper hstop hother .whole)
    · exact hother.eq_of_place hproper hstop (Location.member.inj hbroken).1.symm
    · cases hbroken

/-- A member that is missing is not visited. -/
theorem Stop.vacant_of_missingRequired (h : .report f ∈ stop.tasks root)
    (hrule : f.violation.rule = .missingRequired) : ∃ members key, stop.value = .object members ∧
      f.location = stop.place.member key ∧ stop.Vacant root key ∧ ∀ part, (key, part) ∉ members := by
  rcases f with ⟨location, violation⟩
  obtain ⟨target, -, way, hbreaks, -, hlocation⟩ := report_mem_tasks_iff.1 h
  generalize hvalue : stop.value = value at hbreaks
  cases hbreaks with
  | @missingRequired members key shaped required missing =>
    refine ⟨members, key, rfl, hlocation, fun inner hchild hplace => ?_, missing⟩
    cases hchild with
    | member resolves type object shaped at_index applies =>
      obtain rfl := (Location.member.inj hplace).2
      obtain rfl := Json.object.inj (hvalue.symm.trans object)
      exact missing _ (List.mem_of_getElem? at_index)
    | element => cases hplace
  | _ => cases hrule

/-- A member that is denied is not visited. -/
theorem Stop.vacant_of_additionalProperty (h : .report f ∈ stop.tasks root)
    (hrule : f.violation.rule = .additionalProperty) : ∃ members key part, stop.value = .object members ∧
      f.location = stop.place.member key ∧ stop.Vacant root key ∧ (key, part) ∈ members := by
  rcases f with ⟨location, violation⟩
  obtain ⟨target, hresolves, way, hbreaks, -, hlocation⟩ := report_mem_tasks_iff.1 h
  generalize hvalue : stop.value = value at hbreaks
  cases hbreaks with
  | @additionalProperty members key part shaped mem denied =>
    refine ⟨members, key, part, rfl, hlocation, fun inner hchild hplace => ?_, mem⟩
    cases hchild with
    | member resolves type object shaped at_index applies =>
      obtain rfl := (Location.member.inj hplace).2
      obtain rfl := Except.ok.inj (hresolves.symm.trans resolves)
      exact applies.not_denies denied
    | element => cases hplace
  | _ => cases hrule

/-- What a stop reports about a place of a member is that the member is missing or denied. -/
theorem Stop.rule_of_location_member (h : .report g ∈ stop.tasks root)
    (hlocation : g.location = stop.place.member key) :
    g.violation.rule = .missingRequired ∨ g.violation.rule = .additionalProperty := by
  rcases g with ⟨location, violation⟩
  obtain ⟨target, -, way, hbreaks, -, hway⟩ := report_mem_tasks_iff.1 h
  have hunder : way.under stop.place = stop.place.member key := hway.symm.trans hlocation
  generalize stop.value = value at hbreaks
  cases hbreaks with
  | missingRequired => exact .inl rfl
  | additionalProperty => exact .inr rfl
  | duplicateItem => cases hunder
  | _ =>
    have hdepth := congrArg Location.depth hunder
    simp [Location.depth] at hdepth

/-- A member that is missing is not one that is denied. -/
theorem Stop.location_ne_of_missing_of_denied (hf : .report f ∈ stop.tasks root)
    (hmissing : f.violation.rule = .missingRequired) (hg : .report g ∈ stop.tasks root)
    (hdenied : g.violation.rule = .additionalProperty) : f.location ≠ g.location := by
  intro hlocation
  obtain ⟨members, key, hvalue, hplace, -, habsent⟩ := Stop.vacant_of_missingRequired hf hmissing
  obtain ⟨members', key', part, hvalue', hplace', -, hmem⟩ := Stop.vacant_of_additionalProperty hg hdenied
  obtain rfl := (Location.member.inj (hplace.symm.trans (hlocation.trans hplace'))).2
  obtain rfl := Json.object.inj (hvalue.symm.trans hvalue')
  exact habsent part hmem

/-- The rules about the value as a whole are reported at the place of the stop. -/
theorem Stop.location_of_about_value (h : .report g ∈ stop.tasks root)
    (hrule : g.violation.rule = .constMismatch ∨ g.violation.rule = .enumMismatch ∨
      g.violation.rule = .notAnObject ∨ g.violation.rule = .notAnArray) : g.location = stop.place := by
  rcases g with ⟨location, violation⟩
  obtain ⟨target, -, way, hbreaks, -, hlocation⟩ := report_mem_tasks_iff.1 h
  generalize stop.value = value at hbreaks
  cases hbreaks with
  | missingRequired | additionalProperty | duplicateItem => simp [Violation.rule] at hrule
  | _ => exact hlocation

/-! ### Rules of a whole walk -/

/-- Findings about a value as a whole at one place are of one stop. -/
theorem Reached.eq_of_about_value (hother : Reached root start other) (hproper : start.value.Proper)
    (hstop : Reached root start stop) (hg : .report g ∈ other.tasks root)
    (hrule : g.violation.rule = .constMismatch ∨ g.violation.rule = .enumMismatch ∨
      g.violation.rule = .notAnObject ∨ g.violation.rule = .notAnArray)
    (hlocation : g.location = stop.place) : other = stop :=
  hother.eq_of_place hproper hstop ((Stop.location_of_about_value hg hrule).symm.trans hlocation)

/-- Findings of reached stops at one place are not of rules that exclude each other. -/
theorem not_excludes_of_location_eq (hproper : start.value.Proper) (hstop : Reached root start stop)
    (hf : .report f ∈ stop.tasks root) (hother : Reached root start other)
    (hg : .report g ∈ other.tasks root)
    (hlocation : f.location = g.location) : ¬ f.violation.rule.Excludes g.violation.rule := by
  intro hexcludes
  generalize hrule : f.violation.rule = rule at hexcludes
  generalize hrule' : g.violation.rule = rule' at hexcludes
  cases hexcludes with
  | typeMismatch about_value =>
    obtain ⟨-, hplace, honly⟩ := Stop.ends_of_typeMismatch hf hrule
    subst hrule'
    obtain rfl := hother.eq_of_about_value hproper hstop hg about_value (hlocation.symm.trans hplace)
    rw [honly g hg] at about_value
    simp at about_value
  | notAnObject =>
    obtain ⟨-, hplace, hnone⟩ := Stop.ends_of_notAnObject hf hrule
    obtain rfl := hother.eq_of_about_value hproper hstop hg (.inr (.inr (.inr hrule')))
      (hlocation.symm.trans hplace)
    exact hnone g hg hrule'
  | additionalProperty differs =>
    obtain ⟨-, key, -, -, hplace, hvacant, -⟩ := Stop.vacant_of_additionalProperty hf hrule
    have hmember := hlocation.symm.trans hplace
    obtain rfl := (hvacant.reported hproper hstop hother hg).2 hmember
    rcases Stop.rule_of_location_member hg hmember with hmissing | hdenied
    · exact Stop.location_ne_of_missing_of_denied hg hmissing hf hrule hlocation.symm
    · exact differs (hrule'.symm.trans hdenied)
  | missingRequired differs =>
    obtain ⟨-, key, -, hplace, hvacant, -⟩ := Stop.vacant_of_missingRequired hf hrule
    have hmember := hlocation.symm.trans hplace
    obtain rfl := (hvacant.reported hproper hstop hother hg).2 hmember
    rcases Stop.rule_of_location_member hg hmember with hmissing | hdenied
    · exact differs (hrule'.symm.trans hmissing)
    · exact Stop.location_ne_of_missing_of_denied hf hrule hg hdenied hlocation

/-- Nothing is reported at reached stops below a place where a rule that closes it is. -/
theorem not_below_of_closes (hproper : start.value.Proper) (hstop : Reached root start stop)
    (hf : .report f ∈ stop.tasks root) (hother : Reached root start other)
    (hg : .report g ∈ other.tasks root)
    (hcloses : f.violation.rule.Closes) : ¬ g.location.Below f.location := by
  generalize hrule : f.violation.rule = rule at hcloses
  cases hcloses with
  | typeMismatch =>
    obtain ⟨hends, hplace, -⟩ := Stop.ends_of_typeMismatch hf hrule
    rw [hplace]
    exact hends.not_below hproper hstop hother hg
  | notAnObject =>
    obtain ⟨hends, hplace, -⟩ := Stop.ends_of_notAnObject hf hrule
    rw [hplace]
    exact hends.not_below hproper hstop hother hg
  | additionalProperty =>
    obtain ⟨-, key, -, -, hplace, hvacant, -⟩ := Stop.vacant_of_additionalProperty hf hrule
    rw [hplace]
    exact (hvacant.reported hproper hstop hother hg).1
  | missingRequired =>
    obtain ⟨-, key, -, hplace, hvacant, -⟩ := Stop.vacant_of_missingRequired hf hrule
    rw [hplace]
    exact (hvacant.reported hproper hstop hother hg).1

end Exclusion

/-! ### Rules of a check -/

/-- A check of a value that has each key once, whether it comes to an end or not, visits each place once,
    and so with one schema, and all its findings are of the stops it visits. What it adds to a report are
    its findings in order, and at one place these are not of rules that exclude each other, nor are there
    any below a place where a rule that closes it is reported. -/
theorem checkInto_rules_exclusive (root schema : Json) (place : Location) (value : Json) (report : Report)
    (hproper : value.Proper) :
    let events := tour root ⟨[], place, schema, value⟩
    let findings := (visit root schema place value).findings
    visit root schema place value = replay root events ∧
      ((visited root events).map Stop.place).Nodup ∧
      (∀ f ∈ findings, ∃ stop ∈ visited root events, .report f ∈ stop.tasks root) ∧
      (checkInto root schema place value report).1.items = report.items ++
        findings.map Finding.diagnostic ∧
      ∀ f ∈ findings, ∀ g ∈ findings,
        (f.location = g.location → ¬ f.violation.rule.Excludes g.violation.rule) ∧
        (f.violation.rule.Closes → ¬ g.location.Below f.location) := by
  intro events findings
  have hfound : ∀ f ∈ findings, ∃ stop ∈ visited root events, .report f ∈ stop.tasks root :=
    fun f hf => @exists_visited_of_mem_findings root ⟨[], place, schema, value⟩ f hf
  have hreached : ∀ stop ∈ visited root events, Reached root ⟨[], place, schema, value⟩ stop :=
    fun stop hstop => reached_of_mem_visited hstop
  refine ⟨visit_eq_replay root ⟨[], place, schema, value⟩, nodup_place_visited hproper, hfound, rfl,
    fun f hf g hg => ?_⟩
  obtain ⟨stop, hstop, hf⟩ := hfound f hf
  obtain ⟨other, hother, hg⟩ := hfound g hg
  exact ⟨not_excludes_of_location_eq hproper (hreached stop hstop) hf (hreached other hother) hg,
    not_below_of_closes hproper (hreached stop hstop) hf (hreached other hother) hg⟩

/-- A missing, a mistyped and a denied member: each is the one thing reported at its place, though the
    value of the mistyped one is not listed in `enum` either, and nothing is reported below them. -/
theorem checkInto_rules_exclusive_members :
    let name : Json := .object [("type", .string "object"), ("enum", .array [])]
    let root : Json := .object [("properties", .object [("name", name)]),
      ("required", .array [.string "id"]), ("additionalProperties", .bool false)]
    let value : Json := .object [("name", .array [.null]), ("extra", .object [("deep", .null)])]
    let findings := (visit root root .whole value).findings
    value.Proper ∧
      findings.map (fun f => (f.location, f.violation.rule)) = [(.member .whole "id", .missingRequired),
        (.member .whole "name", .typeMismatch), (.member .whole "extra", .additionalProperty)] ∧
      ∀ f ∈ findings, ∀ g ∈ findings,
        (f.location = g.location → ¬ f.violation.rule.Excludes g.violation.rule) ∧
        (f.violation.rule.Closes → ¬ g.location.Below f.location) := by
  intro name root value findings
  have hproper : value.Proper := by
    simp only [value, Json.Proper, Json.ProperMembers, Json.ProperItems]
    decide
  obtain ⟨-, -, -, -, hexclusive⟩ := checkInto_rules_exclusive root root .whole value .empty hproper
  exact ⟨hproper, by decide +kernel, hexclusive⟩

end Conform
