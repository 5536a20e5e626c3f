/-
Module: Conform.Proofs.Check.Paths
Purpose: What the paths of a report tell. Diagnostics with one path are about one place, as long as the
  names on the way are not composite. For each composite name there is a document where the path of a
  member of this name is shared with another place.
Main exports: exists_check_eq_ok_of_unreferring, paths_tell_plain_locations
-/
import Conform.Proofs.Check.Standard
import Conform.Proofs.Report.PathText

namespace Conform

open Json

/-! ### Documents where paths are shared -/

section Shared

variable {root : Json}

/-- In a document without references a check comes to an end. -/
theorem exists_check_eq_ok_of_unreferring
    (h : ∀ schema, Reachable root schema → schema.get? "$ref" = none)
    (value : Json) : ∃ report, check root value = .ok report := by
  cases hcheck : check root value with
  | ok report => exact ⟨report, rfl⟩
  | error e =>
    obtain ⟨stop, e', hreached, hfails⟩ := (exists_check_eq_error_iff root value).1 ⟨e, hcheck⟩
    have hunreferring : stop.schema.get? "$ref" = none := h _ (hreached.reachable .root)
    have hresolves : effectiveSchema root stop.schema = .ok stop.schema := by
      simp [effectiveSchema, hunreferring]
    exact absurd (hfails.symm.trans hresolves) (by simp)

/-- The document that asks for a member `key` and has a schema for the member `outer`. -/
def requiring (key outer : String) (inner : Json) : Json :=
  .object [("required", .array [.string key]), ("properties", .object [(outer, inner)])]

/-- The schema that no value conforms to. -/
def rejecting : Json := .object [("enum", .array [])]

/-- A schema that asks for a member, or one that rejects all elements. -/
inductive Deepening : Json → Prop where
  | asking (name : String) : Deepening (.object [("required", .array [.string name])])
  | rejecting : Deepening (.object [("items", rejecting)])

variable {key outer : String} {inner part : Json}

/-- The schemas of such a document. -/
theorem reachable_requiring (hinner : Deepening inner) {schema : Json}
    (h : Reachable (requiring key outer inner) schema) :
    schema = requiring key outer inner ∨ schema = inner ∨ schema = rejecting := by
  induction h with
  | root => exact .inl rfl
  | reference _ hop ih =>
    obtain ⟨reference, hrefers, -⟩ := hop
    cases hinner <;> rcases ih with rfl | rfl | rfl <;> cases hrefers
  | @property _ found name _ entry ih =>
    rcases ih with rfl | rfl | rfl
    · have hentry : [(outer, inner)].lookup name = some found := entry
      exact .inr (.inl (Prod.mk.inj (List.mem_singleton.1 (mem_of_lookup_eq_some hentry))).2)
    · cases hinner <;> cases entry
    · cases entry
  | additional _ written _ ih =>
    cases hinner <;> rcases ih with rfl | rfl | rfl <;> cases written
  | items _ written ih =>
    cases hinner <;> rcases ih with rfl | rfl | rfl <;> cases written
    exact .inr (.inr rfl)

/-- A check against such a document comes to an end. -/
theorem exists_check_requiring_eq_ok (hinner : Deepening inner) (value : Json) :
    ∃ report, check (requiring key outer inner) value = .ok report := by
  refine exists_check_eq_ok_of_unreferring (fun schema h => ?_) value
  rcases reachable_requiring hinner h with rfl | rfl | rfl
  · rfl
  · cases hinner <;> rfl
  · rfl

/-- The member that is asked for is reported as missing. -/
theorem report_missing_requiring (hkey : key ≠ outer) :
    .report ⟨.member .whole key, .missingRequired⟩ ∈ (Stop.mk [] .whole (requiring key outer inner)
      (.object [(outer, part)])).tasks (requiring key outer inner) := by
  refine report_mem_tasks_iff.2 ⟨_, rfl, .member .whole key,
    .missingRequired (.inr (.inr (.inl ⟨_, rfl⟩))) ⟨_, rfl, List.mem_cons_self⟩ (fun found hmem => ?_),
    ?_, rfl⟩
  · exact hkey (Prod.mk.inj (List.mem_singleton.1 hmem)).1
  · exact not_passedOver_of_isObject (fun _ h => nomatch h) fun _ => rfl

/-- The other member is visited with its schema. -/
theorem reached_requiring : Reached (requiring key outer inner)
    ⟨[], .whole, requiring key outer inner, .object [(outer, part)]⟩
    ⟨[0], .member .whole outer, inner, part⟩ := by
  refine .single (.member rfl (fun _ h => nomatch h) rfl (.inr (.inl ⟨_, rfl⟩)) rfl (.listed ?_))
  have hentry : (Json.object [(outer, inner)]).get? outer = some inner := by
    simp [Json.get?]
  exact hentry

/-- Two findings at different places with one path, the first of them at a member of a given name. -/
def SharesPath (key : String) (findings : List Finding) : Prop :=
  ∃ f ∈ findings, ∃ g ∈ findings, f.location = .member .whole key ∧ g.location ≠ f.location ∧
    g.diagnostic.path = f.diagnostic.path

/-- The path of the member that is asked for is shared if something is reported elsewhere
    with that path. -/
theorem exists_sharesPath_of_report (hkey : key ≠ outer) (hinner : Deepening inner)
    {stop : Stop} {f : Finding}
    (hreached : Reached (requiring key outer inner) ⟨[0], .member .whole outer, inner, part⟩ stop)
    (hreport : .report f ∈ stop.tasks (requiring key outer inner))
    (hlocation : f.location ≠ .member .whole key)
    (hpath : f.location.text = (Location.member .whole key).text) :
    ∃ root value report, check root value = .ok report ∧
      SharesPath key (visit root root .whole value).findings := by
  obtain ⟨report, hcheck⟩ :=
    @exists_check_requiring_eq_ok key outer inner hinner (.object [(outer, part)])
  have hfound := (@mem_findings_visit _ ⟨[], .whole, _, _⟩).2 (check_eq_ok_iff.1 hcheck).1
  exact ⟨_, _, report, hcheck, _, hfound _ _ .refl (report_missing_requiring hkey), f,
    hfound f stop (reached_requiring.trans hreached) hreport, rfl, hlocation, hpath⟩

/-- A name with something behind it is another name. -/
theorem append_separator_ne {separator rest : String} (h : separator.length = 1) :
    outer ++ separator ++ rest ≠ outer := by
  intro heq
  have hlength := congrArg String.length heq
  simp only [String.length_append] at hlength
  omega

/-- For a composite name there is a document and an instance where the path of the member is shared. -/
theorem exists_sharesPath (h : CompositeKey key) : ∃ root value report, check root value = .ok report ∧
    SharesPath key (visit root root .whole value).findings := by
  cases h with
  | dotted outer inner =>
    -- The outer member is there and lacks the inner one.
    have hrequired : Json.Requires (.object [("required", .array [.string inner])]) inner :=
      ⟨_, rfl, List.mem_cons_self⟩
    refine exists_sharesPath_of_report (append_separator_ne rfl) (.asking inner) .refl
      (f := ⟨(Location.member .whole outer).member inner, .missingRequired⟩)
      (report_mem_tasks_iff.2 ⟨_, rfl, .member .whole inner,
        .missingRequired hrequired.objectShaped hrequired (fun _ => List.not_mem_nil), ?_, rfl⟩) ?_
      (Location.text_member_dotted .whole outer inner).symm
    · exact not_passedOver_of_isObject (fun _ h => nomatch h) fun _ => rfl
    · exact fun h => nomatch (Location.member.inj h).1
  | indexed outer i =>
    -- The outer member is a list, long enough to have the element, and all its elements are rejected.
    have hkey : outer ++ "[" ++ toString i ++ "]" ≠ outer := by
      rw [String.append_assoc]
      exact append_separator_ne rfl
    have hitem : (List.replicate (i + 1) Json.null)[i]? = some .null := by simp
    have hunshaped : ¬ (Json.object [("items", rejecting)]).ObjectShaped := fun h =>
      absurd (Node.wantsObject_ofJson_iff.2 h) (by decide)
    refine exists_sharesPath_of_report hkey .rejecting
      (.single
        (.element rfl (fun _ h => nomatch h) rfl (.inr (.inl ⟨_, rfl⟩)) hunshaped hitem ⟨rfl, rfl⟩))
      (f := ⟨(Location.member .whole outer).element i, .enumMismatch [] .null⟩)
      (report_mem_tasks_iff.2
        ⟨_, rfl, .whole, .enumMismatch rfl (fun _ h => absurd h List.not_mem_nil), ?_, rfl⟩) ?_
      (Location.text_member_indexed .whole outer i).symm
    · exact not_passedOver_of_rule (fun _ h => nomatch h) (.inr (.inl rfl))
    · exact Location.noConfusion

end Shared

/-! ### Paths of a report -/

/-- The diagnostics of a report with one path are about one place, if the names on the way to their places
    are not composite. No composite name can be allowed: for each there is a document and an instance
    where a diagnostic about the member of this name has the path of one about another place. -/
theorem paths_tell_plain_locations :
    (∀ root value report, check root value = .ok report →
      let findings := (visit root root .whole value).findings
      report.items = findings.map Finding.diagnostic ∧
      ∀ path, report.atPath path =
          (findings.filter fun f => f.location.text == path).map Finding.diagnostic ∧
        ∀ f ∈ findings, ∀ g ∈ findings, f.location.Plain → g.location.Plain →
          f.location.text = path → g.location.text = path → f.location = g.location) ∧
    ∀ key, CompositeKey key → ∃ root value report, check root value = .ok report ∧
      SharesPath key (visit root root .whole value).findings := by
  refine ⟨fun root value report hcheck => ?_, fun key => exists_sharesPath⟩
  have hitems : report.items = (visit root root .whole value).findings.map Finding.diagnostic := by
    rw [(check_eq_ok_iff.1 hcheck).2, Report.items_append, Report.items_empty, List.nil_append]
  refine ⟨hitems, fun path => ⟨?_, fun f _ g _ hf hg hpath hpath' => ?_⟩⟩
  · rw [Report.atPath, hitems, List.filter_map]
    rfl
  · exact Location.eq_of_text_eq hf hg (hpath.trans hpath'.symm)

/-- A member of a member that is missing twice, by names that are not composite: the two diagnostics with
    its path are about one place. -/
theorem paths_tell_plain_locations_missing :
    let root : Json := .object [("properties", .object [("a", .object
      [("required", .array [.string "b", .string "b"])])])]
    let value : Json := .object [("a", .object [])]
    let missing : Diagnostic := ⟨"$.a.b", .missingRequired, "missing required property"⟩
    let findings := (visit root root .whole value).findings
    check root value = .ok ⟨[missing, missing]⟩ ∧
      (∀ f ∈ findings, f.location.Plain) ∧ ∀ f ∈ findings, ∀ g ∈ findings, f.location = g.location := by
  intro root value missing findings
  have hcheck : check root value = .ok ⟨[missing, missing]⟩ := check_eq_ok_iff.2 (by decide +kernel)
  have hfindings : findings.map Finding.location =
      [(Location.member .whole "a").member "b", (Location.member .whole "a").member "b"] := by
    decide +kernel
  have hlocation : ∀ f ∈ findings, f.location = (Location.member .whole "a").member "b" := by
    intro f hf
    have hmem := List.mem_map_of_mem (f := Finding.location) hf
    rw [hfindings] at hmem
    simpa using hmem
  have hplain : ∀ f ∈ findings, f.location.Plain := by
    intro f hf
    rw [hlocation f hf]
    exact ⟨⟨trivial, not_composite_of_unmarked (by decide) (by decide)⟩,
      not_composite_of_unmarked (by decide) (by decide)⟩
  refine ⟨hcheck, hplain, fun f hf g hg => ?_⟩
  obtain ⟨-, htells⟩ := paths_tell_plain_locations.1 root value _ hcheck
  exact (htells "$.a.b").2 f hf g hg (hplain f hf) (hplain g hg) (by rw [hlocation f hf]; rfl)
    (by rw [hlocation g hg]; rfl)

/-- A member `a.b` and the member `b` of `a`: both are reported with the path `$.a.b`, though they are at
    different places. -/
theorem path_of_dotted_member_shared :
    let text : Json := .object [("type", .string "string")]
    let root : Json := .object [("properties", .object [("a.b", text),
      ("a", .object [("properties", .object [("b", text)])])])]
    let value : Json := .object [("a.b", .null), ("a", .object [("b", .null)])]
    let report : Report := ⟨[⟨"$.a.b", .typeMismatch, "expected type string, got null"⟩,
      ⟨"$.a.b", .typeMismatch, "expected type string, got null"⟩]⟩
    let findings := (visit root root .whole value).findings
    check root value = .ok report ∧ report.items = findings.map Finding.diagnostic ∧
      report.atPath "$.a.b" = report.items ∧
      findings.map Finding.location = [.member .whole "a.b", (Location.member .whole "a").member "b"] ∧
      ¬ ∀ f ∈ findings, ∀ g ∈ findings, f.location.text = g.location.text → f.location = g.location := by
  intro text root value report findings
  have hcheck : check root value = .ok report := check_eq_ok_iff.2 (by decide +kernel)
  have hlocations : findings.map Finding.location =
      [.member .whole "a.b", (Location.member .whole "a").member "b"] := by decide +kernel
  refine ⟨hcheck, by decide +kernel, by decide +kernel, hlocations, fun htell => ?_⟩
  have hmem : ∀ place ∈ findings.map Finding.location, ∃ f ∈ findings, f.location = place :=
    fun place h => List.mem_map.1 h
  rw [hlocations] at hmem
  obtain ⟨f, hf, hdotted⟩ := hmem (.member .whole "a.b") List.mem_cons_self
  obtain ⟨g, hg, hnested⟩ := hmem ((Location.member .whole "a").member "b") (.tail _ List.mem_cons_self)
  have hsame := htell f hf g hg (by rw [hdotted, hnested]; rfl)
  rw [hdotted, hnested] at hsame
  cases (Location.member.inj hsame).1

end Conform
