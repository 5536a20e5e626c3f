/-
Module: Conform.Proofs.Check.Standard
Purpose: Agreement with the standard reading of schemas. There every keyword is a condition of its own:
  those about objects say nothing about other values, those about arrays likewise, and no keyword keeps
  another from being looked at. A check reads shapes into keywords and stops early, but in a guarded
  document that makes no difference: a value of an allowed type has the shape that the keywords are about.
Main exports: Valid, Json.PartsValid, GuardedDocument.valid_iff_conforms,
  GuardedDocument.rule_of_mem_findings, check_agrees_with_standard
-/
import Conform.Proofs.Check.Genuine
import Conform.Proofs.Schema.Guarded

namespace Conform

open Json Relation

/-! ### The standard reading -/

/-- A value is valid for a schema of the document `root`. Each field is what one keyword says, whatever
    the others say. A schema that is `false` accepts nothing, one that is no object and not `false`
    accepts everything, and `additionalProperties` applies to the members that `properties`
    does not list. -/
inductive Valid (same : Json → Json → Prop) (root : Json) : Json → Json → Prop where
  | intro {schema value : Json} (satisfiable : schema ≠ .bool false)
      (resolves : schema.HasKeyword "$ref" → ∃ target, Hop root schema target)
      (reference : ∀ target, Hop root schema target → Valid same root target value)
      (type : schema.TypeAllows value) (const : schema.ConstAllows value) (enum : schema.EnumAllows value)
      (required : ∀ members, value = .object members → ∀ name, schema.Requires name →
        ∃ part, (name, part) ∈ members)
      (properties : ∀ key part inner, value.HasMember key part → schema.propertySchema? key = some inner →
        Valid same root inner part)
      (additionalProperties : ∀ key part inner, value.HasMember key part →
        schema.propertySchema? key = none → schema.get? "additionalProperties" = some inner →
        Valid same root inner part)
      (items : ∀ part inner, value.HasElement part → schema.get? "items" = some inner →
        Valid same root inner part)
      (uniqueItems : schema.WantsDistinct → ∀ items, value = .array items →
        items.Pairwise fun x y => ¬ same x y) :
      Valid same root schema value

/-- What the keywords about objects and arrays say. -/
structure Json.PartsValid (same : Json → Json → Prop) (root schema value : Json) : Prop where
  required : ∀ members, value = .object members → ∀ name, schema.Requires name →
    ∃ part, (name, part) ∈ members
  properties : ∀ key part inner, value.HasMember key part → schema.propertySchema? key = some inner →
    Valid same root inner part
  additionalProperties : ∀ key part inner, value.HasMember key part → schema.propertySchema? key = none →
    schema.get? "additionalProperties" = some inner → Valid same root inner part
  items : ∀ part inner, value.HasElement part → schema.get? "items" = some inner →
    Valid same root inner part
  uniqueItems : schema.WantsDistinct → ∀ items, value = .array items →
    items.Pairwise fun x y => ¬ same x y

section Reading

variable {same : Json → Json → Prop} {root schema target value part : Json} {key : String}

/-- The schema `true` accepts everything. -/
theorem valid_true : Valid same root (.bool true) value := by
  have habsent : ∀ keyword, (Json.bool true).get? keyword = none := fun _ => rfl
  refine .intro (fun h => by cases h) ?_ ?_ ?_ ?_ ?_ ?_ ?_ ?_ ?_ ?_ <;>
    simp [HasKeyword, Hop, TypeAllows, ConstAllows, EnumAllows, Requires, propertySchema?, WantsDistinct,
      habsent]

/-- The schema `false` accepts nothing. -/
theorem not_valid_false : ¬ Valid same root (.bool false) value := by
  rintro ⟨satisfiable⟩
  exact satisfiable rfl

/-- Where a value is valid, the chain of references comes to a schema that refers to nothing. -/
theorem Valid.exists_effectiveSchema (h : Valid same root schema value) :
    ∃ target, effectiveSchema root schema = .ok target := by
  suffices hends : ∃ target, EndsWith root schema (.ok target) by
    obtain ⟨target, hends⟩ := hends
    exact ⟨target, effectiveSchema_of_endsWith hends⟩
  induction h with
  | @intro schema value satisfiable resolves reference type const enum required properties
      additionalProperties items uniqueItems ih =>
    cases hrefers : schema.get? "$ref" with
    | none => exact ⟨schema, schema, .refl, .here hrefers⟩
    | some written =>
      obtain ⟨next, hhop⟩ := resolves ⟨written, hrefers⟩
      obtain ⟨target, hends⟩ := ih next hhop
      exact ⟨target, (endsWith_iff_of_hop hhop).2 hends⟩

/-- A bare reference says what the schema says that it leads to. -/
theorem valid_iff_of_hop (hbare : schema.BareReference) (hhop : Hop root schema target) :
    Valid same root schema value ↔ Valid same root target value := by
  have habsent : ∀ keyword ∈ keywords, schema.get? keyword = none := hbare.alone
  simp only [keywords, List.forall_mem_cons] at habsent
  obtain ⟨htype, hconst, henum, hproperties, hrequired, hadditional, hitems, hunique, -⟩ := habsent
  constructor
  · rintro ⟨-, -, reference⟩
    exact reference target hhop
  · intro h
    refine .intro ?_ (fun _ => ⟨target, hhop⟩) (fun other hother => ?_) ?_ ?_ ?_ ?_ ?_ ?_ ?_ ?_
    · rintro rfl
      obtain ⟨reference, hrefers, -⟩ := hhop
      cases hrefers
    · rwa [hop_rightUnique root hother hhop]
    all_goals
      simp [TypeAllows, ConstAllows, EnumAllows, Requires, hbare.propertySchema?_eq_none,
        WantsDistinct, *]

/-- Where a chain of bare references leads, the same is said as where it begins. -/
theorem GuardedDocument.valid_iff_of_chain (hdocument : GuardedDocument root)
    (hreachable : Reachable root schema)
    (hchain : ReflTransGen (Hop root) schema target) :
    Valid same root schema value ↔ Valid same root target value := by
  induction hchain with
  | refl => exact Iff.rfl
  | tail hchain hhop ih =>
    exact ih.trans (valid_iff_of_hop (hdocument.bareReference (hreachable.chain hchain) hhop) hhop)

/-- Without a reference a schema says what its keywords say. -/
theorem Json.Guarded.valid_iff (h : target.Guarded) :
    Valid same root target value ↔ target.TypeAllows value ∧ target.ConstAllows value ∧
      target.EnumAllows value ∧ PartsValid same root target value := by
  have hnoHop : ∀ next, ¬ Hop root target next := by
    rintro next ⟨reference, hrefers, -⟩
    rw [h.unreferring] at hrefers
    cases hrefers
  constructor
  · rintro ⟨-, -, -, type, const, enum, required, properties, additionalProperties, items, uniqueItems⟩
    exact ⟨type, const, enum, required, properties, additionalProperties, items, uniqueItems⟩
  · rintro ⟨type, const, enum, parts⟩
    refine .intro ?_ ?_ (fun next hhop => absurd hhop (hnoHop next)) type const enum parts.required
      parts.properties parts.additionalProperties parts.items parts.uniqueItems
    · rintro rfl
      cases h.mapping
    · rintro ⟨written, hwritten⟩
      rw [h.unreferring] at hwritten
      cases hwritten

/-! ### Parts -/

/-- What `properties` and `additionalProperties` say about a member: it is not denied, and valid for the
    schema that applies to it. -/
theorem Json.Guarded.valid_member_iff (h : target.Guarded) :
    (∀ inner, target.propertySchema? key = some inner → Valid same root inner part) ∧
        (target.propertySchema? key = none → ∀ inner, target.get? "additionalProperties" = some inner →
          Valid same root inner part) ↔
      ¬ target.Denies key ∧ ∀ inner, target.MemberSchema key inner → Valid same root inner part := by
  constructor
  · rintro ⟨hlisted, hextra⟩
    refine ⟨fun hdenies => not_valid_false (hextra hdenies.1 _ hdenies.2), fun inner happlies => ?_⟩
    cases happlies with
    | listed entry => exact hlisted inner entry
    | extra unlisted rule _ => exact hextra unlisted inner rule
  · rintro ⟨hallowed, hvalid⟩
    refine ⟨fun inner hentry => hvalid inner (.listed hentry), fun hunlisted inner hrule => ?_⟩
    rcases h.additionalProperties inner hrule with ⟨_ | _, rfl⟩ | hmapping
    · exact absurd ⟨hunlisted, hrule⟩ hallowed
    · exact valid_true
    · exact hvalid inner (.extra hunlisted hrule hmapping)

/-- The keywords about objects, told by the members of an object. -/
theorem Json.Guarded.partsValid_object_iff (h : target.Guarded) {members : List (String × Json)} :
    PartsValid same root target (.object members) ↔
      (∀ name, target.Requires name → ∃ part, (name, part) ∈ members) ∧
        ∀ key part, (key, part) ∈ members → ¬ target.Denies key ∧
          ∀ inner, target.MemberSchema key inner → Valid same root inner part := by
  simp only [← h.valid_member_iff]
  constructor
  · rintro ⟨required, properties, additionalProperties, -, -⟩
    exact ⟨required members rfl, fun key part hmem => ⟨fun inner => properties key part inner hmem,
      fun hunlisted inner => additionalProperties key part inner hmem hunlisted⟩⟩
  · rintro ⟨required, hmembers⟩
    refine ⟨fun others hothers => ?_, fun key part inner hmem => (hmembers key part hmem).1 inner,
      fun key part inner hmem hunlisted => (hmembers key part hmem).2 hunlisted inner,
      fun _ _ h => h.elim, fun _ _ h => Json.noConfusion h⟩
    cases hothers
    exact required

/-- The keywords about arrays, told by the elements of an array. -/
theorem Json.Guarded.partsValid_array_iff (h : target.Guarded) {items : List Json} :
    PartsValid same root target (.array items) ↔
      (∀ part ∈ items, ∀ inner, target.ItemSchema inner → Valid same root inner part) ∧
        (target.WantsDistinct → items.Pairwise fun x y => ¬ same x y) := by
  constructor
  · rintro ⟨-, -, -, hitems, uniqueItems⟩
    exact ⟨fun part hmem inner happlies => hitems part inner hmem happlies.1,
      fun hwants => uniqueItems hwants items rfl⟩
  · rintro ⟨hitems, uniqueItems⟩
    refine ⟨fun _ h => Json.noConfusion h, fun _ _ _ h => h.elim, fun _ _ _ h => h.elim,
      fun part inner hmem hwritten => hitems part hmem inner ⟨hwritten, h.items inner hwritten⟩,
      fun hwants others hothers => ?_⟩
    cases hothers
    exact uniqueItems hwants

/-- The keywords about objects and arrays say nothing about other values. -/
theorem Json.partsValid_scalar (hobject : value.isObject = false)
    (harray : ∀ items, value ≠ .array items) :
    PartsValid same root target value := by
  cases value with
  | object members => cases hobject
  | array items => exact absurd rfl (harray items)
  | _ =>
    exact ⟨fun _ h => Json.noConfusion h, fun _ _ _ h => h.elim, fun _ _ _ h => h.elim,
      fun _ _ h => h.elim,
      fun _ _ h => Json.noConfusion h⟩

/-! ### Agreement -/

/-- For a guarded schema and a value of an allowed type the two readings say the same about parts, if they
    do for each part. The type settles the shape, so the rules of a check that depend on it are not
    needed. -/
theorem Json.Guarded.partsValid_iff_partsConform (h : target.Guarded) (htype : target.TypeAllows value)
    (hmembers : ∀ key part inner, value.HasMember key part → target.MemberSchema key inner →
      (Valid same root inner part ↔ Conforms same root inner part))
    (helements : ∀ part inner, value.HasElement part → target.ItemSchema inner →
      (Valid same root inner part ↔ Conforms same root inner part)) :
    PartsValid same root target value ↔ PartsConform same root target value := by
  have hisObject := h.isObject htype
  have hisArray := h.isArray htype
  cases value with
  | object members =>
    have hunshaped : ¬ target.ArrayShaped := fun hshaped => by
      obtain ⟨items, hitems⟩ := hisArray hshaped
      cases hitems
    rw [h.partsValid_object_iff, partsConform_object_iff, and_iff_left hunshaped]
    constructor
    · rintro ⟨hrequired, hvalid⟩ -
      refine ⟨hrequired, fun key part hmem => ⟨(hvalid key part hmem).1, fun inner happlies => ?_⟩⟩
      exact (hmembers key part inner hmem happlies).1 ((hvalid key part hmem).2 inner happlies)
    · intro hconform
      refine ⟨fun name hrequires => ?_,
        fun key part hmem => ⟨fun hdenies => ?_, fun inner happlies => ?_⟩⟩
      · exact (hconform hrequires.objectShaped).1 name hrequires
      · exact ((hconform hdenies.objectShaped).2 key part hmem).1 hdenies
      · exact (hmembers key part inner hmem happlies).2
          (((hconform happlies.objectShaped).2 key part hmem).2 inner happlies)
  | array items =>
    have hunshaped : ¬ target.ObjectShaped := fun hshaped => by cases hisObject hshaped
    rw [h.partsValid_array_iff, partsConform_array_iff, and_iff_right hunshaped]
    constructor
    · rintro ⟨hvalid, hdistinct⟩ -
      refine ⟨fun part hmem inner happlies => ?_, hdistinct⟩
      exact (helements part inner hmem happlies).1 (hvalid part hmem inner happlies)
    · intro hconform
      refine ⟨fun part hmem inner happlies => ?_, fun hwants => (hconform hwants.arrayShaped).2 hwants⟩
      exact (helements part inner hmem happlies).2
        ((hconform happlies.arrayShaped).1 part hmem inner happlies)
  | _ =>
    refine iff_of_true (partsValid_scalar rfl fun _ h => Json.noConfusion h)
      ((partsConform_scalar_iff rfl fun _ h => Json.noConfusion h).2
        ⟨fun hshaped => ?_, fun hshaped => ?_⟩)
    · cases hisObject hshaped
    · obtain ⟨items, hitems⟩ := hisArray hshaped
      cases hitems

/-- In a guarded document the standard reading is that of a check. The induction is on the value; the
    chain of references at each place consists of bare references and ends with a guarded schema. -/
theorem GuardedDocument.valid_iff_conforms (hdocument : GuardedDocument root) :
    Reachable root schema → (Valid same root schema value ↔ Conforms same root schema value) := by
  induction value using partInduction generalizing schema with
  | step value ih =>
    intro hreachable
    cases hresolves : effectiveSchema root schema with
    | error e =>
      have hnone : ¬ ∃ target, effectiveSchema root schema = .ok target := by simp [hresolves]
      exact iff_of_false (fun h => hnone h.exists_effectiveSchema) fun h => hnone h.exists_effectiveSchema
    | ok target =>
      have hguarded := hdocument.guarded hreachable hresolves
      have hreached := hreachable.effectiveSchema hresolves
      rw [hdocument.valid_iff_of_chain hreachable (chain_of_effectiveSchema hresolves).1,
        hguarded.valid_iff, conforms_iff_of_resolves hresolves]
      refine and_congr_right fun htype => and_congr_right fun _ => and_congr_right fun _ => ?_
      refine hguarded.partsValid_iff_partsConform htype (fun key part inner hmem happlies => ?_)
        (fun part inner hmem happlies => ?_)
      · exact ih part hmem.part (hreached.memberSchema happlies)
      · exact ih part hmem.part (hreached.items happlies.1)

end Reading

/-! ### Shapes -/

section Shapes

variable {root : Json} {start stop : Stop}

/-- The schema of a stop that is reached can be reached in the document, if that of the start can. -/
theorem Reached.reachable (h : Reached root start stop) (hstart : Reachable root start.schema) :
    Reachable root stop.schema := by
  induction h with
  | refl => exact hstart
  | tail _ hchild ih =>
    cases hchild with
    | member resolves _ _ _ _ applies => exact (ih.effectiveSchema resolves).memberSchema applies
    | element resolves _ _ _ _ _ applies => exact (ih.effectiveSchema resolves).items applies.1

/-- In a guarded document no value is found to have the wrong shape, whether the visit comes to an end or
    not: such a value is found to have the wrong type. -/
theorem GuardedDocument.rule_of_mem_findings (hdocument : GuardedDocument root)
    (hstart : Reachable root start.schema) {f : Finding}
    (h : f ∈ (visit root start.schema start.place start.value).findings) :
    f.violation.rule ≠ .notAnObject ∧ f.violation.rule ≠ .notAnArray := by
  obtain ⟨⟨trail, place, schema, value⟩, hreached, htask⟩ := (mem_findings_visit start).1 f h
  rcases f with ⟨location, violation⟩
  obtain ⟨target, hresolves, way, hbreaks, hshown, -⟩ := report_mem_tasks_iff.1 htask
  have hguarded := hdocument.guarded (hreached.reachable hstart) hresolves
  have hallowed : violation.rule ≠ .typeMismatch → target.TypeAllows value := fun hrule => by
    by_contra hrejected
    exact hshown (.inl ⟨hrejected, hrule⟩)
  cases hbreaks with
  | notAnObject shaped other =>
    rw [hguarded.isObject (hallowed (by simp [Violation.rule])) shaped] at other
    cases other
  | notAnArray shaped other =>
    obtain ⟨items, hitems⟩ := hguarded.isArray (hallowed (by simp [Violation.rule])) shaped
    exact absurd hitems (other items)
  | _ => simp [Violation.rule]

end Shapes

/-! ### Verdicts -/

/-- In a guarded document a check that comes to an end reports nothing exactly if the instance is valid in
    the standard reading, where elements are the same if they have one digest; and if digests tell the
    values inside the instance apart, where elements are the same if they have one canonical text. No
    check ever reports that a value is no object or no array, be it that it comes to an end or not. -/
theorem check_agrees_with_standard {root : Json} (hdocument : GuardedDocument root) :
    (∀ value report, check root value = .ok report →
      (report.isEmpty = true ↔ Valid (fun x y => x.fingerprint = y.fingerprint) root root value) ∧
      (value.DigestsDiffer → (report.isEmpty = true ↔
        Valid (fun x y => x.canonicalText = y.canonicalText) root root value))) ∧
    ∀ place value report, ∃ added,
      (checkInto root root place value report).1.items = report.items ++ added ∧
      ∀ d ∈ added, d.rule ≠ .notAnObject ∧ d.rule ≠ .notAnArray := by
  constructor
  · intro value report h
    rw [← visit_eq_found_nil_iff_of_check h, hdocument.valid_iff_conforms .root,
      hdocument.valid_iff_conforms .root]
    exact ⟨visit_eq_found_nil_iff (fun _ _ _ _ => Iff.rfl) root .whole,
      fun hdiffer => visit_eq_found_nil_iff (fun _ _ hx hy => hdiffer.same_iff hx hy) root .whole⟩
  · intro place value report
    refine ⟨(visit root root place value).findings.map Finding.diagnostic, rfl, fun d hd => ?_⟩
    obtain ⟨f, hf, rfl⟩ := List.mem_map.1 hd
    exact @GuardedDocument.rule_of_mem_findings root ⟨[], place, root, value⟩ hdocument .root f hf

/-- Lists of lists without duplicates: the document leads back to itself and is guarded. A list with two
    different lists in it is valid, and one with two empty lists is not. -/
theorem check_agrees_with_standard_lists :
    let lists : Json := .object [("type", .string "array"),
      ("items", .object [("$ref", .string "#/$defs/lists")]), ("uniqueItems", .bool true)]
    let root : Json := .object [("$defs", .object [("lists", lists)]), ("$ref", .string "#/$defs/lists")]
    let same : Json → Json → Prop := fun x y => x.fingerprint = y.fingerprint
    GuardedDocument root ∧ Valid same root root (.array [.array [], .array [.array []]]) ∧
      ¬ Valid same root root (.array [.array [], .array []]) := by
  intro lists root same
  have hroot : Hop root root lists := ⟨_, rfl, by rfl⟩
  have hitems : Hop root (.object [("$ref", .string "#/$defs/lists")]) lists := ⟨_, rfl, by rfl⟩
  have hlists : ∀ next, ¬ Hop root lists next := fun next ⟨_, hrefers, _⟩ => nomatch hrefers
  have hreachable : ∀ schema, Reachable root schema →
      schema = root ∨ schema = lists ∨ schema = .object [("$ref", .string "#/$defs/lists")] := by
    intro schema h
    induction h with
    | root => exact .inl rfl
    | reference _ hop ih =>
      rcases ih with rfl | rfl | rfl
      · exact .inr (.inl (hop_rightUnique root hop hroot))
      · exact absurd hop (hlists _)
      · exact .inr (.inl (hop_rightUnique root hop hitems))
    | property _ entry ih => rcases ih with rfl | rfl | rfl <;> cases entry
    | additional _ written _ ih => rcases ih with rfl | rfl | rfl <;> cases written
    | items _ written ih =>
      rcases ih with rfl | rfl | rfl <;> cases written
      exact .inr (.inr rfl)
  have hnames : ∀ entry ∈ (Json.string "array").typeEntries, entry = .string "array" :=
    fun entry h => List.mem_singleton.1 h
  have hguarded : lists.Guarded :=
    { mapping := rfl
      unreferring := rfl
      type := fun _ h => .inl ⟨_, (Option.some.inj h).symm⟩
      enum := fun _ h => nomatch h
      required := fun _ h => nomatch h
      properties := fun _ h => nomatch h
      additionalProperties := fun _ h => nomatch h
      items := fun _ h => by cases h; rfl
      uniqueItems := fun _ h => ⟨_, (Option.some.inj h).symm⟩
      objects := fun h => absurd (Node.wantsObject_ofJson_iff.2 h) (by decide)
      arrays := fun _ => ⟨_, rfl, hnames⟩ }
  have hdocument : GuardedDocument root := by
    intro schema h
    rcases hreachable schema h with rfl | rfl | rfl
    · exact .inr ⟨⟨_, rfl⟩, by decide⟩
    · exact .inl hguarded
    · exact .inr ⟨⟨_, rfl⟩, by decide⟩
  obtain ⟨hverdict, -⟩ := check_agrees_with_standard hdocument
  have hcheck : ∃ report, check root (.array [.array [], .array []]) = .ok report ∧
      ¬ report.isEmpty = true :=
    ⟨_, check_eq_ok_iff.2 ⟨by decide +kernel, rfl⟩, by decide +kernel⟩
  refine ⟨hdocument, ?_, ?_⟩
  · exact (hverdict _ .empty (check_eq_ok_iff.2 (by decide +kernel))).1.1 rfl
  · obtain ⟨report, hreport, hfound⟩ := hcheck
    exact fun hvalid => hfound ((hverdict _ report hreport).1.2 hvalid)

end Conform
