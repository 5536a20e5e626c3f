/-
Module: Conform.Proofs.Schema.Chain
Purpose: Chains of references without a memory of what was followed. From each schema there is at most one
  hop, so a chain comes to one end or to none. The schema that counts is what the chain ends with, and a
  cycle is reported exactly where it has no end: a reference followed before leads back to a schema of the
  chain, and from there the chain repeats itself.
Main exports: Hop, Stops, EndsWith, Endless, effectiveSchema_cases, effectiveSchema_of_endsWith,
  effectiveSchema_of_endless, effectiveSchema_of_hop
-/
import Conform.Proofs.Schema.Normal
import Mathlib.Logic.Relation

namespace Conform

open Json Relation

/-! ### References of parts -/

/-- What is found under a key is a member. -/
theorem mem_of_lookup_eq_some {α : Type} {members : List (String × α)} {key : String} {value : α}
    (h : members.lookup key = some value) : (key, value) ∈ members := by
  obtain ⟨before, after, rfl, -⟩ := List.lookup_eq_some_iff.1 h
  exact List.mem_append_right before List.mem_cons_self

namespace Json

variable {schema inner : Json} {key reference : String}

/-- The members of an object are found under their keys, and other values have none. -/
theorem exists_mem_of_get? (h : schema.get? key = some inner) :
    ∃ members, schema = .object members ∧ (key, inner) ∈ members := by
  cases schema with
  | object members => exact ⟨members, rfl, mem_of_lookup_eq_some h⟩
  | _ => cases h

/-- A value with something under a key is an object. -/
theorem isObject_of_get? (h : schema.get? key = some inner) : schema.isObject = true := by
  obtain ⟨members, rfl, -⟩ := exists_mem_of_get? h
  rfl

/-- The string under `$ref` is one of the references. -/
theorem mem_references_of_get? (h : schema.get? "$ref" = some (.string reference)) :
    reference ∈ schema.references := by
  obtain ⟨members, rfl, hmem⟩ := exists_mem_of_get? h
  exact mem_referencesOfMembers.2 ⟨_, hmem, .inl ⟨rfl, rfl⟩⟩

/-- The references of a member are references of the object. -/
theorem mem_references_of_mem_get? (h : schema.get? key = some inner)
    (hreference : reference ∈ inner.references) : reference ∈ schema.references := by
  obtain ⟨members, rfl, hmem⟩ := exists_mem_of_get? h
  exact mem_referencesOfMembers.2 ⟨_, hmem, .inr hreference⟩

end Json

/-- The references of a value that keys lead to are references of the document. -/
theorem mem_references_of_descend {keys : List String} {value target : Json} {reference : String}
    (h : descend value keys = .ok target) (hreference : reference ∈ target.references) :
    reference ∈ value.references := by
  induction keys generalizing value with
  | nil =>
    cases h
    exact hreference
  | cons key rest ih =>
    rw [descend] at h
    cases hget : value.get? key with
    | none =>
      rw [hget] at h
      cases h
    | some inner =>
      rw [hget] at h
      exact mem_references_of_mem_get? hget (ih h)

/-- A reference that is resolved leads along its keys, to an object. -/
theorem descend_of_dereference {root target : Json} {reference : String}
    (h : dereference root reference = .ok target) :
    (∃ keys, descend root keys = .ok target) ∧ target.isObject = true := by
  rw [dereference] at h
  cases hkeys : keysOf? reference with
  | none => simp [hkeys] at h
  | some keys =>
    cases hdescend : descend root keys with
    | error key => simp [hkeys, hdescend] at h
    | ok found =>
      simp only [hkeys, hdescend] at h
      cases hfound : found.isObject with
      | false => simp [hfound] at h
      | true =>
        rw [if_pos hfound] at h
        cases h
        exact ⟨⟨keys, hdescend⟩, hfound⟩

/-! ### Chains -/

/-- One reference leads from a schema to another. -/
def Hop (root schema next : Json) : Prop :=
  ∃ reference, schema.get? "$ref" = some (.string reference) ∧ dereference root reference = .ok next

/-- A chain stops at a schema: there is no reference, or it is no string, or it leads nowhere. -/
inductive Stops (root : Json) : Json → Except ReferenceError Json → Prop where
  | here {schema : Json} (unreferring : schema.get? "$ref" = none) : Stops root schema (.ok schema)
  | noString {schema written : Json} (refers : schema.get? "$ref" = some written)
      (noString : ∀ reference, written ≠ .string reference) :
      Stops root schema (.error (.notLocal written.compact))
  | nowhere {schema : Json} {reference : String} {e : ReferenceError}
      (refers : schema.get? "$ref" = some (.string reference))
      (unresolved : dereference root reference = .error e) : Stops root schema (.error e)

/-- The chain from a schema stops after some hops, with this result. -/
def EndsWith (root schema : Json) (result : Except ReferenceError Json) : Prop :=
  ∃ last, ReflTransGen (Hop root) schema last ∧ Stops root last result

/-- The chain from a schema goes on for ever: wherever it has come, there is a next hop. -/
def Endless (root schema : Json) : Prop :=
  ∀ last, ReflTransGen (Hop root) schema last → ∃ next, Hop root last next

section Chain

variable {root schema next : Json} {result result' : Except ReferenceError Json}

/-- There is at most one hop from a schema. -/
theorem hop_rightUnique (root : Json) : Relator.RightUnique (Hop root) := by
  rintro schema next next' ⟨reference, hrefers, hresolves⟩ ⟨reference', hrefers', hresolves'⟩
  rw [hrefers] at hrefers'
  cases hrefers'
  rw [hresolves] at hresolves'
  exact Except.ok.inj hresolves'

/-- A chain does not hop on from where it stops. -/
theorem Stops.not_hop (h : Stops root schema result) : ¬ Hop root schema next := by
  rintro ⟨reference, hrefers, hresolves⟩
  cases h with
  | here unreferring =>
    rw [hrefers] at unreferring
    cases unreferring
  | noString refers noString =>
    rw [hrefers] at refers
    exact noString reference (Option.some.inj refers).symm
  | nowhere refers unresolved =>
    rw [hrefers] at refers
    cases refers
    rw [hresolves] at unresolved
    cases unresolved

/-- A chain stops at a schema in one way. -/
theorem Stops.unique (h : Stops root schema result) (h' : Stops root schema result') :
    result = result' := by
  cases h with
  | here unreferring =>
    cases h' with
    | here => rfl
    | noString refers =>
      rw [unreferring] at refers
      cases refers
    | nowhere refers =>
      rw [unreferring] at refers
      cases refers
  | noString refers noString =>
    cases h' with
    | here unreferring =>
      rw [refers] at unreferring
      cases unreferring
    | noString refers' =>
      rw [refers] at refers'
      cases refers'
      rfl
    | nowhere refers' =>
      rw [refers] at refers'
      exact absurd (Option.some.inj refers') (noString _)
  | nowhere refers unresolved =>
    cases h' with
    | here unreferring =>
      rw [refers] at unreferring
      cases unreferring
    | noString refers' noString =>
      rw [refers] at refers'
      exact absurd (Option.some.inj refers').symm (noString _)
    | nowhere refers' unresolved' =>
      rw [refers] at refers'
      cases refers'
      rw [← unresolved, unresolved']

/-- A chain that has stopped goes nowhere else. -/
theorem Stops.eq_of_reflTransGen (h : Stops root schema result)
    (hchain : ReflTransGen (Hop root) schema next) : next = schema := by
  rcases hchain.cases_head with rfl | ⟨other, hhop, -⟩
  · rfl
  · exact absurd hhop h.not_hop

/-- A chain comes to one end. -/
theorem EndsWith.unique (h : EndsWith root schema result) (h' : EndsWith root schema result') :
    result = result' := by
  obtain ⟨last, hchain, hstops⟩ := h
  obtain ⟨last', hchain', hstops'⟩ := h'
  rcases ReflTransGen.total_of_right_unique (hop_rightUnique root) hchain hchain' with hmore | hmore
  · obtain rfl := hstops.eq_of_reflTransGen hmore
    exact hstops.unique hstops'
  · obtain rfl := hstops'.eq_of_reflTransGen hmore
    exact hstops.unique hstops'

/-- A chain that goes on for ever comes to no end. -/
theorem Endless.not_endsWith (h : Endless root schema) : ¬ EndsWith root schema result := by
  rintro ⟨last, hchain, hstops⟩
  obtain ⟨next, hhop⟩ := h last hchain
  exact hstops.not_hop hhop

/-- A chain that hops comes to the end that it comes to from there. -/
theorem endsWith_iff_of_hop (h : Hop root schema next) :
    EndsWith root schema result ↔ EndsWith root next result := by
  constructor
  · rintro ⟨last, hchain, hstops⟩
    rcases hchain.cases_head with rfl | ⟨other, hhop, hrest⟩
    · exact absurd h hstops.not_hop
    · obtain rfl := hop_rightUnique root h hhop
      exact ⟨last, hrest, hstops⟩
  · rintro ⟨last, hchain, hstops⟩
    exact ⟨last, hchain.head h, hstops⟩

/-- A chain that hops to where it was before is there again after the same hops. -/
theorem transGen_of_hop (hloop : TransGen (Hop root) schema schema) (h : Hop root schema next) :
    TransGen (Hop root) next next := by
  obtain ⟨other, hhop, hrest⟩ := TransGen.head'_iff.1 hloop
  obtain rfl := hop_rightUnique root h hhop
  exact TransGen.tail' hrest h

/-- From a loop a chain comes to loops only. -/
theorem loop_of_reflTransGen (hloop : TransGen (Hop root) schema schema)
    (hchain : ReflTransGen (Hop root) schema next) : TransGen (Hop root) next next := by
  induction hchain with
  | refl => exact hloop
  | tail _ hhop ih => exact transGen_of_hop ih hhop

/-- From every schema of a loop there is a hop. -/
theorem exists_hop_of_loop (hloop : TransGen (Hop root) schema schema) :
    ∃ next, Hop root schema next := by
  obtain ⟨next, hhop, -⟩ := TransGen.head'_iff.1 hloop
  exact ⟨next, hhop⟩

/-- A chain that hops goes on for ever if it does from there. -/
theorem Endless.of_hop (h : Hop root schema next) (hnext : Endless root next) : Endless root schema := by
  intro last hlast
  rcases hlast.cases_head with rfl | ⟨other, hhop, hrest⟩
  · exact ⟨next, h⟩
  · obtain rfl := hop_rightUnique root h hhop
    exact hnext last hrest

/-- A chain that comes to a loop goes on for ever. -/
theorem endless_of_loop {loop : Json} (hchain : ReflTransGen (Hop root) schema loop)
    (hloop : TransGen (Hop root) loop loop) : Endless root schema := by
  intro last hlast
  rcases ReflTransGen.total_of_right_unique (hop_rightUnique root) hchain hlast with hin | hbefore
  · exact exists_hop_of_loop (loop_of_reflTransGen hloop hin)
  · rcases hbefore.cases_head with rfl | ⟨next, hhop, -⟩
    · exact exists_hop_of_loop hloop
    · exact ⟨next, hhop⟩

end Chain

/-! ### The schema that counts -/

/-- A reference was followed on a chain that has come to a schema. -/
def Followed (root schema : Json) (reference : String) : Prop :=
  ∃ target, dereference root reference = .ok target ∧ ReflTransGen (Hop root) target schema

section Follow

variable {root schema target : Json} {reference : String}

/-- A reference in a schema that was followed before closes a loop. -/
theorem endless_of_followed (hrefers : schema.get? "$ref" = some (.string reference))
    (h : Followed root schema reference) : Endless root schema := by
  obtain ⟨target, hresolves, hchain⟩ := h
  have hback : Hop root schema target := ⟨reference, hrefers, hresolves⟩
  exact endless_of_loop .refl (TransGen.head' hback hchain)

/-- The references of a schema that a hop leads to are references of the document. -/
theorem mem_references_of_hop (h : Hop root schema target)
    (hrefers : target.get? "$ref" = some (.string reference)) : reference ∈ root.references := by
  obtain ⟨_, _, hresolves⟩ := h
  obtain ⟨⟨keys, hdescend⟩, -⟩ := descend_of_dereference hresolves
  exact mem_references_of_descend hdescend (mem_references_of_get? hrefers)

/-- Following references comes to the end of the chain, or reports a cycle where there is no end. All
    references of the document, and that of the schema, are pending or were followed. -/
theorem follow_cases (root : Json) (pending trail : List String) (schema : Json)
    (hroot : ∀ reference ∈ root.references, reference ∈ pending ∨ Followed root schema reference)
    (hown : ∀ reference, schema.get? "$ref" = some (.string reference) →
      reference ∈ pending ∨ Followed root schema reference) :
    EndsWith root schema (follow root pending trail schema) ∨
      Endless root schema ∧ ∃ chain, follow root pending trail schema = .error (.cycle chain) := by
  fun_induction follow root pending trail schema with
  | case1 pending trail schema hget => exact .inl ⟨schema, .refl, .here hget⟩
  | case2 pending trail schema reference hget _ e hresolves =>
    exact .inl ⟨schema, .refl, .nowhere hget hresolves⟩
  | case3 pending trail schema reference hget _ target hresolves ih =>
    have hhop : Hop root schema target := ⟨reference, hget, hresolves⟩
    -- What was pending still is, unless it is the reference that was just followed.
    have htarget : ∀ other ∈ root.references,
        other ∈ strike reference pending ∨ Followed root target other := by
      intro other hother
      by_cases heq : other = reference
      · subst heq
        exact .inr ⟨target, hresolves, .refl⟩
      · rcases hroot other hother with hpending | ⟨first, hfirst, hchain⟩
        · exact .inl (List.mem_filter.2 ⟨hpending, by simpa using heq⟩)
        · exact .inr ⟨first, hfirst, hchain.tail hhop⟩
    rcases ih htarget fun other hrefers => htarget other (mem_references_of_hop hhop hrefers) with
      hends | ⟨hendless, hcycle⟩
    · exact .inl ((endsWith_iff_of_hop hhop).2 hends)
    · exact .inr ⟨.of_hop hhop hendless, hcycle⟩
  | case4 pending trail schema reference hget hmem =>
    rcases hown reference hget with hpending | hfollowed
    · exact absurd hpending hmem
    · exact .inr ⟨endless_of_followed hget hfollowed, _, rfl⟩
  | case5 pending trail schema other hother hget =>
    exact .inl ⟨schema, .refl, .noString hget fun reference heq => hother reference heq⟩

/-- The schema that counts is what the chain ends with, and a chain without an end is reported as a
    cycle. -/
theorem effectiveSchema_cases (root schema : Json) :
    EndsWith root schema (effectiveSchema root schema) ∨
      Endless root schema ∧ ∃ chain, effectiveSchema root schema = .error (.cycle chain) := by
  rw [effectiveSchema]
  by_cases hrefers : (schema.get? "$ref").isSome = true
  · rw [if_pos hrefers]
    refine follow_cases root _ [] schema (fun reference hmem => .inl ?_) fun reference hget => .inl ?_
    · exact List.mem_append_right _ hmem
    · exact List.mem_append_left _ (mem_references_of_get? hget)
  · rw [if_neg hrefers]
    exact .inl ⟨schema, .refl, .here (by simpa using hrefers)⟩

/-- A chain with an end decides the schema that counts. -/
theorem effectiveSchema_of_endsWith {result : Except ReferenceError Json}
    (h : EndsWith root schema result) : effectiveSchema root schema = result := by
  rcases effectiveSchema_cases root schema with hends | ⟨hendless, -⟩
  · exact hends.unique h
  · exact absurd h hendless.not_endsWith

/-- A chain without an end is a cycle. -/
theorem effectiveSchema_of_endless (h : Endless root schema) :
    ∃ chain, effectiveSchema root schema = .error (.cycle chain) := by
  rcases effectiveSchema_cases root schema with hends | ⟨-, hcycle⟩
  · exact absurd hends h.not_endsWith
  · exact hcycle

/-- A hop changes neither the schema that counts nor the variant of an error. Only the references that a
    cycle lists may begin one hop later. -/
theorem effectiveSchema_of_hop (h : Hop root schema target) :
    (effectiveSchema root schema).mapError ReferenceError.variant =
      (effectiveSchema root target).mapError ReferenceError.variant := by
  rcases effectiveSchema_cases root target with hends | ⟨hendless, chain, hcycle⟩
  · rw [effectiveSchema_of_endsWith ((endsWith_iff_of_hop h).2 hends)]
  · obtain ⟨chain', hcycle'⟩ := effectiveSchema_of_endless (.of_hop h hendless)
    rw [hcycle, hcycle']
    rfl

end Follow

end Conform
