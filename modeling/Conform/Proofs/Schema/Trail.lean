/-
Module: Conform.Proofs.Schema.Trail
Purpose: Chains of references with a memory. A chain is followed with the references that were followed so
  far, in their order: it stops, or it comes to one of them again, or it hops on and remembers one more.
  The schema that counts is the end of the chain that is followed from an empty memory; which other
  references the document has does not matter.
Main exports: Follows, Follows.unique, follows_effectiveSchema, effectiveSchema_of_follows
-/
import Conform.Proofs.Schema.Chain

namespace Conform

open Json

/-- A chain is followed from a schema, after the references on the trail, to this result. -/
inductive Follows (root : Json) : List String → Json → Except ReferenceError Json → Prop where
  | stops {trail : List String} {schema : Json} {result : Except ReferenceError Json}
      (stops : Stops root schema result)
      (fresh : ∀ reference, schema.get? "$ref" = some (.string reference) → reference ∉ trail) :
      Follows root trail schema result
  | again {trail : List String} {schema : Json} {reference : String}
      (refers : schema.get? "$ref" = some (.string reference)) (followed : reference ∈ trail) :
      Follows root trail schema (.error (.cycle (trail ++ [reference])))
  | hop {trail : List String} {schema next : Json} {reference : String}
      {result : Except ReferenceError Json}
      (refers : schema.get? "$ref" = some (.string reference)) (fresh : reference ∉ trail)
      (resolves : dereference root reference = .ok next)
      (rest : Follows root (trail ++ [reference]) next result) : Follows root trail schema result

section Trail

variable {root schema schema' : Json} {trail : List String} {result result' : Except ReferenceError Json}

/-- A chain is followed to one result. -/
theorem Follows.unique (h : Follows root trail schema result) (h' : Follows root trail schema result') :
    result = result' := by
  induction h with
  | stops stops fresh =>
    cases h' with
    | stops stops' => exact stops.unique stops'
    | again refers followed => exact absurd followed (fresh _ refers)
    | hop refers _ resolves => exact absurd ⟨_, refers, resolves⟩ stops.not_hop
  | again refers followed =>
    cases h' with
    | stops _ fresh => exact absurd followed (fresh _ refers)
    | again refers' =>
      rw [refers] at refers'
      cases refers'
      rfl
    | hop refers' fresh =>
      rw [refers] at refers'
      cases refers'
      exact absurd followed fresh
  | hop refers fresh resolves _ ih =>
    cases h' with
    | stops stops => exact absurd ⟨_, refers, resolves⟩ stops.not_hop
    | again refers' followed =>
      rw [refers] at refers'
      cases refers'
      exact absurd followed fresh
    | hop refers' _ resolves' rest =>
      rw [refers] at refers'
      cases refers'
      rw [resolves] at resolves'
      cases resolves'
      exact ih rest

/-- From schemas with the same reference the same chain is followed. -/
theorem Follows.congr_reference (h : Follows root trail schema result)
    (hsame : schema'.get? "$ref" = schema.get? "$ref") (hrefers : (schema.get? "$ref").isSome = true) :
    Follows root trail schema' result := by
  cases h with
  | stops stops fresh =>
    refine .stops ?_ fun reference hreference => fresh reference (hsame.symm.trans hreference)
    cases stops with
    | here unreferring =>
      rw [unreferring] at hrefers
      cases hrefers
    | noString refers noString => exact .noString (hsame.trans refers) noString
    | nowhere refers unresolved => exact .nowhere (hsame.trans refers) unresolved
  | again refers followed => exact .again (hsame.trans refers) followed
  | hop refers fresh resolves rest => exact .hop (hsame.trans refers) fresh resolves rest

/-- Following references with a list of pending ones follows the chain, as long as all references of the
    document, and that of the schema, are either pending or on the trail. -/
theorem follows_follow (root : Json) (pending trail : List String) (schema : Json)
    (hroot : ∀ reference ∈ root.references, reference ∈ pending ∨ reference ∈ trail)
    (hown : ∀ reference, schema.get? "$ref" = some (.string reference) →
      reference ∈ pending ∨ reference ∈ trail)
    (hfresh : ∀ reference ∈ pending, reference ∉ trail) :
    Follows root trail schema (follow root pending trail schema) := by
  fun_induction follow root pending trail schema with
  | case1 pending trail schema hget =>
    apply Follows.stops (.here hget)
    intro reference hrefers
    rw [hget] at hrefers
    cases hrefers
  | case2 pending trail schema reference hget hmem e hresolves =>
    apply Follows.stops (.nowhere hget hresolves)
    intro other hrefers
    rw [hget] at hrefers
    cases hrefers
    exact hfresh reference hmem
  | case3 pending trail schema reference hget hmem target hresolves ih =>
    have hhop : Hop root schema target := ⟨reference, hget, hresolves⟩
    -- The reference moves from the pending ones to the trail; the others stay where they are.
    have htarget : ∀ other ∈ root.references,
        other ∈ strike reference pending ∨ other ∈ trail ++ [reference] := by
      intro other hother
      by_cases heq : other = reference
      · exact .inr (List.mem_append_right _ (List.mem_singleton.2 heq))
      · rcases hroot other hother with hpending | hfollowed
        · exact .inl (List.mem_filter.2 ⟨hpending, by simpa using heq⟩)
        · exact .inr (List.mem_append_left _ hfollowed)
    refine .hop hget (hfresh reference hmem) hresolves (ih htarget ?_ ?_)
    · intro other hrefers
      exact htarget other (mem_references_of_hop hhop hrefers)
    · intro other hother hfollowed
      obtain ⟨hpending, hne⟩ := List.mem_filter.1 hother
      rcases List.mem_append.1 hfollowed with hbefore | hlast
      · exact hfresh other hpending hbefore
      · rw [List.mem_singleton.1 hlast] at hne
        simp at hne
  | case4 pending trail schema reference hget hmem =>
    rcases hown reference hget with hpending | hfollowed
    · exact absurd hpending hmem
    · exact .again hget hfollowed
  | case5 pending trail schema other hother hget =>
    have hstring : ∀ reference, other ≠ .string reference := fun reference heq => hother reference heq
    apply Follows.stops (.noString hget hstring)
    intro reference hrefers
    rw [hget] at hrefers
    exact absurd (Option.some.inj hrefers) (hstring reference)

/-- The schema that counts is what the chain is followed to from an empty trail. -/
theorem follows_effectiveSchema (root schema : Json) :
    Follows root [] schema (effectiveSchema root schema) := by
  rw [effectiveSchema]
  by_cases hrefers : (schema.get? "$ref").isSome = true
  · rw [if_pos hrefers]
    apply follows_follow
    · intro reference hmem
      exact .inl (List.mem_append_right _ hmem)
    · intro reference hget
      exact .inl (List.mem_append_left _ (mem_references_of_get? hget))
    · intro reference _
      exact List.not_mem_nil
  · rw [if_neg hrefers]
    have hnone : schema.get? "$ref" = none := by simpa using hrefers
    exact .stops (.here hnone) fun reference _ => List.not_mem_nil

/-- What a chain is followed to from an empty trail is the schema that counts. -/
theorem effectiveSchema_of_follows (h : Follows root [] schema result) :
    effectiveSchema root schema = result :=
  (follows_effectiveSchema root schema).unique h

end Trail

end Conform
