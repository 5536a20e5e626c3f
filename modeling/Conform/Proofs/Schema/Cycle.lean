/-
Module: Conform.Proofs.Schema.Cycle
Purpose: What is reported about a chain of references is what becomes of it without a memory. A chain that
  comes to a schema without a reference, or to a reference that leads nowhere, is reported with that end,
  and a cycle is reported exactly if the chain goes on for ever. References are followed once each: behind
  the first, which may be that of a schema outside of the document, only references of the document come
  up, so there are few of them.
Main exports: HopsAlong, Json.ownReference?, HopsAlong.length_dedup_le, Follows.exists_hopsAlong,
  effectiveSchema_decides_chain
-/
import Conform.Proofs.Schema.Trail
import Mathlib.Data.List.Perm.Subperm
import Mathlib.Data.List.Dedup

namespace Conform

open Json Relation

/-! ### Hops with their references -/

/-- A chain hops from a schema to another along these references, in this order. Nothing is remembered, so
    a reference may come up again and again. -/
inductive HopsAlong (root : Json) : Json → List String → Json → Prop where
  | nil {schema : Json} : HopsAlong root schema [] schema
  | cons {schema next last : Json} {reference : String} {references : List String}
      (refers : schema.get? "$ref" = some (.string reference))
      (resolves : dereference root reference = .ok next) (rest : HopsAlong root next references last) :
      HopsAlong root schema (reference :: references) last

/-- The reference of a schema itself, if there is one and it is a string. -/
def Json.ownReference? (schema : Json) : Option String :=
  (schema.get? "$ref").bind asString?

section Hops

variable {root schema next last : Json} {references : List String} {reference : String}

theorem ownReference?_eq_some_iff :
    schema.ownReference? = some reference ↔ schema.get? "$ref" = some (.string reference) := by
  rw [ownReference?]
  cases schema.get? "$ref" with
  | none => simp
  | some written => cases written <;> simp [asString?]

/-- Where hops along references lead, the chain comes to. -/
theorem HopsAlong.reflTransGen (h : HopsAlong root schema references last) :
    ReflTransGen (Hop root) schema last := by
  induction h with
  | nil => exact .refl
  | cons refers resolves _ ih => exact .head ⟨_, refers, resolves⟩ ih

/-- Behind a hop, only references of the document come up. -/
theorem HopsAlong.subset_references (h : HopsAlong root next references last)
    (hhop : Hop root schema next) :
    references ++ last.ownReference?.toList ⊆ root.references := by
  induction h generalizing schema with
  | nil =>
    intro reference hreference
    rw [List.nil_append, Option.mem_toList] at hreference
    exact mem_references_of_hop hhop (ownReference?_eq_some_iff.1 hreference)
  | cons refers resolves _ ih =>
    rw [List.cons_append]
    exact List.cons_subset.2 ⟨mem_references_of_hop hhop refers, ih ⟨_, refers, resolves⟩⟩

/-- On a chain there is at most one reference more than there are in the document, each counted once. -/
theorem HopsAlong.length_dedup_le (h : HopsAlong root schema references last) :
    (references ++ last.ownReference?.toList).dedup.length ≤ 1 + root.references.dedup.length := by
  cases h with
  | nil =>
    calc schema.ownReference?.toList.dedup.length
      _ ≤ schema.ownReference?.toList.length := (List.dedup_sublist _).length_le
      _ ≤ 1 := by cases schema.ownReference? <;> simp
      _ ≤ 1 + root.references.dedup.length := Nat.le_add_right _ _
  | @cons _ _ _ reference rest refers resolves hrest =>
    have hsubset : (reference :: rest ++ last.ownReference?.toList).dedup ⊆
        reference :: root.references.dedup := by
      intro other hother
      rcases List.mem_cons.1 (List.mem_dedup.1 hother) with rfl | hmem
      · exact List.mem_cons_self
      · exact List.mem_cons_of_mem _
          (List.mem_dedup.2 (hrest.subset_references ⟨_, refers, resolves⟩ hmem))
    rw [Nat.add_comm]
    exact (List.subperm_of_subset (List.nodup_dedup _) hsubset).length_le

end Hops

/-! ### Hops with a memory -/

section Memory

variable {root schema : Json} {trail : List String} {result : Except ReferenceError Json}

/-- A chain that is followed with a memory hops along references that are all new. It stops where the
    chain stops without a memory, or it has come to a schema whose reference was followed before. -/
theorem Follows.exists_hopsAlong (h : Follows root trail schema result) (hnodup : trail.Nodup) :
    ∃ references last, HopsAlong root schema references last ∧ (trail ++ references).Nodup ∧
      (Stops root last result ∨ ∃ reference ∈ trail ++ references,
        last.get? "$ref" = some (.string reference) ∧
          result = .error (.cycle (trail ++ references ++ [reference]))) := by
  induction h with
  | stops stops =>
    refine ⟨[], _, .nil, ?_, .inl stops⟩
    rwa [List.append_nil]
  | again refers followed =>
    refine ⟨[], _, .nil, ?_, .inr ⟨_, ?_, refers, ?_⟩⟩
    · rwa [List.append_nil]
    · rwa [List.append_nil]
    · rw [List.append_nil]
  | @hop trail _ _ reference _ refers fresh resolves _ ih =>
    have hlonger : (trail ++ [reference]).Nodup := by
      rw [← List.concat_eq_append]
      exact hnodup.concat fresh
    obtain ⟨references, last, hhops, hdistinct, hend⟩ := ih hlonger
    -- What is new to the longer memory stands behind the reference that was followed to get there.
    rw [List.append_assoc, List.singleton_append] at hdistinct hend
    exact ⟨reference :: references, last, .cons refers resolves hhops, hdistinct, hend⟩

/-- The schema that counts is found along references that are all different, or the last of them comes up
    again and closes a cycle. -/
theorem exists_hopsAlong_effectiveSchema (root schema : Json) :
    ∃ references last, HopsAlong root schema references last ∧ references.Nodup ∧
      (Stops root last (effectiveSchema root schema) ∨ ∃ reference ∈ references,
        last.get? "$ref" = some (.string reference) ∧
          effectiveSchema root schema = .error (.cycle (references ++ [reference]))) :=
  (follows_effectiveSchema root schema).exists_hopsAlong .nil

/-! ### Ends and cycles -/

/-- The result of a chain that stops is no cycle. -/
theorem EndsWith.ne_cycle (h : EndsWith root schema result) (chain : List String) :
    result ≠ .error (.cycle chain) := by
  obtain ⟨last, -, hstops⟩ := h
  rintro rfl
  cases hstops with
  | nowhere _ unresolved =>
    rw [dereference] at unresolved
    split at unresolved
    · cases unresolved
    · split at unresolved
      · cases unresolved
      · split at unresolved <;> cases unresolved

/-- Every result but a cycle is the end of the chain. -/
theorem effectiveSchema_eq_iff_endsWith (h : ∀ chain, result ≠ .error (.cycle chain)) :
    effectiveSchema root schema = result ↔ EndsWith root schema result := by
  constructor
  · rintro rfl
    rcases effectiveSchema_cases root schema with hends | ⟨-, chain, hcycle⟩
    · exact hends
    · exact absurd hcycle (h chain)
  · exact effectiveSchema_of_endsWith

/-- A cycle is reported exactly where the chain has no end. -/
theorem effectiveSchema_eq_cycle_iff_endless :
    (∃ chain, effectiveSchema root schema = .error (.cycle chain)) ↔ Endless root schema := by
  constructor
  · rintro ⟨chain, hcycle⟩
    rcases effectiveSchema_cases root schema with hends | ⟨hendless, -⟩
    · exact absurd hcycle (hends.ne_cycle chain)
    · exact hendless
  · exact effectiveSchema_of_endless

/-- A chain ends with a schema exactly if it comes to this schema and there is no reference in it. -/
theorem endsWith_ok_iff {target : Json} :
    EndsWith root schema (.ok target) ↔
      ReflTransGen (Hop root) schema target ∧ target.get? "$ref" = none := by
  constructor
  · rintro ⟨last, hchain, hstops⟩
    cases hstops with
    | here unreferring => exact ⟨hchain, unreferring⟩
  · rintro ⟨hchain, hunreferring⟩
    exact ⟨target, hchain, .here hunreferring⟩

end Memory

/-- The schema that counts is the one without a reference that the chain comes to; each of the errors of a
    single reference is reported exactly if the chain stops with it; and a cycle exactly if the chain goes
    on for ever. A cycle is reported with references that are all different, in the order of the hops
    along them, and behind them the one that has come up again. However far a chain is followed, the
    references up to there and that of the schema it has come to are at most one more than the document
    has. -/
theorem effectiveSchema_decides_chain (root schema : Json) :
    (∀ target, effectiveSchema root schema = .ok target ↔
      ReflTransGen (Hop root) schema target ∧ target.get? "$ref" = none) ∧
    (∀ reference, effectiveSchema root schema = .error (.notLocal reference) ↔
      EndsWith root schema (.error (.notLocal reference))) ∧
    (∀ reference key, effectiveSchema root schema = .error (.missingKey reference key) ↔
      EndsWith root schema (.error (.missingKey reference key))) ∧
    (∀ reference, effectiveSchema root schema = .error (.notAnObject reference) ↔
      EndsWith root schema (.error (.notAnObject reference))) ∧
    ((∃ chain, effectiveSchema root schema = .error (.cycle chain)) ↔ Endless root schema) ∧
    (∀ chain, effectiveSchema root schema = .error (.cycle chain) →
      ∃ references reference last, chain = references ++ [reference] ∧
        HopsAlong root schema references last ∧ last.get? "$ref" = some (.string reference) ∧
        references.Nodup ∧ reference ∈ references) ∧
    ∀ references last, HopsAlong root schema references last →
      (references ++ last.ownReference?.toList).dedup.length ≤ 1 + root.references.dedup.length := by
  refine ⟨fun target => ?_, fun reference => ?_, fun reference key => ?_, fun reference => ?_,
    effectiveSchema_eq_cycle_iff_endless, fun chain hcycle => ?_,
    fun references last h => h.length_dedup_le⟩
  · rw [← endsWith_ok_iff]
    exact effectiveSchema_eq_iff_endsWith fun _ h => nomatch h
  · exact effectiveSchema_eq_iff_endsWith fun _ h => nomatch h
  · exact effectiveSchema_eq_iff_endsWith fun _ h => nomatch h
  · exact effectiveSchema_eq_iff_endsWith fun _ h => nomatch h
  · obtain ⟨references, last, hhops, hnodup, hend⟩ := exists_hopsAlong_effectiveSchema root schema
    rcases hend with hstops | ⟨reference, hmem, hrefers, hreported⟩
    · exact absurd hcycle (EndsWith.ne_cycle ⟨last, hhops.reflTransGen, hstops⟩ chain)
    · rw [hcycle] at hreported
      cases hreported
      exact ⟨references, reference, last, rfl, hhops, hrefers, hnodup, hmem⟩

/-- A chain that begins outside of the document and comes to a cycle without its start: the references are
    reported up to the one that comes up again, and they are one more than the document has. -/
theorem effectiveSchema_decides_chain_tail :
    let refer (reference : String) : Json := .object [("$ref", .string reference)]
    let root : Json := .object [("a", refer "#/b"), ("b", refer "#/c"), ("c", refer "#/b")]
    effectiveSchema root (refer "#/a") = .error (.cycle ["#/a", "#/b", "#/c", "#/b"]) ∧
      Endless root (refer "#/a") ∧ HopsAlong root (refer "#/a") ["#/a", "#/b", "#/c"] (refer "#/b") ∧
      ["#/a", "#/b", "#/c", "#/b"].dedup.length ≤ 1 + root.references.dedup.length ∧
      ["#/a", "#/b", "#/c", "#/b"].dedup.length = 3 ∧ root.references.dedup.length = 2 := by
  intro refer root
  have ha : dereference root "#/a" = .ok (refer "#/b") := rfl
  have hb : dereference root "#/b" = .ok (refer "#/c") := rfl
  have hc : dereference root "#/c" = .ok (refer "#/b") := rfl
  have hfollows : Follows root [] (refer "#/a") (.error (.cycle ["#/a", "#/b", "#/c", "#/b"])) :=
    .hop rfl (by decide) ha <| .hop rfl (by decide) hb <| .hop rfl (by decide) hc <|
      .again rfl (by decide)
  have hcycle := effectiveSchema_of_follows hfollows
  have hhops : HopsAlong root (refer "#/a") ["#/a", "#/b", "#/c"] (refer "#/b") :=
    .cons rfl rfl (.cons rfl rfl (.cons rfl rfl .nil))
  obtain ⟨-, -, -, -, hendless, -, hlength⟩ := effectiveSchema_decides_chain root (refer "#/a")
  exact ⟨hcycle, hendless.1 ⟨_, hcycle⟩, hhops, hlength _ _ hhops, by decide, by decide⟩

end Conform
