/-
Module: Conform.Proofs.Schema.Extended
Purpose: Documents with more entries at the top. One step adds one entry, under a name that is new and no
  recognized keyword; any number of steps may follow. What a reference leads to in a document, it leads to
  in the extended one, and it fails in the same way unless a key was missing: such a key may be there now.
  No reference leads to the document as a whole, so nothing below the top has changed.
Main exports: recognized, ExtensionStep, Extended, Json.Extends, extends_of_extended, Follows.extends,
  effectiveSchema_of_extends, Node.ofJson_of_extends
-/
import Conform.Proofs.Schema.Guarded
import Conform.Proofs.Schema.Tightened
import Conform.Proofs.Schema.Trail

namespace Conform

open Json

/-! ### Steps -/

/-- The keywords that a check looks at. -/
def recognized : List String := "$ref" :: Json.keywords

/-- One entry is added at the top, with any value and at any place in the order, under a name that is new
    and no recognized keyword. -/
inductive ExtensionStep : Json → Json → Prop where
  | entry {members members' : List (String × Json)} {name : String} {written : Json}
      (unrecognized : name ∉ recognized) (added : Entries.Added name written members members') :
      ExtensionStep (.object members) (.object members')

/-- Any number of entries are added one after the other. -/
def Extended : Json → Json → Prop := Relation.ReflTransGen ExtensionStep

namespace Json

/-- The second document has all entries of the first, and the same recognized keywords. -/
structure Extends (root root' : Json) : Prop where
  kept : ∀ key inner, root.get? key = some inner → root'.get? key = some inner
  keywords : ∀ keyword ∈ recognized, root'.get? keyword = root.get? keyword

end Json

/-- A step keeps all entries and adds no recognized keyword. -/
theorem extends_of_extensionStep {root root' : Json} (h : ExtensionStep root root') :
    Extends root root' := by
  cases h with
  | entry unrecognized added =>
    constructor
    · intro key inner hfound
      exact added.lookup_eq_some hfound
    · intro keyword hkeyword
      apply added.lookup_of_ne
      intro heq
      subst heq
      exact unrecognized hkeyword

/-- An extended document has all entries and the same recognized keywords. -/
theorem extends_of_extended {root root' : Json} (h : Extended root root') : Extends root root' := by
  induction h with
  | refl => exact ⟨fun _ _ hfound => hfound, fun _ _ => rfl⟩
  | tail _ hstep ih =>
    have hlast := extends_of_extensionStep hstep
    constructor
    · intro key inner hfound
      exact hlast.kept key inner (ih.kept key inner hfound)
    · intro keyword hkeyword
      exact (hlast.keywords keyword hkeyword).trans (ih.keywords keyword hkeyword)

section Resolution

variable {root root' : Json}

/-! ### References -/

/-- A local reference names at least one key, so it never leads to the document as a whole. -/
theorem exists_cons_of_keysOf? {reference : String} {keys : List String}
    (h : keysOf? reference = some keys) :
    ∃ key rest, keys = key :: rest := by
  apply List.exists_cons_of_ne_nil
  intro hnil
  subst hnil
  rw [keysOf?] at h
  split at h
  · exact absurd (List.map_eq_nil_iff.1 (Option.some.inj h)) (List.splitOn_ne_nil _ _)
  · cases h

/-- A reference fails with a missing key, or it leads to the same in the extended document. -/
theorem dereference_of_extends (h : Extends root root') (reference : String) :
    (∃ key, dereference root reference = .error (.missingKey reference key)) ∨
      dereference root' reference = dereference root reference := by
  rw [dereference, dereference]
  cases hkeys : keysOf? reference with
  | none => exact .inr rfl
  | some keys =>
    obtain ⟨key, rest, rfl⟩ := exists_cons_of_keysOf? hkeys
    cases hget : root.get? key with
    | none => exact .inl ⟨key, by simp only [descend, hget]⟩
    | some inner =>
      right
      simp only [descend, hget, h.kept key inner hget]

/-- A chain is followed to the same result in the extended document, unless a key was missing. -/
theorem Follows.extends (h : Extends root root') {trail : List String} {schema : Json}
    {result : Except ReferenceError Json} (hfollows : Follows root trail schema result)
    (hkeys : ∀ reference key, result ≠ .error (.missingKey reference key)) :
    Follows root' trail schema result := by
  induction hfollows with
  | stops stops fresh =>
    refine .stops ?_ fresh
    cases stops with
    | here unreferring => exact .here unreferring
    | noString refers noString => exact .noString refers noString
    | nowhere refers unresolved =>
      apply Stops.nowhere refers
      rcases dereference_of_extends h _ with ⟨key, hmissing⟩ | hsame
      · rw [unresolved] at hmissing
        exact absurd hmissing (hkeys _ key)
      · exact hsame.trans unresolved
  | again refers followed => exact .again refers followed
  | hop refers fresh resolves _ ih =>
    refine .hop refers fresh ?_ (ih hkeys)
    rcases dereference_of_extends h _ with ⟨key, hmissing⟩ | hsame
    · rw [resolves] at hmissing
      cases hmissing
    · exact hsame.trans resolves

/-- The same schema counts in the extended document, unless a key was missing. -/
theorem effectiveSchema_of_extends (h : Extends root root') {schema : Json}
    (hkeys : ∀ reference key, effectiveSchema root schema ≠ .error (.missingKey reference key)) :
    effectiveSchema root' schema = effectiveSchema root schema :=
  effectiveSchema_of_follows ((follows_effectiveSchema root schema).extends h hkeys)

/-! ### The document as a schema -/

/-- An extended document has the same typed keywords. -/
theorem Node.ofJson_of_extends (h : Extends root root') : Node.ofJson root' = Node.ofJson root := by
  have hget : ∀ keyword ∈ recognized, root'.get? keyword = root.get? keyword := h.keywords
  have htypes : typesOf? root' = typesOf? root := by
    rw [typesOf?, hget "type" (by decide), typesOf?]
  have hany : ∀ keywords, keywords ⊆ recognized → hasAny root' keywords = hasAny root keywords := by
    intro keywords hsubset
    rw [hasAny, hasAny, Bool.eq_iff_iff, List.any_eq_true, List.any_eq_true]
    apply exists_congr
    intro keyword
    apply and_congr_right
    intro hmem
    rw [hget keyword (hsubset hmem)]
  rw [ofJson, ofJson, requiredOf, requiredOf, extraOf, extraOf, declares, declares, declares,
    declares, htypes, hget "$ref" (by decide), hget "const" (by decide), hget "enum" (by decide),
    hget "properties" (by decide), hget "required" (by decide),
    hget "additionalProperties" (by decide), hget "items" (by decide),
    hget "uniqueItems" (by decide), hany _ (by decide), hany _ (by decide)]

/-- The extended document and the document itself lead to the same schema, or both count themselves. -/
theorem effectiveSchema_self_of_extends (h : Extends root root') :
    effectiveSchema root' root' = effectiveSchema root' root ∨
      effectiveSchema root' root' = .ok root' ∧ effectiveSchema root' root = .ok root := by
  have hsame : root'.get? "$ref" = root.get? "$ref" := h.keywords "$ref" (by decide)
  cases hget : root.get? "$ref" with
  | none =>
    exact .inr ⟨effectiveSchema_of_get?_eq_none (hsame.trans hget), effectiveSchema_of_get?_eq_none hget⟩
  | some written =>
    have hrefers : (root.get? "$ref").isSome = true := by
      rw [hget]
      rfl
    exact .inl (effectiveSchema_of_follows
      ((follows_effectiveSchema root' root).congr_reference hsame hrefers))

end Resolution

end Conform
