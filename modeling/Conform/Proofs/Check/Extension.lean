/-
Module: Conform.Proofs.Check.Extension
Purpose: New entries at the top of a document are not seen by a check, as long as their names are no
  recognized keywords. The document is the schema that the check begins with and the one that all
  references are resolved in; so each visit against the document is compared with the visit against the
  extended one, up to a reference that lacks a key, which is the one error that a new entry can mend.
Main exports: Outcome.Settled, Outcome.Keeps, visit_keeps, check_of_extended
-/
import Conform.Proofs.Check.Inlining
import Conform.Proofs.Schema.Extended

namespace Conform

open Json

/-! ### Settled walks -/

namespace Outcome

/-- The walk was not cut short by a missing key. -/
def Settled (o : Outcome) : Prop := ∀ reference key, o.failure ≠ some (.missingKey reference key)

/-- Another walk comes to the same if the first is settled. -/
def Keeps (o o' : Outcome) : Prop := o.Settled → o' = o

variable {a a' : Outcome}

/-- A walk that ends normally is settled. -/
theorem settled_of_ends (h : a.failure = none) : a.Settled := by
  intro reference key hmissing
  rw [h] at hmissing
  cases hmissing

theorem Keeps.of_eq (h : a' = a) : Keeps a a' := fun _ => h

/-- Walks in a row come to the same if each does. The second walk need not be settled where the first was
    cut short, since it is not made. -/
theorem congruence_keeps : Congruence Keeps := by
  constructor
  · intro o
    exact .of_eq rfl
  · intro a a' b b' h h' hsettled
    rcases a with ⟨findings, _ | e⟩
    · rw [h (settled_of_ends rfl), h' hsettled]
    · rw [h hsettled]
      rfl

end Outcome

open Outcome

/-! ### Visits below the top -/

section Visits

variable {root root' value : Json} {node : Node} {place : Location}

/-- A member is checked alike in both documents, if its value is against every schema. -/
theorem visitMember_keeps {key : String} {part : Json}
    (hpart : ∀ schema place, Keeps (visit root schema place part) (visit root' schema place part)) :
    Keeps (visitMember root node place (key, part)) (visitMember root' node place (key, part)) := by
  rw [visitMember, visitMember]
  cases node.memberRule key with
  | schema schema => exact hpart schema _
  | deny => exact .of_eq rfl
  | allow => exact .of_eq rfl

/-- An element is checked alike in both documents, if it is against every schema. -/
theorem visitElement_keeps {part : Json} {i : Nat}
    (hpart : ∀ schema place, Keeps (visit root schema place part) (visit root' schema place part)) :
    Keeps (visitElement root node place (part, i)) (visitElement root' node place (part, i)) := by
  rw [visitElement, visitElement]
  cases node.items with
  | some schema => exact hpart schema _
  | none => exact .of_eq rfl

/-- A value is checked alike in both documents against any schema. The induction is on the value, since
    the schema for a part is looked up wherever the references lead. -/
theorem visit_keeps (h : Extends root root') (value : Json) :
    ∀ schema place, Keeps (visit root schema place value) (visit root' schema place value) := by
  induction value using partInduction with
  | step value ih =>
    intro schema place
    cases hresolves : effectiveSchema root schema with
    | error e =>
      intro hsettled
      rw [visit_of_error hresolves] at hsettled ⊢
      apply visit_of_error
      rw [effectiveSchema_of_extends h, hresolves]
      intro reference key hmissing
      rw [hresolves] at hmissing
      exact hsettled reference key (congrArg some (Except.error.inj hmissing))
    | ok target =>
      have hresolves' : effectiveSchema root' schema = .ok target := by
        rw [effectiveSchema_of_extends h, hresolves]
        intro reference key hmissing
        rw [hresolves] at hmissing
        cases hmissing
      cases htype : (Node.ofJson target).typeViolation? value with
      | some violation =>
        rw [visit_of_mistyped hresolves htype, visit_of_mistyped hresolves' htype]
        exact .of_eq rfl
      | none =>
        rw [visit_of_typed hresolves htype, visit_of_typed hresolves' htype]
        apply congruence_keeps.andThen (.of_eq rfl)
        apply visitParts_congr congruence_keeps (.refl _)
        · intro key part hmember
          exact visitMember_keeps (ih part hmember.part)
        · intro part i helement
          exact visitElement_keeps (ih part helement.part)

/-! ### The top -/

/-- Schemas with the same typed keywords that count themselves are the same to a visit. -/
theorem visit_congr_ofJson {schema schema' : Json} (hself : effectiveSchema root schema = .ok schema)
    (hself' : effectiveSchema root schema' = .ok schema')
    (hnode : Node.ofJson schema' = Node.ofJson schema) :
    visit root schema' place value = visit root schema place value := by
  rw [visit, visit, hself, hself']
  simp only [hnode]

/-- The extended document as a schema asks what the document asks. -/
theorem visit_self_of_extends (h : Extends root root') :
    visit root' root' place value = visit root' root place value := by
  rcases effectiveSchema_self_of_extends h with hsame | ⟨hself', hself⟩
  · exact visit_congr_effectiveSchema hsame
  · exact visit_congr_ofJson hself hself' (Node.ofJson_of_extends h)

/-- A check against a document comes to the same against the extended one, unless a key was missing. -/
theorem visit_root_keeps (h : Extends root root') :
    Keeps (visit root root place value) (visit root' root' place value) := by
  intro hsettled
  rw [visit_self_of_extends h]
  exact visit_keeps h value root place hsettled

end Visits

/-- New entries at the top of a document change nothing: a report stays the same, and so does a reference
    error other than a missing key. -/
theorem check_of_extended {root root' : Json} (h : Extended root root') (value : Json) :
    (∀ report, check root value = .ok report → check root' value = .ok report) ∧
      ∀ e, check root value = .error e → (∀ reference key, e ≠ .missingKey reference key) →
        check root' value = .error e := by
  have hkeeps : Keeps (visit root root .whole value) (visit root' root' .whole value) :=
    visit_root_keeps (extends_of_extended h)
  constructor
  · intro report hreport
    obtain ⟨hends, rfl⟩ := check_eq_ok_iff.1 hreport
    rw [check_eq_ok_iff, hkeeps (settled_of_ends hends)]
    exact ⟨hends, rfl⟩
  · intro e herror hkeys
    have hfails := check_eq_error_iff.1 herror
    have hsettled : (visit root root .whole value).Settled := by
      intro reference key hmissing
      exact hkeys reference key (Option.some.inj (hfails.symm.trans hmissing))
    rw [check_eq_error_iff, hkeeps hsettled]
    exact hfails

/-- A document that refers to a recursive schema gets a title in front and definitions between its
    entries. The report on one value stays the same, and so does the cycle that another
    value runs into. -/
theorem check_of_extended_titled :
    let node : Json := .object [("properties",
      .object [("next", .object [("$ref", .string "#/parts/node")]),
        ("loop", .object [("$ref", .string "#/parts/loop")])]), ("required", .array [.string "name"])]
    let loop : Json := .object [("$ref", .string "#/parts/loop")]
    let refers : String × Json := ("$ref", .string "#/parts/node")
    let parts : String × Json := ("parts", .object [("node", node), ("loop", loop)])
    let title : String × Json := ("title", .string "Lists")
    let defs : String × Json := ("$defs", .object [("node", .object [("type", .string "null")])])
    let root : Json := .object [refers, parts]
    let root' : Json := .object [title, refers, defs, parts]
    let list : Json := .object [("next", .object [("name", .string "last")])]
    let looping : Json := .object [("name", .null), ("loop", .null)]
    let report : Report := ⟨[⟨"$.name", .missingRequired, "missing required property"⟩]⟩
    let cycle : ReferenceError := .cycle ["#/parts/loop", "#/parts/loop"]
    Extended root root' ∧
      (check root list = .ok report ∧ check root' list = .ok report) ∧
      (∀ reference key, cycle ≠ .missingKey reference key) ∧
      check root looping = .error cycle ∧ check root' looping = .error cycle := by
  intro node loop refers parts title defs root root' list looping report cycle
  have htitle : ExtensionStep root (.object [title, refers, parts]) :=
    .entry (by decide) (.between [] _ rfl)
  have hdefs : ExtensionStep (.object [title, refers, parts]) root' :=
    .entry (by decide) (.between [title, refers] [parts] rfl)
  have hextended : Extended root root' := (Relation.ReflTransGen.single htitle).tail hdefs
  have hreport : check root list = .ok report := by decide +kernel
  have hcycle : check root looping = .error cycle := by decide +kernel
  have hother : ∀ reference key, cycle ≠ .missingKey reference key :=
    fun _ _ => ReferenceError.noConfusion
  exact ⟨hextended, ⟨hreport, (check_of_extended hextended list).1 report hreport⟩, hother, hcycle,
    (check_of_extended hextended looping).2 cycle hcycle hother⟩

end Conform
