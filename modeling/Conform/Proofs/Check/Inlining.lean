/-
Module: Conform.Proofs.Check.Inlining
Purpose: References may be replaced by the schemas they lead to. Against a schema with some of its
  references inlined a walk finds the same violations at the same places, and ends in the same way; only
  the list of references in a reported cycle may begin elsewhere. The document that references are
  resolved in stays the same, so it may be recursive, and an inlined reference may be part of a cycle.
Main exports: Outcome.Congruence, visitParts_congr, Outcome.summary, visit_summary_of_inlineStep,
  checkInto_inlined
-/
import Conform.Proofs.Check.Walk
import Conform.Proofs.Json.Parts
import Conform.Proofs.Schema.Inlined

namespace Conform

open Json

/-! ### Walks that are alike -/

namespace Outcome

/-- A way for walks to be alike that carries over to walks in a row. -/
structure Congruence (alike : Outcome → Outcome → Prop) : Prop where
  refl : ∀ o, alike o o
  andThen : ∀ {a b c d}, alike a b → alike c d → alike (a.andThen c) (b.andThen d)

/-- Any number of walks in a row are alike if each is. -/
theorem Congruence.sequence {alike : Outcome → Outcome → Prop} (hcongr : Congruence alike) {α : Type}
    {f g : α → Outcome} {parts : List α} (h : ∀ part ∈ parts, alike (f part) (g part)) :
    alike (Outcome.sequence (parts.map f)) (Outcome.sequence (parts.map g)) := by
  induction parts with
  | nil => exact hcongr.refl _
  | cons part rest ih =>
    apply hcongr.andThen
    · exact h part List.mem_cons_self
    · exact ih fun other hother => h other (List.mem_cons_of_mem part hother)

/-- What a walk found, and the variant of the error that cut it short. -/
def summary (o : Outcome) : List Finding × Option ReferenceError.Variant :=
  (o.findings, o.failure.map ReferenceError.variant)

/-- The summary of two walks in a row is told by their summaries. -/
theorem congruence_summary : Congruence fun a b => a.summary = b.summary := by
  constructor
  · intro o
    rfl
  · intro a b c d h h'
    rcases a with ⟨as, _ | e⟩ <;> rcases b with ⟨bs, _ | f⟩ <;> simp_all [summary, Outcome.andThen]

end Outcome

/-! ### Nodes with the same rules -/

namespace Node.SameRules

variable {node node' : Node} {place : Location} {value : Json}

theorem refl (node : Node) : SameRules node node := ⟨rfl, rfl, rfl, rfl, rfl, rfl, rfl⟩

theorem typeViolation?_eq (h : SameRules node node') :
    node'.typeViolation? value = node.typeViolation? value := by
  rw [typeViolation?, h.types, typeViolation?]

theorem valueFindings_eq (h : SameRules node node') :
    node'.valueFindings place value = node.valueFindings place value := by
  rw [valueFindings, constViolations, h.const, enumViolations, h.enum]
  rfl

theorem missingFindings_eq (h : SameRules node node') (members : List (String × Json)) :
    node'.missingFindings place members = node.missingFindings place members := by
  rw [missingFindings, h.required, missingFindings]

theorem duplicateFindings_eq (h : SameRules node node') (items : List Json) :
    node'.duplicateFindings place items = node.duplicateFindings place items := by
  rw [duplicateFindings, h.distinct, duplicateFindings]

theorem shapeFindings_eq (h : SameRules node node') (kind : Kind) :
    node'.shapeFindings place kind = node.shapeFindings place kind := by
  rw [shapeFindings, h.wantsObject, h.wantsArray, shapeFindings]

end Node.SameRules

/-! ### Parts that are checked alike -/

/-- The parts of a value are checked alike by nodes with the same rules, if each member and each element
    is. -/
theorem visitParts_congr {alike : Outcome → Outcome → Prop} (hcongr : Outcome.Congruence alike)
    {root root' value : Json} {node node' : Node} {place : Location} (hrules : Node.SameRules node node')
    (hmember : ∀ key part, value.HasMember key part →
      alike (visitMember root node place (key, part)) (visitMember root' node' place (key, part)))
    (helement : ∀ part i, value.HasElement part →
      alike (visitElement root node place (part, i)) (visitElement root' node' place (part, i))) :
    alike (visitParts root node place value) (visitParts root' node' place value) := by
  cases value with
  | object members =>
    rw [visitParts, visitParts, hrules.wantsObject, hrules.wantsArray]
    refine hcongr.andThen ?_ (hcongr.refl _)
    cases node.wantsObject with
    | false => exact hcongr.refl _
    | true =>
      rw [if_pos rfl, if_pos rfl, hrules.missingFindings_eq]
      apply hcongr.andThen (hcongr.refl _)
      apply hcongr.sequence
      rintro ⟨key, part⟩ hmem
      exact hmember key part hmem
  | array items =>
    rw [visitParts, visitParts, hrules.wantsObject, hrules.wantsArray]
    cases node.wantsObject with
    | true => exact hcongr.refl _
    | false =>
      cases node.wantsArray with
      | false => exact hcongr.refl _
      | true =>
        rw [hrules.duplicateFindings_eq]
        refine hcongr.andThen ?_ (hcongr.refl _)
        apply hcongr.sequence
        rintro ⟨part, i⟩ hmem
        exact helement part i (List.fst_mem_of_mem_zipIdx hmem)
  | _ =>
    change alike (.found (node.shapeFindings _ _)) (.found (node'.shapeFindings _ _))
    rw [hrules.shapeFindings_eq]
    exact hcongr.refl _

/-! ### One step -/

section Step

variable {root : Json} {node node' : Node} {place : Location}

/-- A visit depends on the schema that counts alone. -/
theorem visit_congr_effectiveSchema {schema schema' value : Json}
    (h : effectiveSchema root schema = effectiveSchema root schema') :
    visit root schema place value = visit root schema' place value := by
  rw [visit, visit, h]

/-- A visit against schemas that lead to the same schema, or fail with the same variant of error. -/
theorem visit_summary_of_mapError_eq {schema schema' value : Json}
    (h : (effectiveSchema root schema).mapError ReferenceError.variant =
      (effectiveSchema root schema').mapError ReferenceError.variant) :
    (visit root schema place value).summary = (visit root schema' place value).summary := by
  cases hresolves : effectiveSchema root schema with
  | error e =>
    cases hresolves' : effectiveSchema root schema' with
    | error e' =>
      rw [hresolves, hresolves'] at h
      have hvariant : e.variant = e'.variant := Except.error.inj h
      rw [visit_of_error hresolves, visit_of_error hresolves']
      simp [Outcome.failed, Outcome.summary, hvariant]
    | ok target' =>
      rw [hresolves, hresolves'] at h
      cases h
  | ok target =>
    cases hresolves' : effectiveSchema root schema' with
    | error e' =>
      rw [hresolves, hresolves'] at h
      cases h
    | ok target' =>
      rw [hresolves, hresolves'] at h
      cases h
      rw [visit_congr_effectiveSchema (hresolves.trans hresolves'.symm)]

/-- A member is checked alike by nodes that are a step apart, if its checks against schemas that are a
    step apart are alike. -/
theorem visitMember_summary (h : Node.InlineStep root node node') {key : String} {part : Json}
    (hpart : ∀ inner inner' place, InlineStep root inner inner' →
      (visit root inner place part).summary = (visit root inner' place part).summary) :
    (visitMember root node place (key, part)).summary =
      (visitMember root node' place (key, part)).summary := by
  rcases h.members key with heq | ⟨inner, inner', hrule, hrule', hstep⟩
  · simp only [visitMember, heq]
  · simp only [visitMember, hrule, hrule']
    exact hpart inner inner' _ hstep

/-- An element is checked alike by nodes that are a step apart, if its checks against schemas that are a
    step apart are alike. -/
theorem visitElement_summary (h : Node.InlineStep root node node') {part : Json} {i : Nat}
    (hpart : ∀ inner inner' place, InlineStep root inner inner' →
      (visit root inner place part).summary = (visit root inner' place part).summary) :
    (visitElement root node place (part, i)).summary =
      (visitElement root node' place (part, i)).summary := by
  rcases h.items with heq | ⟨inner, inner', hitems, hitems', hstep⟩
  · simp only [visitElement, heq]
  · simp only [visitElement, hitems, hitems']
    exact hpart inner inner' _ hstep

/-- The parts of a value are checked alike by nodes that are a step apart. -/
theorem visitParts_summary (h : Node.InlineStep root node node') {value : Json}
    (hparts : ∀ part, Part part value → ∀ inner inner' place, InlineStep root inner inner' →
      (visit root inner place part).summary = (visit root inner' place part).summary) :
    (visitParts root node place value).summary = (visitParts root node' place value).summary := by
  apply visitParts_congr Outcome.congruence_summary h.rules
  · intro key part hmember
    exact visitMember_summary h (hparts part hmember.part)
  · intro part i helement
    exact visitElement_summary h (hparts part helement.part)

/-- A value is checked alike against schemas that are a step apart. The induction is on the value: where
    the schemas themselves lead to different nodes, these are a step apart, and so are the schemas they
    have for its parts. -/
theorem visit_summary_of_inlineStep (root value : Json) :
    ∀ schema schema' place, InlineStep root schema schema' →
      (visit root schema place value).summary = (visit root schema' place value).summary := by
  induction value using partInduction with
  | step value ih =>
    intro schema schema' place hstep
    rcases effectiveSchema_inlineStep hstep with hsame | ⟨target, target', hresolves, hresolves', hnode⟩
    · exact visit_summary_of_mapError_eq hsame
    · cases htype : (Node.ofJson target).typeViolation? value with
      | some violation =>
        rw [visit_of_mistyped hresolves htype,
          visit_of_mistyped hresolves' (hnode.rules.typeViolation?_eq.trans htype)]
      | none =>
        rw [visit_of_typed hresolves htype,
          visit_of_typed hresolves' (hnode.rules.typeViolation?_eq.trans htype),
          hnode.rules.valueFindings_eq]
        exact Outcome.congruence_summary.andThen rfl (visitParts_summary hnode ih)

end Step

/-! ### Any number of steps -/

/-- A value is checked alike against a schema and against the schema with references inlined. -/
theorem visit_summary_of_inlined {root schema schema' : Json} (h : Inlined root schema schema')
    (place : Location) (value : Json) :
    (visit root schema place value).summary = (visit root schema' place value).summary := by
  induction h with
  | refl => rfl
  | tail _ hstep ih => exact ih.trans (visit_summary_of_inlineStep root value _ _ place hstep)

/-- Inlining references changes no report: the same diagnostics are added to it, and the check comes to an
    end in both cases or ends with the same variant of error. -/
theorem checkInto_inlined {root schema schema' : Json} (h : Inlined root schema schema')
    (place : Location) (value : Json) (report : Report) :
    (checkInto root schema place value report).1 = (checkInto root schema' place value report).1 ∧
      (checkInto root schema place value report).2.map ReferenceError.variant =
        (checkInto root schema' place value report).2.map ReferenceError.variant := by
  obtain ⟨hfindings, hfailure⟩ := Prod.mk.inj (visit_summary_of_inlined h place value)
  exact ⟨congrArg report.append hfindings, hfailure⟩

/-- In a recursive document, an entry that refers to the recursive schema and one that begins a cycle are
    inlined. The same member is reported, and the cycle is found from its second reference on. -/
theorem checkInto_inlined_recursive :
    let node : Json := .object [("type", .string "object"),
      ("properties", .object [("next", .object [("$ref", .string "#/defs/node")])])]
    let there : Json := .object [("$ref", .string "#/defs/here")]
    let here : Json := .object [("$ref", .string "#/defs/there")]
    let root : Json := .object
      [("defs", .object [("node", node), ("here", here), ("there", there)])]
    let entries (list loop : Json) : List (String × Json) := [("list", list), ("loop", loop)]
    let schema (list loop : Json) : Json := .object [("properties", .object (entries list loop))]
    let list : Json := .object [("$ref", .string "#/defs/node")]
    let value : Json := .object [("list", .object [("next", .null)]), ("loop", .null)]
    let report : Report := ⟨[⟨"$.list.next", .typeMismatch, "expected type object, got null"⟩]⟩
    Inlined root (schema list here) (schema node there) ∧
      checkInto root (schema list here) .whole value .empty =
        (report, some (.cycle ["#/defs/there", "#/defs/here", "#/defs/there"])) ∧
      (checkInto root (schema node there) .whole value .empty).1 = report ∧
      (checkInto root (schema node there) .whole value .empty).2.map ReferenceError.variant =
        some .cycle := by
  intro node there here root entries schema list value report
  have hnode : Hop root list node := ⟨_, rfl, by rfl⟩
  have hthere : Hop root here there := ⟨_, rfl, by rfl⟩
  have hlist : InlineStep root (schema list here) (schema node here) :=
    @InlineStep.property root [_] (entries list here) "list" _ _ rfl rfl (.here hnode)
  have hloop : InlineStep root (schema node here) (schema node there) :=
    @InlineStep.property root [_] (entries node here) "loop" _ _ rfl rfl (.here hthere)
  have hinlined : Inlined root (schema list here) (schema node there) := .tail (.single hlist) hloop
  have hcheck : checkInto root (schema list here) .whole value .empty =
      (report, some (.cycle ["#/defs/there", "#/defs/here", "#/defs/there"])) := by decide +kernel
  obtain ⟨hreport, hvariant⟩ := checkInto_inlined hinlined .whole value .empty
  rw [hcheck] at hreport hvariant
  exact ⟨hinlined, hcheck, hreport.symm, hvariant.symm⟩

end Conform
