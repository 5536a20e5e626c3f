/-
Module: Conform.Proofs.Check.Narrowing
Purpose: Adding constraints to a schema only narrows what it accepts. A value that is accepted with
  constraints added, at the schema itself or at any schema inside it, is accepted without them. The
  document that references are resolved in stays the same. The induction is on the value, since a schema
  for a part is looked up wherever the references lead.
Main exports: conforms_of_tightened, checkInto_of_tightened
-/
import Conform.Proofs.Check.Conformance
import Conform.Proofs.Schema.Tightened

namespace Conform

open Json

section Narrowing

variable {same : Json → Json → Prop} {root schema schema' value : Json}

/-! ### One constraint -/

/-- The `type` of a schema allows what it allows with constraints added. -/
theorem Json.Tightens.typeAllows (h : Tightens schema schema') (hallows : schema'.TypeAllows value) :
    schema.TypeAllows value := by
  intro declared hwritten
  exact hallows declared (h.kept "type" declared (by decide) hwritten)

/-- The `const` of a schema allows what it allows with constraints added. -/
theorem Json.Tightens.constAllows (h : Tightens schema schema') (hallows : schema'.ConstAllows value) :
    schema.ConstAllows value := by
  intro expected hwritten
  exact hallows expected (h.kept "const" expected (by decide) hwritten)

/-- The `enum` of a schema allows what it allows with constraints added. -/
theorem Json.Tightens.enumAllows (h : Tightens schema schema') (hallows : schema'.EnumAllows value) :
    schema.EnumAllows value := by
  intro allowed hwritten
  exact hallows allowed (h.kept "enum" (.array allowed) (by decide) hwritten)

/-- A schema that names a kind under `type` names it with constraints added. -/
theorem Json.Tightens.namesType (h : Tightens schema schema') {name : String}
    (hnames : schema.NamesType name) : schema'.NamesType name := by
  obtain ⟨declared, hwritten, hmem⟩ := hnames
  exact ⟨declared, h.kept "type" declared (by decide) hwritten, hmem⟩

/-- A schema about objects stays one with constraints added. -/
theorem Json.Tightens.objectShaped (h : Tightens schema schema') (hshaped : schema.ObjectShaped) :
    schema'.ObjectShaped := by
  rcases hshaped with hnames | hproperties | hrequired | hextra
  · exact .inl (h.namesType hnames)
  · exact .inr (.inl (h.present _ hproperties))
  · exact .inr (.inr (.inl (h.present _ hrequired)))
  · exact .inr (.inr (.inr (h.present _ hextra)))

/-- A schema about arrays stays one with constraints added. -/
theorem Json.Tightens.arrayShaped (h : Tightens schema schema') (hshaped : schema.ArrayShaped) :
    schema'.ArrayShaped := by
  rcases hshaped with hnames | hitems | hdistinct
  · exact .inl (h.namesType hnames)
  · exact .inr (.inl (h.present _ hitems))
  · exact .inr (.inr (h.present _ hdistinct))

/-- An object that keeps the rules with constraints added keeps those of the schema. -/
theorem Json.Tightens.objectRules (h : Tightens schema schema') (hrules : ObjectRules schema' value) :
    ObjectRules schema value := by
  constructor
  · exact hrules.isObject
  · intro name hrequires
    obtain ⟨names, hnames, hmem⟩ := hrequires
    exact hrules.required name ⟨names, h.kept "required" (.array names) (by decide) hnames, hmem⟩
  · intro key part hmember hdenies
    exact hrules.allowed key part hmember (h.denies key hdenies)

/-- An array that keeps the rules with constraints added keeps those of the schema. -/
theorem Json.Tightens.arrayRules (h : Tightens schema schema') (hrules : ArrayRules same schema' value) :
    ArrayRules same schema value := by
  constructor
  · exact hrules.isArray
  · intro hwants
    exact hrules.distinct (h.kept "uniqueItems" (.bool true) (by decide) hwants)

/-- The parts of a value conform to a schema if they conform with constraints added, as long as that is so
    for each part and each schema for it. -/
theorem Json.Tightens.partsConform (h : Tightens schema schema')
    (hparts : ∀ part, Part part value → ∀ inner inner', Tightened inner inner' →
      Conforms same root inner' part → Conforms same root inner part)
    (hconform : PartsConform same root schema' value) : PartsConform same root schema value := by
  obtain ⟨hobject, hmembers, harray, helements⟩ := hconform
  refine ⟨?_, ?_, ?_, ?_⟩
  · intro hshaped
    exact h.objectRules (hobject (h.objectShaped hshaped))
  · intro hshaped key part inner hmember hschema
    obtain ⟨inner', hschema', htightened⟩ := h.members key inner hschema
    apply hparts part hmember.part inner inner' htightened
    exact hmembers (h.objectShaped hshaped) key part inner' hmember hschema'
  · intro hshaped
    exact h.arrayRules (harray (h.arrayShaped hshaped))
  · intro hshaped part inner helement hschema
    obtain ⟨inner', hschema', htightened⟩ := h.elements inner hschema
    apply hparts part helement.part inner inner' htightened
    exact helements (h.arrayShaped hshaped) part inner' helement hschema'

/-- A value conforms to a schema if it conforms with one constraint added, as long as that is so for its
    parts with any number of constraints. -/
theorem conforms_of_tightenStep (hstep : TightenStep schema schema')
    (hparts : ∀ part, Part part value → ∀ inner inner', Tightened inner inner' →
      Conforms same root inner' part → Conforms same root inner part)
    (hconforms : Conforms same root schema' value) : Conforms same root schema value := by
  obtain ⟨target, hresolves'⟩ := hconforms.exists_effectiveSchema
  have hrules := (conforms_iff_of_resolves hresolves').1 hconforms
  rcases hstep.effectiveSchema_eq hresolves' with hresolves | ⟨hresolves, rfl⟩
  · exact (conforms_iff_of_resolves hresolves).2 hrules
  · obtain ⟨htype, hconst, henum, hconform⟩ := hrules
    have htightens := hstep.tightens
    apply (conforms_iff_of_resolves hresolves).2
    exact ⟨htightens.typeAllows htype, htightens.constAllows hconst, htightens.enumAllows henum,
      htightens.partsConform hparts hconform⟩

/-! ### Any number of constraints -/

/-- A value that conforms to a schema with constraints added conforms to the schema. -/
theorem conforms_of_tightened : ∀ schema schema', Tightened schema schema' →
    Conforms same root schema' value → Conforms same root schema value := by
  induction value using partInduction with
  | step value ih =>
    intro schema schema' htightened hconforms
    induction htightened with
    | refl => exact hconforms
    | tail _ hstep ihsteps => exact ihsteps (conforms_of_tightenStep hstep ih hconforms)

end Narrowing

/-! ### Accepted values -/

/-- A check comes to an end and adds nothing to the report exactly if its walk finds nothing. -/
theorem checkInto_eq_unchanged_iff {root schema value : Json} {place : Location} {report : Report} :
    checkInto root schema place value report = (report, none) ↔
      visit root schema place value = .found [] := by
  rcases report with ⟨items⟩
  rcases hvisit : visit root schema place value with ⟨findings, failure⟩
  simp [checkInto, hvisit, Report.append, Outcome.found]

/-- Adding constraints only narrows: what a schema accepts with constraints added, it accepts without
    them. -/
theorem checkInto_of_tightened {root schema schema' : Json} (h : Tightened schema schema')
    {place : Location} {value : Json} {report : Report}
    (haccepts : checkInto root schema' place value report = (report, none)) :
    checkInto root schema place value report = (report, none) := by
  have hdecides : ∀ schema, visit root schema place value = .found [] ↔
      Conforms (fun x y => x.fingerprint = y.fingerprint) root schema value :=
    fun schema => visit_eq_found_nil_iff (fun _ _ _ _ => Iff.rfl) schema place
  rw [checkInto_eq_unchanged_iff, hdecides] at haccepts ⊢
  exact conforms_of_tightened schema schema' h haccepts

/-- A tree of labelled nodes. A label has to be listed, the nodes of a list have to differ, and a node has
    to have a label and nothing unknown: a tree that keeps these constraints is accepted with and without
    them. -/
theorem checkInto_of_tightened_tree :
    let label (more : List (String × Json)) : Json := .object ([("type", .string "string")] ++ more)
    let nodes (more : List (String × Json)) : Json :=
      .object ([("items", .object [("$ref", .string "#/node")])] ++ more)
    let node (label nodes : Json) (more : List (String × Json)) : Json :=
      .object ([("properties", .object [("label", label), ("nodes", nodes)])] ++ more)
    let loose : Json := node (label []) (nodes []) []
    let root : Json := .object [("node", loose)]
    let listed : String × Json := ("enum", .array [.string "leaf", .string "root"])
    let distinct : String × Json := ("uniqueItems", .bool true)
    let required : String × Json := ("required", .array [.string "label"])
    let closed : String × Json := ("additionalProperties", .bool false)
    let strict : Json := node (label [listed]) (nodes [distinct]) [required, closed]
    let value : Json := .object [("label", .string "root"),
      ("nodes", .array [.object [("label", .string "leaf")], .object []])]
    Tightened loose strict ∧ checkInto root strict .whole value .empty = (.empty, none) ∧
      checkInto root loose .whole value .empty = (.empty, none) := by
  intro label nodes node loose root listed distinct required closed strict value
  have hlabel : TightenStep (label []) (label [listed]) := .here (by decide) (.between [_] [] rfl)
  have hnodes : TightenStep (nodes []) (nodes [distinct]) := .here (by decide) (.between [_] [] rfl)
  have hlisted : TightenStep loose (node (label [listed]) (nodes []) []) :=
    @TightenStep.property [_] [("label", label []), ("nodes", nodes [])] "label" _ _ rfl rfl hlabel
  have hdistinct : TightenStep (node (label [listed]) (nodes []) [])
      (node (label [listed]) (nodes [distinct]) []) :=
    @TightenStep.property [_] [("label", label [listed]), ("nodes", nodes [])] "nodes" _ _ rfl rfl hnodes
  have hrequired : TightenStep (node (label [listed]) (nodes [distinct]) [])
      (node (label [listed]) (nodes [distinct]) [required]) := .here (by decide) (.between [_] [] rfl)
  have hclosed : TightenStep (node (label [listed]) (nodes [distinct]) [required]) strict :=
    .here (by decide) (.between [_, _] [] rfl)
  have htightened : Tightened loose strict :=
    (((Relation.ReflTransGen.single hlisted).tail hdistinct).tail hrequired).tail hclosed
  have haccepts : checkInto root strict .whole value .empty = (.empty, none) := by decide +kernel
  exact ⟨htightened, haccepts, checkInto_of_tightened htightened haccepts⟩

end Conform
