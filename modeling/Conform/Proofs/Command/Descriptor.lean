/-
Module: Conform.Proofs.Command.Descriptor
Purpose: Schemas that are loaded through a descriptor. A descriptor names the file of its schema, beside
  itself, or holds the schema; anything else is no descriptor. Once loaded, nothing tells where a schema
  has come from: a run that unwraps a descriptor comes to the same report or the same error as one that
  reads the schema from a file of its own, and references are resolved in the schema, not in the
  descriptor around it.
Main exports: Json.NamesSchema, Json.HoldsSchema, DocumentError.NoDescriptor,
  read_readSchema_of_namesSchema, read_readSchema_of_holdsSchema, Command.Loads.verdict_eq,
  Command.descriptor_is_transparent
-/
import Conform.Proofs.Check.Reached
import Conform.Proofs.Command.Verdict
import Conform.Proofs.Storage.Beside

namespace Conform

open Json

/-! ### Descriptors -/

namespace Json

/-- A descriptor that names the file of its schema. What else it holds does not matter. -/
def NamesSchema (document : Json) (target : String) : Prop :=
  ∃ members, document = .object members ∧ members.lookup "schema_path" = some (.string target)

/-- A descriptor that holds its schema, with any value, and says nothing about a file. -/
def HoldsSchema (document schema : Json) : Prop :=
  ∃ members, document = .object members ∧ members.lookup "schema_path" = none ∧
    members.lookup "schema" = some schema

end Json

/-- The document under a path was read, but it is no descriptor. -/
inductive DocumentError.NoDescriptor (path : String) : DocumentError → Prop where
  | pathNotText : NoDescriptor path (.pathNotText path)
  | noSchema : NoDescriptor path (.noSchema path)

section Targets

variable {document schema : Json} {path target : String}

/-- A descriptor that names a file refers to this file, beside itself. -/
theorem descriptorTarget_of_namesSchema (h : document.NamesSchema target) :
    descriptorTarget path document = .ok (.file (Path.beside path target)) := by
  obtain ⟨members, rfl, hnamed⟩ := h
  rw [descriptorTarget, get?, hnamed]

/-- A descriptor that holds its schema refers to what it holds. -/
theorem descriptorTarget_of_holdsSchema (h : document.HoldsSchema schema) :
    descriptorTarget path document = .ok (.inline schema) := by
  obtain ⟨members, rfl, hunnamed, hheld⟩ := h
  rw [descriptorTarget, get?, hunnamed, get?, hheld]

/-- A document that neither names nor holds a schema is no descriptor. -/
theorem descriptorTarget_of_neither (hnames : ∀ target, ¬ document.NamesSchema target)
    (hholds : ∀ schema, ¬ document.HoldsSchema schema) :
    ∃ e, DocumentError.NoDescriptor path e ∧ descriptorTarget path document = .error e := by
  rw [descriptorTarget]
  cases document with
  | object members =>
    rw [get?, get?]
    cases hnamed : members.lookup "schema_path" with
    | none =>
      cases hheld : members.lookup "schema" with
      | none => exact ⟨_, .noSchema, rfl⟩
      | some schema => exact absurd ⟨members, rfl, hnamed, hheld⟩ (hholds schema)
    | some named =>
      cases named with
      | string target => exact absurd ⟨members, rfl, hnamed⟩ (hnames target)
      | _ => exact ⟨_, .pathNotText, rfl⟩
  | _ => exact ⟨_, .noSchema, rfl⟩

end Targets

/-! ### Loading through a descriptor -/

section Loading

variable {tree : Tree} {path target : String} {document schema : Json} {e : DocumentError}

/-- The compact text tells which document was loaded. -/
theorem eq_ok_of_compact {load : Except DocumentError Json}
    (h : load.map Json.compact = .ok document.compact) :
    load = .ok document := by
  cases load with
  | error e => cases h
  | ok found => rw [Json.compact_injective (Except.ok.inj h)]

/-- Without a descriptor the schema is the document in the file. -/
theorem read_readSchema_plain : tree.read (readSchema path false) = tree.read (readJson path) := by
  rw [readSchema, Tree.read_bind (readsOnly_readJson path)]
  cases tree.read (readJson path) <;> rfl

/-- Where there is a document, something is found. -/
theorem look_ne_missing_of_read_readJson (hdocument : tree.read (readJson path) = .ok document) :
    tree.look path ≠ .missing := by
  intro hmissing
  change (tree.look path).document = .ok document at hdocument
  rw [hmissing] at hdocument
  cases hdocument

/-- Where there is a document, what it refers to is followed. -/
theorem read_readSchema_of_document (hdocument : tree.read (readJson path) = .ok document) :
    tree.read (readSchema path true) = tree.read (followDescriptor path document) := by
  rw [readSchema, Tree.read_bind (readsOnly_readJson path), hdocument]
  rfl

/-- The schema is the document in the file that is named, as it is. -/
theorem read_readSchema_of_namesSchema (hdocument : tree.read (readJson path) = .ok document)
    (h : document.NamesSchema target) :
    tree.read (readSchema path true) = tree.read (readJson (Path.beside path target)) := by
  rw [read_readSchema_of_document hdocument, followDescriptor, descriptorTarget_of_namesSchema h]

/-- The schema is what the descriptor holds. -/
theorem read_readSchema_of_holdsSchema (hdocument : tree.read (readJson path) = .ok document)
    (h : document.HoldsSchema schema) : tree.read (readSchema path true) = .ok schema := by
  rw [read_readSchema_of_document hdocument, followDescriptor, descriptorTarget_of_holdsSchema h]
  rfl

/-- A file that cannot be read, or holds no document, is not for this reason no descriptor. -/
theorem not_noDescriptor_of_read_readJson {path' : String} (h : tree.read (readJson path') = .error e) :
    ¬ DocumentError.NoDescriptor path e := by
  change (tree.look path').document = .error e at h
  rw [Entry.document] at h
  intro hnone
  split at h
  · cases h
    cases hnone
  · split at h
    · cases h
      cases hnone
    · cases h

/-- Loading fails for the descriptor exactly if it neither names nor holds a schema. -/
theorem exists_noDescriptor_iff (hdocument : tree.read (readJson path) = .ok document) :
    (∃ e, DocumentError.NoDescriptor path e ∧ tree.read (readSchema path true) = .error e) ↔
      (∀ target, ¬ document.NamesSchema target) ∧ ∀ schema, ¬ document.HoldsSchema schema := by
  constructor
  · rintro ⟨e, hnone, hfails⟩
    constructor
    · intro target hnames
      rw [read_readSchema_of_namesSchema hdocument hnames] at hfails
      exact not_noDescriptor_of_read_readJson hfails hnone
    · intro schema hholds
      rw [read_readSchema_of_holdsSchema hdocument hholds] at hfails
      cases hfails
  · rintro ⟨hnames, hholds⟩
    obtain ⟨e, hnone, htarget⟩ := descriptorTarget_of_neither hnames hholds
    refine ⟨e, hnone, ?_⟩
    rw [read_readSchema_of_document hdocument, followDescriptor, htarget]
    rfl

end Loading

/-! ### Runs -/

namespace Command

variable {tree tree' : Tree} {input input' : ByteArray} {environment environment' : Environment}
  {arguments arguments' : Arguments} {config config' : Settings} {schema value : Json}

/-- The verdict on documents that load is that of a check against the schema as its own root. -/
theorem Loads.verdict_eq (h : Loads tree input environment arguments config schema value) :
    verdict (tree.read (loaded (pure input) environment arguments)) =
      (check schema value).mapError Failure.reference := by
  rw [h.read_loaded, verdict, judged]
  cases check schema value <;> rfl

/-- In text format, what is shown depends only on the schema, the instance and the count of diagnostics to
    show. -/
theorem Loads.read_run_text {time time' : String} {line line' : List String}
    (h : Loads tree input environment arguments config schema value)
    (h' : Loads tree' input' environment' arguments' config' schema value)
    (hline : parseArguments line = .run arguments) (hline' : parseArguments line' = .run arguments')
    (htext : (settings arguments config).format = .text)
    (htext' : (settings arguments' config').format = .text)
    (hlimit : (settings arguments' config').maxReported = (settings arguments config).maxReported) :
    tree'.read (Command.run (pure input') environment' time' line') =
      tree.read (Command.run (pure input) environment time line) := by
  rw [read_run hline, read_run hline', h.read_loaded, h'.read_loaded, outputs, outputs, judged, judged]
  cases check schema value with
  | error e => rfl
  | ok report =>
    dsimp only
    rw [reported, reported, htext, htext', hlimit]

/-- What a descriptor stands for is loaded in its place. It names the file of its schema, beside its own
    file; or it holds the schema; or it is no descriptor.

    A run that unwraps the descriptor comes to the verdict of a check against the schema as its own root:
    each reference is followed in the schema, and the first that fails is reported. A run that reads this
    schema from a file of its own comes to the same verdict on the same instance, and it shows the same in
    text format. -/
theorem descriptor_is_transparent {path : String} {document : Json}
    (hdocument : tree.read (readJson path) = .ok document) :
    let made := tree.read (readSchema path true)
    (∀ target, document.NamesSchema target →
      made = tree.read (readJson (Path.beside path target)) ∧
      tree.NamedBeside path target (Path.beside path target)) ∧
    (∀ schema, document.HoldsSchema schema → made = .ok schema) ∧
    ((∃ e, DocumentError.NoDescriptor path e ∧ made = .error e) ↔
      (∀ target, ¬ document.NamesSchema target) ∧ ∀ schema, ¬ document.HoldsSchema schema) ∧
    ∀ {input environment arguments config schema value}, arguments.schema = path →
      (arguments.descriptor || config.descriptor) = true →
      Loads tree input environment arguments config schema value →
      let judgement := verdict (tree.read (loaded (pure input) environment arguments))
      made = .ok schema ∧ judgement = (check schema value).mapError .reference ∧
      (∀ e, judgement = .error (.reference e) ↔
        ∃ stop, FirstFailing schema ⟨[], .whole, schema, value⟩ stop e) ∧
      ∀ {tree' input' environment' arguments' config'},
      (arguments'.descriptor || config'.descriptor) = false →
        Loads tree' input' environment' arguments' config' schema value →
        tree'.read (readJson arguments'.schema) = .ok schema ∧
        verdict (tree'.read (loaded (pure input') environment' arguments')) = judgement ∧
        ∀ {time time' line line'}, parseArguments line = .run arguments →
          parseArguments line' = .run arguments' →
          (settings arguments config).format = .text → (settings arguments' config').format = .text →
          (settings arguments' config').maxReported = (settings arguments config).maxReported →
          tree'.read (Command.run (pure input') environment' time' line') =
            tree.read (Command.run (pure input) environment time line) := by
  intro made
  have hfound : tree.look path ≠ .missing := look_ne_missing_of_read_readJson hdocument
  refine ⟨fun target hnames =>
    ⟨read_readSchema_of_namesSchema hdocument hnames, Tree.namedBeside_beside hfound target⟩,
    fun schema hholds => read_readSchema_of_holdsSchema hdocument hholds,
    exists_noDescriptor_iff hdocument, ?_⟩
  intro input environment arguments config schema value hpath hrequested hloads judgement
  have hschema : made = .ok schema := by
    have hschema := hloads.schema_eq
    rwa [hrequested, hpath] at hschema
  have hjudgement : judgement = (check schema value).mapError .reference := hloads.verdict_eq
  refine ⟨hschema, hjudgement, fun e => ?fails, ?plain⟩
  case fails =>
    rw [← check_eq_error_iff_firstFailing, hjudgement]
    cases check schema value <;> simp [Except.mapError]
  case plain =>
    intro tree' input' environment' arguments' config' hplain hloads'
    have hschema' : tree'.read (readJson arguments'.schema) = .ok schema := by
      rw [← read_readSchema_plain, ← hplain]
      exact hloads'.schema_eq
    exact ⟨hschema', hloads'.verdict_eq.trans hjudgement.symm,
      fun hline hline' htext htext' hlimit =>
        hloads.read_run_text hloads' hline hline' htext htext' hlimit⟩

/-- A descriptor under a path with a doubled slash, which names a file and holds another schema. The
    reference in the file leads nowhere there, although it leads somewhere in the descriptor, and it is
    reported as it is without one. -/
theorem descriptor_is_transparent_beside :
    let schema : Json := .object [("$ref", .string "#/$defs/a")]
    let document : Json := .object [("schema_path", .string "s.json"), ("schema", .bool true),
      ("$defs", .object [("a", .object [])])]
    let tree : Tree := ⟨[(["d", "desc.json"], .file document.compact.toUTF8),
      (["d", "s.json"], .file schema.compact.toUTF8), (["v.json"], .file "\x7b\x7d".toUTF8)], []⟩
    let wrapped : StateM Tree Outputs :=
      Command.run (pure .empty) {} "" ["--descriptor", "d//desc.json", "v.json"]
    let plain : StateM Tree Outputs := Command.run (pure .empty) {} "" ["d/s.json", "v.json"]
    tree.locate (Path.beside "d//desc.json" "s.json") = tree.follow ["d"] "s.json" ∧
      tree.read (readSchema "d//desc.json" true) = .ok schema ∧
      (∃ stop, FirstFailing schema ⟨[], .whole, schema, .object []⟩ stop
        (.missingKey "#/$defs/a" "$defs")) ∧
      dereference document "#/$defs/a" = .ok (.object []) ∧
      tree.read plain = tree.read wrapped ∧
      (tree.read wrapped).stderr =
        "schema error: $ref path '#/$defs/a' segment '$defs' missing from schema\n" := by
  intro schema document tree wrapped plain
  have hdocument : tree.read (readJson "d//desc.json") = .ok document :=
    eq_ok_of_compact (by decide +kernel)
  have hschema : tree.read (readJson "d/s.json") = .ok schema := eq_ok_of_compact (by decide +kernel)
  have hvalue : tree.read (readJson "v.json") = .ok (.object []) := eq_ok_of_compact (by decide +kernel)
  have hconfig : tree.read (Settings.load none {}) = .ok {} := by decide +kernel
  obtain ⟨hnamed, -, -, hruns⟩ := descriptor_is_transparent hdocument
  obtain ⟨hmade, hbeside⟩ := hnamed "s.json" ⟨_, rfl, rfl⟩
  obtain ⟨place, hplace, hrelative⟩ := hbeside.of_relative (by decide +kernel)
  have hplace' : place = ["d", "desc.json"] := Option.some.inj (hplace.symm.trans (by decide +kernel))
  subst hplace'
  obtain ⟨-, hfollowed⟩ := hrelative (by decide +kernel)
  have hwrapped : Loads tree .empty {} ⟨"d//desc.json", "v.json", none, none, none, true⟩ {} schema
      (.object []) :=
    ⟨hconfig, hmade.trans hschema, hvalue⟩
  have hplain : Loads tree .empty {} ⟨"d/s.json", "v.json", none, none, none, false⟩ {} schema
      (.object []) :=
    ⟨hconfig, read_readSchema_plain.trans hschema, hvalue⟩
  obtain ⟨hloaded, hverdict, hfails, hsame⟩ := hruns rfl rfl hwrapped
  have hcheck : check schema (.object []) = .error (.missingKey "#/$defs/a" "$defs") := by decide +kernel
  obtain ⟨-, -, hshown⟩ := hsame rfl hplain
  refine ⟨hfollowed (by decide +kernel), hloaded, (hfails _).1 ?_, rfl, ?_, by decide +kernel⟩
  · rw [hverdict, hcheck]
    rfl
  · exact hshown (by decide +kernel) (by decide +kernel) rfl rfl rfl

end Command

end Conform
