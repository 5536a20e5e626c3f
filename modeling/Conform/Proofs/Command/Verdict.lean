/-
Module: Conform.Proofs.Command.Verdict
Purpose: The exit code of the command. It is zero exactly if the settings, the schema and the instance
  load and the check makes an empty report, and one otherwise. Settings about how a report is shown have
  no part in it: the verdict is reached without them, so two runs that differ only there end with the same
  code.
Main exports: Command.Loads, Command.verdict, Command.exitOf, Command.exit_outputs, Command.SameRequest,
  Command.verdict_congr, Command.run_exits_by_verdict
-/
import Conform.Proofs.Command.Loaded
import Conform.Proofs.Command.Reads

namespace Conform
namespace Command

/-! ### What loads -/

/-- The settings, the schema and the instance of a run load. The schema is taken from a descriptor if the
    command line or the settings ask for that. -/
structure Loads (tree : Tree) (input : ByteArray) (environment : Environment) (arguments : Arguments)
    (config : Settings) (schema value : Json) : Prop where
  config_eq : tree.read (Settings.load arguments.config environment) = .ok config
  schema_eq : tree.read (readSchema arguments.schema (arguments.descriptor || config.descriptor)) =
    .ok schema
  value_eq : tree.read ((Source.ofArgument arguments.subject).read (pure input)) = .ok value

section Loading

variable {tree : Tree} {input : ByteArray} {environment : Environment} {arguments : Arguments}
  {config : Settings} {schema value : Json}

/-- Loading changes no file. -/
theorem readsOnly_loaded (input : ByteArray) (environment : Environment) (arguments : Arguments) :
    ReadsOnly (loaded (pure input) environment arguments) := by
  rw [loaded]
  apply ReadsOnly.bind (readsOnly_load _ _)
  intro config
  cases config with
  | error e => exact .pure _
  | ok config =>
    apply ReadsOnly.bind (readsOnly_readSchema _ _)
    intro schema
    cases schema with
    | error e => exact .pure _
    | ok schema =>
      apply ReadsOnly.bind (readsOnly_read _ _)
      intro value
      cases value with
      | error e => exact .pure _
      | ok value => exact .pure _

/-- Once the settings are loaded, the schema and the instance are, from the same files. -/
theorem read_loaded (hconfig : tree.read (Settings.load arguments.config environment) = .ok config) :
    tree.read (loaded (pure input) environment arguments) =
      match tree.read (readSchema arguments.schema (arguments.descriptor || config.descriptor)) with
      | .error e => .error (.schema arguments.schema e)
      | .ok schema =>
        match tree.read ((Source.ofArgument arguments.subject).read (pure input)) with
        | .error e => .error (.subject (Source.ofArgument arguments.subject).label e)
        | .ok value => .ok (settings arguments config, schema, value) := by
  rw [loaded, Tree.read_bind (readsOnly_load _ _), hconfig]
  dsimp only
  rw [Tree.read_bind (readsOnly_readSchema _ _), settings]
  cases tree.read (readSchema arguments.schema (arguments.descriptor || config.descriptor)) with
  | error e => rfl
  | ok schema =>
    dsimp only
    rw [Tree.read_bind (readsOnly_read _ _)]
    cases tree.read ((Source.ofArgument arguments.subject).read (pure input)) with
    | error e => rfl
    | ok value => rfl

/-- What loads is what is loaded, with the settings of the command line laid over those of the files. -/
theorem Loads.read_loaded (h : Loads tree input environment arguments config schema value) :
    tree.read (loaded (pure input) environment arguments) =
      .ok (settings arguments config, schema, value) := by
  rw [Command.read_loaded h.config_eq, h.schema_eq]
  dsimp only
  rw [h.value_eq]

/-- What is loaded loads. -/
theorem exists_loads_of_read_loaded {found : Settings}
    (h : tree.read (loaded (pure input) environment arguments) = .ok (found, schema, value)) :
    ∃ config, Loads tree input environment arguments config schema value := by
  cases hconfig : tree.read (Settings.load arguments.config environment) with
  | error e =>
    rw [loaded, Tree.read_bind (readsOnly_load _ _), hconfig] at h
    cases h
  | ok config =>
    rw [Command.read_loaded hconfig] at h
    cases hschema : tree.read
        (readSchema arguments.schema (arguments.descriptor || config.descriptor)) with
    | error e =>
      rw [hschema] at h
      cases h
    | ok schema' =>
      cases hvalue : tree.read ((Source.ofArgument arguments.subject).read (pure input)) with
      | error e =>
        rw [hschema, hvalue] at h
        cases h
      | ok value' =>
        rw [hschema, hvalue] at h
        cases h
        exact ⟨config, hconfig, hschema, hvalue⟩

end Loading

/-! ### Verdicts -/

/-- The report on what was loaded, or why there is none. The settings have no part in it. -/
def verdict (load : Except Failure (Settings × Json × Json)) : Except Failure Report :=
  (judged load).map Prod.snd

/-- Zero if there is a report and it is empty, one otherwise. -/
def exitOf : Except Failure Report → UInt8
  | .error _ => 1
  | .ok report => if report.isEmpty then 0 else 1

section Verdicts

variable {load : Except Failure (Settings × Json × Json)}

/-- The exit code is that of the verdict, whatever the settings are. -/
theorem exit_outputs (time : String) (arguments : Arguments)
    (load : Except Failure (Settings × Json × Json)) :
    (outputs time arguments load).exit = exitOf (verdict load) := by
  rw [outputs, verdict]
  cases judged load with
  | error failure => rfl
  | ok made =>
    rcases made with ⟨settings, report⟩
    dsimp only
    rw [reported]
    cases settings.format with
    | text => rfl
    | json => rfl

/-- The exit code is zero or one. -/
theorem exitOf_eq_one_of_ne_zero {made : Except Failure Report} (h : exitOf made ≠ 0) :
    exitOf made = 1 := by
  cases made with
  | error failure => rfl
  | ok report =>
    rw [exitOf] at h ⊢
    cases hempty : report.isEmpty with
    | false => rfl
    | true =>
      rw [hempty] at h
      exact absurd rfl h

/-- The exit code is zero exactly for an empty report. -/
theorem exitOf_eq_zero_iff {made : Except Failure Report} : exitOf made = 0 ↔ made = .ok .empty := by
  constructor
  · intro h
    cases made with
    | error failure => cases h
    | ok report =>
      rcases report with ⟨_ | ⟨d, rest⟩⟩
      · rfl
      · cases h
  · rintro rfl
    rfl

/-- There is a report if the documents load and the check makes it. -/
theorem verdict_eq_ok_iff {report : Report} : verdict load = .ok report ↔
    ∃ settings schema value, load = .ok (settings, schema, value) ∧ check schema value = .ok report := by
  constructor
  · intro h
    cases load with
    | error failure => cases h
    | ok found =>
      rcases found with ⟨settings, schema, value⟩
      refine ⟨settings, schema, value, rfl, ?_⟩
      rw [verdict, judged] at h
      cases hcheck : check schema value with
      | error e =>
        rw [hcheck] at h
        cases h
      | ok made =>
        rw [hcheck] at h
        cases h
        rfl
  · rintro ⟨settings, schema, value, rfl, hcheck⟩
    rw [verdict, judged, hcheck]
    rfl

/-- Settings that are different lead to the same verdict. -/
theorem verdict_congr_settings (found found' : Settings) (schema value : Json) :
    verdict (.ok (found', schema, value)) = verdict (.ok (found, schema, value)) := by
  rw [verdict, judged, verdict, judged]
  cases check schema value with
  | error e => rfl
  | ok report => rfl

/-- An empty report shows nothing as text. -/
theorem outputs_of_empty_text (time : String) (arguments : Arguments) {settings : Settings}
    {schema value : Json} (htext : settings.format = .text)
    (hcheck : check schema value = .ok .empty) :
    outputs time arguments (.ok (settings, schema, value)) = ⟨0, "", ""⟩ := by
  have hlines : Report.empty.textOutput settings.maxReported = "" := by
    cases settings.maxReported with
    | none => rfl
    | some limit =>
      simp [Report.textOutput, Report.textLines, Report.shown, Report.hidden, Report.size, Report.empty]
  rw [outputs, judged, hcheck]
  dsimp only
  rw [reported, htext]
  dsimp only
  rw [hlines]
  rfl

end Verdicts

/-! ### Two runs -/

/-- Two runs ask for the same documents, and for descriptors alike. The format, the count of diagnostics
    to show and the configuration file may differ, and so may the settings of the output. -/
structure SameRequest (arguments arguments' : Arguments) (config config' : Settings) : Prop where
  schema : arguments'.schema = arguments.schema
  subject : arguments'.subject = arguments.subject
  flag : arguments'.descriptor = arguments.descriptor
  descriptor : config'.descriptor = config.descriptor

/-- Runs that ask for the same documents, and find them alike, come to the same verdict or fail in the
    same way. -/
theorem verdict_congr {tree tree' : Tree} {input : ByteArray} {environment environment' : Environment}
    {arguments arguments' : Arguments} {config config' : Settings}
    (hsame : SameRequest arguments arguments' config config')
    (hfound : FoundAlike arguments (arguments.descriptor || config.descriptor) tree tree')
    (hconfig : tree.read (Settings.load arguments.config environment) = .ok config)
    (hconfig' : tree'.read (Settings.load arguments'.config environment') = .ok config') :
    verdict (tree'.read (loaded (pure input) environment' arguments')) =
      verdict (tree.read (loaded (pure input) environment arguments)) := by
  rw [read_loaded hconfig, read_loaded hconfig', hsame.schema, hsame.subject, hsame.flag,
    hsame.descriptor, hfound.readSchema, hfound.readSubject]
  cases tree.read (readSchema arguments.schema (arguments.descriptor || config.descriptor)) with
  | error e => rfl
  | ok schema =>
    dsimp only
    cases tree.read ((Source.ofArgument arguments.subject).read (pure input)) with
    | error e => rfl
    | ok value => exact verdict_congr_settings _ _ schema value

/-! ### Runs -/

/-- A run shows what follows from what it loads. -/
theorem read_run {tree : Tree} {input : ByteArray} {environment : Environment} {time : String}
    {line : List String} {arguments : Arguments} (h : parseArguments line = .run arguments) :
    tree.read (Command.run (pure input) environment time line) =
      outputs time arguments (tree.read (loaded (pure input) environment arguments)) :=
  congrArg Prod.fst (run_of_loaded h ((readsOnly_loaded input environment arguments).run_eq tree))

/-- The exit code is the verdict. For a command line that is understood it is zero exactly if the
    settings, the schema and the instance load and the report is empty, and one otherwise. Another run
    that asks for the same documents, and finds them alike, ends with the same code, whatever its format
    and its count of diagnostics to show. In text format a run that ends with zero shows nothing. -/
theorem run_exits_by_verdict {tree : Tree} {input : ByteArray} {environment : Environment} {time : String}
    {line : List String} {arguments : Arguments} (hline : parseArguments line = .run arguments) :
    let made := tree.read (Command.run (pure input) environment time line)
    (made.exit = 0 ↔ ∃ config schema value, Loads tree input environment arguments config schema value ∧
      check schema value = .ok .empty) ∧
    (made.exit ≠ 0 → made.exit = 1) ∧
    (∀ {tree' environment' time' line' arguments' config config'},
      parseArguments line' = .run arguments' →
      tree.read (Settings.load arguments.config environment) = .ok config →
      tree'.read (Settings.load arguments'.config environment') = .ok config' →
      SameRequest arguments arguments' config config' →
      FoundAlike arguments (arguments.descriptor || config.descriptor) tree tree' →
      (tree'.read (Command.run (pure input) environment' time' line')).exit = made.exit) ∧
    ∀ {config}, tree.read (Settings.load arguments.config environment) = .ok config →
      (settings arguments config).format = .text → made.exit = 0 →
        made.stdout = "" ∧ made.stderr = "" := by
  intro made
  have hmade : made = outputs time arguments (tree.read (loaded (pure input) environment arguments)) :=
    read_run hline
  have hexit : made.exit = exitOf (verdict (tree.read (loaded (pure input) environment arguments))) := by
    rw [hmade, exit_outputs]
  have hzero : made.exit = 0 ↔ ∃ config schema value,
      Loads tree input environment arguments config schema value ∧ check schema value = .ok .empty := by
    rw [hexit, exitOf_eq_zero_iff, verdict_eq_ok_iff]
    constructor
    · rintro ⟨found, schema, value, hloaded, hcheck⟩
      obtain ⟨config, hloads⟩ := exists_loads_of_read_loaded hloaded
      exact ⟨config, schema, value, hloads, hcheck⟩
    · rintro ⟨config, schema, value, hloads, hcheck⟩
      exact ⟨settings arguments config, schema, value, hloads.read_loaded, hcheck⟩
  refine ⟨hzero, ?_, ?_, ?_⟩
  · intro hne
    rw [hexit] at hne ⊢
    exact exitOf_eq_one_of_ne_zero hne
  · intro tree' environment' time' line' arguments' config config' hline' hconfig hconfig' hsame hfound
    rw [hexit, read_run hline', exit_outputs, verdict_congr hsame hfound hconfig hconfig']
  · intro config hconfig htext hends
    obtain ⟨config', schema, value, hloads, hcheck⟩ := hzero.1 hends
    obtain rfl : config = config' := Except.ok.inj (hconfig.symm.trans hloads.config_eq)
    have hnothing := outputs_of_empty_text time arguments htext hcheck
    rw [hmade, hloads.read_loaded, hnothing]
    exact ⟨rfl, rfl⟩

/-- An instance without a required member: the exit code is one, with the diagnostic hidden by a limit,
    and also where a configuration file asks for a JSON document and hides it too. For an instance with
    the member the exit code is zero and nothing is shown. -/
theorem run_exits_by_verdict_hidden :
    let schema : String × String := ("s.json", "\x7b\"required\": [\"a\"]\x7d")
    let output : String × String :=
      ("schema-validate.toml", "[output]\nformat = \"json\"\nmax_reported = 0\n")
    let files (entries : List (String × String)) : Tree :=
      ⟨entries.map fun entry => ([entry.1], .file entry.2.toUTF8), []⟩
    let tree : Tree := files [schema, ("v.json", "\x7b\x7d"), ("w.json", "\x7b\"a\": 1\x7d")]
    let tree' : Tree := files [schema, ("v.json", "\x7b\x7d"), output]
    let limited : List String := ["s.json", "v.json", "--max-reported", "0"]
    parseArguments limited = .run ⟨"s.json", "v.json", none, some 0, none, false⟩ ∧
      (tree.read (Command.run (pure .empty) {} "" limited)).exit = 1 ∧
      (tree'.read (Command.run (pure .empty) {} "" ["s.json", "v.json"])).exit = 1 ∧
      (tree.read (Command.run (pure .empty) {} "" ["s.json", "w.json"])).stdout = "" ∧
      (tree.read (Command.run (pure .empty) {} "" ["s.json", "w.json"])).stderr = "" := by
  intro schema output files tree tree' limited
  have hlimited : parseArguments limited = .run ⟨"s.json", "v.json", none, some 0, none, false⟩ := by
    decide +kernel
  have hplain : parseArguments ["s.json", "v.json"] =
      .run ⟨"s.json", "v.json", none, none, none, false⟩ := by
    decide +kernel
  have hvalid : parseArguments ["s.json", "w.json"] =
      .run ⟨"s.json", "w.json", none, none, none, false⟩ := by
    decide +kernel
  have hdefault : tree.read (Settings.load none {}) = .ok {} := by decide +kernel
  have hconfigured : tree'.read (Settings.load none {}) = .ok ⟨.json, some 0, false⟩ := by decide +kernel
  have hexit : (tree.read (Command.run (pure .empty) {} "" limited)).exit = 1 := by decide +kernel
  have hends : (tree.read (Command.run (pure .empty) {} "" ["s.json", "w.json"])).exit = 0 := by
    decide +kernel
  have hfound : FoundAlike ⟨"s.json", "v.json", none, some 0, none, false⟩ false tree tree' := by
    constructor
    · rfl
    · intro hdescriptor
      cases hdescriptor
    · intro path hpath
      cases hpath
      rfl
  refine ⟨hlimited, hexit, ?_, (run_exits_by_verdict hvalid).2.2.2 hdefault rfl hends⟩
  rw [(run_exits_by_verdict hlimited).2.2.1 hplain hdefault hconfigured ⟨rfl, rfl, rfl, rfl⟩ hfound]
  exact hexit

end Command
end Conform
