/-
Module: Conform.Command.Run
Purpose: The command from its arguments to its exit code and its two outputs: load the settings, the
  schema and the instance, validate, and show the report. The exit code is zero exactly when nothing
  went wrong and the report is empty.
Main exports: Failure, Outputs, helpText, Command.run
-/
import Conform.Check
import Conform.Command.Arguments
import Conform.Command.Output
import Conform.Config.Load
import Conform.Document

namespace Conform

/-- Why no report is made. -/
inductive Failure where
  | configuration (e : ConfigError)
  | schema (path : String) (e : DocumentError)
  | subject (name : String) (e : DocumentError)
  | reference (e : ReferenceError)
deriving DecidableEq, Repr

namespace Failure

/-- The input error behind a failure, if there is one. -/
def cause? : Failure → Option InputError
  | .configuration _ => none
  | .schema _ e => some (.document e)
  | .subject _ e => some (.document e)
  | .reference e => some (.reference e)

/-- What was done when it failed, and why it failed. -/
def description : Failure → String
  | .configuration e => "loading configuration: " ++ e.message
  | .schema path e => "loading schema " ++ path ++ ": " ++ e.message
  | .subject name e => "reading instance " ++ name ++ ": " ++ e.message
  | .reference e => e.message

/-- The line shown for a failure. A structural error is shown as such, and without what was done. -/
def message (failure : Failure) : String :=
  match failure.cause?.filter InputError.isStructural with
  | some e => "schema error: " ++ e.message
  | none => "Error: " ++ failure.description

/-- A reference that leads nowhere is shown as a schema error. -/
@[simp] theorem message_reference (e : ReferenceError) :
    (reference e).message = "schema error: " ++ e.message := by
  have hstructural : (some (InputError.reference e)).filter InputError.isStructural =
      some (.reference e) :=
    Option.filter_some_pos (InputError.isStructural_reference e)
  rw [message, cause?, hstructural]
  rfl

end Failure

/-- What a run of the command leaves behind. -/
structure Outputs where
  exit : UInt8
  stdout : String
  stderr : String
deriving DecidableEq, Repr

/-- The name and the version of the command. -/
def versionText : String := "schema-validate 0.1.0\n"

/-- The lines that describe the command line. -/
def helpLines : List String := [
  "Validate a JSON document against a JSON Schema contract",
  "",
  "Usage: schema-validate [OPTIONS] <SCHEMA> <INSTANCE>",
  "",
  "Arguments:",
  "  <SCHEMA>    Schema document",
  "  <INSTANCE>  Instance document (\"-\" reads stdin)",
  "",
  "Options:",
  "  -f, --format <FORMAT>              Report format (overrides config) [possible values: text, json]",
  "      --descriptor                   Treat the schema file as a descriptor " ++
    "(inline `schema` or `schema_path`)",
  "      --max-reported <MAX_REPORTED>  Print at most this many diagnostics",
  "  -c, --config <CONFIG>              Explicit config file",
  "  -h, --help                         Print help",
  "  -V, --version                      Print version"]

/-- The description of the command line. -/
def helpText : String := String.join (helpLines.map (· ++ "\n"))

namespace Command

/-- The settings of a run: what the command line says goes first, and either place can ask for
    descriptors. -/
def settings (arguments : Arguments) (config : Settings) : Settings where
  format := arguments.format.getD config.format
  maxReported := arguments.maxReported.or config.maxReported
  descriptor := arguments.descriptor || config.descriptor

/-- The outputs of a run that made a report. -/
def reported (settings : Settings) (report : Report) (time schema subject : String) : Outputs :=
  let exit := if report.isEmpty then 0 else 1
  match settings.format with
  | .text => ⟨exit, "", report.textOutput settings.maxReported⟩
  | .json => ⟨exit, report.jsonOutput settings.maxReported time schema subject, ""⟩

/-- The outputs of a run that made no report. -/
def failed (failure : Failure) : Outputs := ⟨1, "", failure.message ++ "\n"⟩

variable {m : Type → Type} [Monad m] [Storage m]

/-- The settings of a run and its report, or why there is none. Standard input is read only if the
    instance comes from there. -/
def checked (input : m ByteArray) (environment : Environment) (arguments : Arguments) :
    m (Except Failure (Settings × Report)) := do
  match ← Settings.load arguments.config environment with
  | .error e => return .error (.configuration e)
  | .ok config =>
    let settings := settings arguments config
    match ← readSchema arguments.schema settings.descriptor with
    | .error e => return .error (.schema arguments.schema e)
    | .ok schema =>
      let source := Source.ofArgument arguments.subject
      match ← source.read input with
      | .error e => return .error (.subject source.label e)
      | .ok value =>
        match check schema value with
        | .error e => return .error (.reference e)
        | .ok report => return .ok (settings, report)

/-- Run the command for a command line. -/
def run (input : m ByteArray) (environment : Environment) (time : String) (line : List String) :
    m Outputs := do
  match parseArguments line with
  | .help => return ⟨0, helpText, ""⟩
  | .version => return ⟨0, versionText, ""⟩
  | .refused e => return ⟨1, "", "error: " ++ e.message ++ "\n"⟩
  | .run arguments =>
    match ← checked input environment arguments with
    | .error failure => return failed failure
    | .ok (settings, report) =>
      return reported settings report time arguments.schema
        (Source.ofArgument arguments.subject).label

end Command
end Conform
