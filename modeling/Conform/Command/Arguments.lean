/-
Module: Conform.Command.Arguments
Purpose: Reading the command line. Arguments are taken from left to right and the first one that decides
  the outcome ends the reading: a request for help or for the version, or a mistake.
Main exports: Arguments, UsageError, Parsed, parseArguments
-/
import Conform.Config.Settings

namespace Conform

/-- What a command line asks for. -/
structure Arguments where
  /-- The path of the schema document. -/
  schema : String
  /-- The instance document, by its path or as a dash. -/
  subject : String
  format : Option ReportFormat := none
  maxReported : Option UInt64 := none
  /-- The path of the configuration file. -/
  config : Option String := none
  descriptor : Bool := false
deriving DecidableEq, Repr

/-- Why a command line is refused. -/
inductive UsageError where
  | unknownOption (argument : String)
  | missingValue (option : String)
  | unneededValue (option : String)
  | invalidValue (option value : String)
  | repeated (option : String)
  | emptyPath (name : String)
  | unexpectedArgument (argument : String)
  | missingArgument (name : String)
deriving DecidableEq, Repr

/-- The wording of a usage error. -/
def UsageError.message : UsageError → String
  | .unknownOption argument => "unexpected argument '" ++ argument ++ "' found"
  | .missingValue option => "a value is required for '" ++ option ++ "' but none was supplied"
  | .unneededValue option => "unexpected value for '" ++ option ++ "' found; no more were expected"
  | .invalidValue option value => "invalid value '" ++ value ++ "' for '" ++ option ++ "'"
  | .repeated option => "the argument '" ++ option ++ "' cannot be used multiple times"
  | .emptyPath name => "a value is required for '" ++ name ++ "' but none was supplied"
  | .unexpectedArgument argument => "unexpected argument '" ++ argument ++ "' found"
  | .missingArgument name => "the following required argument was not provided: " ++ name

/-- The outcome of reading a command line. -/
inductive Parsed where
  | run (arguments : Arguments)
  | help
  | version
  | refused (e : UsageError)
deriving DecidableEq, Repr

/-! ### Options -/

/-- The options that take a value. -/
inductive ValueOption where
  | format
  | maxReported
  | config
deriving DecidableEq, Repr

/-- The name of an option on the command line. -/
def ValueOption.name : ValueOption → String
  | .format => "--format"
  | .maxReported => "--max-reported"
  | .config => "--config"

/-- What an argument that begins with a dash says. -/
inductive OptionArgument where
  | value (option : ValueOption) (attached : Option String)
  | descriptor
  | help
  | version
  | wrong (e : UsageError)

/-- Read an argument that begins with two dashes, in which a value may follow an equals sign. -/
def longOption (argument : String) : OptionArgument :=
  let text := argument.toList
  let name := String.ofList (text.takeWhile (· != '='))
  let attached :=
    match text.dropWhile (· != '=') with
    | [] => none
    | _ :: value => some (String.ofList value)
  let plain (option : OptionArgument) :=
    if attached.isSome then .wrong (.unneededValue name) else option
  if name = "--format" then .value .format attached
  else if name = "--max-reported" then .value .maxReported attached
  else if name = "--config" then .value .config attached
  else if name = "--descriptor" then plain .descriptor
  else if name = "--help" then plain .help
  else if name = "--version" then plain .version
  else .wrong (.unknownOption argument)

/-- Read an argument that begins with a single dash: one letter, then its value with or without an equals
    sign. -/
def shortOption (argument : String) : OptionArgument :=
  let attached (rest : List Char) : Option String :=
    match rest with
    | [] => none
    | '=' :: value => some (String.ofList value)
    | value => some (String.ofList value)
  match argument.toList.tail with
  | 'f' :: rest => .value .format (attached rest)
  | 'c' :: rest => .value .config (attached rest)
  | 'h' :: _ => .help
  | 'V' :: _ => .version
  | _ => .wrong (.unknownOption argument)

/-- Read an argument that begins with a dash. -/
def optionArgument (argument : String) : OptionArgument :=
  match argument.toList with
  | '-' :: '-' :: _ => longOption argument
  | _ => shortOption argument

/-- The argument reads as an option: it begins with a dash and has more to it. -/
def looksLikeOption (argument : String) : Bool :=
  argument.toList.head? == some '-' && argument != "-"

/-! ### Reading -/

/-- What was read so far. -/
structure Reading where
  positionals : List String := []
  format : Option ReportFormat := none
  maxReported : Option UInt64 := none
  config : Option String := none
  descriptor : Bool := false

namespace Reading

/-- Take a path. There are two, and neither is empty. -/
def positional (r : Reading) (argument : String) : Except UsageError Reading :=
  if 2 ≤ r.positionals.length then .error (.unexpectedArgument argument)
  else if argument = "" then .error (.emptyPath (if r.positionals = [] then "<SCHEMA>" else "<INSTANCE>"))
  else .ok { r with positionals := r.positionals ++ [argument] }

/-- Take the value of an option, which may be given once. -/
def option (r : Reading) (option : ValueOption) (text : String) : Except UsageError Reading :=
  let invalid := UsageError.invalidValue option.name text
  match option with
  | .format =>
    if r.format.isSome then .error (.repeated option.name)
    else
      match ReportFormat.ofName? text with
      | some format => .ok { r with format := some format }
      | none => .error invalid
  | .maxReported =>
    if r.maxReported.isSome then .error (.repeated option.name)
    else
      match Word.unsigned? text.toList with
      | some n => .ok { r with maxReported := some n }
      | none => .error invalid
  | .config =>
    if r.config.isSome then .error (.repeated option.name)
    else if text = "" then .error invalid
    else .ok { r with config := some text }

/-- Take the flag for descriptors, which may be given once. -/
def flag (r : Reading) : Except UsageError Reading :=
  if r.descriptor then .error (.repeated "--descriptor") else .ok { r with descriptor := true }

/-- The command line is complete if both paths are there. -/
def finish (r : Reading) : Parsed :=
  match r.positionals with
  | [schema, subject] => .run ⟨schema, subject, r.format, r.maxReported, r.config, r.descriptor⟩
  | [_] => .refused (.missingArgument "<INSTANCE>")
  | _ => .refused (.missingArgument "<SCHEMA>")

/-- Go on after a step unless it was a mistake. -/
def continueWith (next : Reading → Parsed) : Except UsageError Reading → Parsed
  | .ok r => next r
  | .error e => .refused e

/-- Take the arguments behind `--`, which are all paths. -/
def paths (r : Reading) : List String → Parsed
  | [] => r.finish
  | argument :: rest => continueWith (paths · rest) (r.positional argument)

/-- Take arguments. The value of an option is attached to it or is the next argument, which then must not
    look like an option itself. -/
def arguments (r : Reading) : List String → Parsed
  | [] => r.finish
  | argument :: rest =>
    if argument = "--" then r.paths rest
    else if looksLikeOption argument then
      match optionArgument argument with
      | .value option (some text) => continueWith (arguments · rest) (r.option option text)
      | .value option none =>
        match rest with
        | [] => .refused (.missingValue option.name)
        | text :: rest =>
          if looksLikeOption text then .refused (.missingValue option.name)
          else continueWith (arguments · rest) (r.option option text)
      | .descriptor => continueWith (arguments · rest) r.flag
      | .help => .help
      | .version => .version
      | .wrong e => .refused e
    else continueWith (arguments · rest) (r.positional argument)

end Reading

/-- Read a command line, without the name of the command. -/
def parseArguments (arguments : List String) : Parsed := ({} : Reading).arguments arguments

end Conform
