/-
Module: Conform.Config.Load
Purpose: Loading settings from the layers of configuration, lowest first: three files of the current
  directory, the user's file, the file that is asked for, and the environment.
Main exports: ConfigError, readConfig?, userFile?, Settings.load, SaveError, Settings.save
-/
import Conform.Config.Document
import Conform.Config.Environment
import Conform.Config.KeyPath
import Conform.Config.Settings
import Conform.Storage.Basic
import Conform.Storage.Path

namespace Conform

/-- Why there are no settings. -/
inductive ConfigError where
  /-- The file that is asked for is not there, is of no known format, or is no text. -/
  | unreadable (path : String)
  /-- The text of a file is no document of its format with entries. -/
  | malformed (path : String)
  /-- A value does not convert to its setting. -/
  | unsuitable
deriving DecidableEq, Repr

/-- The wording of a configuration error. -/
def ConfigError.message : ConfigError → String
  | .unreadable path => "configuration file \"" ++ path ++ "\" not found"
  | .malformed path => path ++ ": not a configuration document"
  | .unsuitable => "a value does not fit its setting"

variable {m : Type → Type} [Monad m] [Storage m]

/-! ### Files -/

/-- The text of the file that a path leads to with the first of some endings for which there is one, and
    this ending. -/
def readCompleted? (path : String) : List String → m (Option (String × String))
  | [] => return none
  | ending :: rest => do
    let completed ← Storage.look (path ++ "." ++ ending)
    if completed.isFile then return completed.text?.map fun text => (ending, text)
    else readCompleted? path rest

/-- The ending and the text of a configuration file. The path may leave out the ending; a file with just
    this path is taken only if it has one of the endings. An ending goes to the last name of the absolute
    path, which for the current directory itself is its own name. -/
def readConfig? (endings : List String) (path : String) : m (Option (String × String)) := do
  let path := Path.inDirectory (← Storage.currentDirectory) path
  let exact ← Storage.look path
  if exact.isFile then
    return ((Path.extension? path).filter (· ∈ endings)).bind fun ending =>
      exact.text?.map fun text => (ending, text)
  else if (Path.fileName? path).isNone then return none
  else readCompleted? (String.ofList (Path.trimmed path)) endings

/-- The entries of a configuration file, none if there is no such file. A file that is `required` has to
    be there. -/
def fileEntries (formats : ConfigFormats) (required : Bool) (path : String) :
    m (Except ConfigError (Entries ConfigValue)) := do
  match ← readConfig? formats.endings path with
  | none => return if required then .error (.unreadable path) else .ok []
  | some (ending, text) =>
    match formats.entries? ending text with
    | none => return .error (.malformed path)
    | some entries => return .ok entries

/-! ### Layers -/

/-- The configuration files of the current directory, lowest first. -/
def localFiles : List String :=
  ["schema-validate.toml", ".schema-validate.toml", "config/schema-validate.toml"]

/-- The user's configuration file. It is in the directory that is set for configurations by an absolute
    path, or else below the home directory; without a home directory there is none. -/
def userFile? (environment : Environment) : Option String :=
  environment.home?.map fun home =>
    let directory := ((environment.bindings.lookup "XDG_CONFIG_HOME").filter Path.isAbsolute).getD
      (Path.inDirectory home ".config")
    Path.inDirectory directory "schema-validate/schema-validate.toml"

/-- The files to read, lowest first, and whether each of them has to be there. The user's file is left
    out if nothing has its path. -/
def layerFiles (explicit : Option String) (environment : Environment) : m (List (Bool × String)) := do
  let user ←
    match userFile? environment with
    | none => pure []
    | some path => do
      let entry ← Storage.look path
      pure (if entry.isPresent then [(false, path)] else [])
  return localFiles.map (false, ·) ++ user ++ (explicit.map (true, ·)).toList

/-- Lay the entries of files over a configuration, one file after the other. -/
def readLayers (formats : ConfigFormats) (base : ConfigValue) :
    List (Bool × String) → m (Except ConfigError ConfigValue)
  | [] => return .ok base
  | (required, path) :: rest => do
    match ← fileEntries formats required path with
    | .error e => return .error e
    | .ok entries => readLayers formats (base.layer entries) rest

/-- The settings from all layers. -/
def Settings.load (explicit : Option String) (environment : Environment) :
    m (Except ConfigError Settings) := do
  match ← readLayers environment.formats (.table []) (← layerFiles explicit environment) with
  | .error e => return .error e
  | .ok config =>
    match Settings.ofConfig? (config.layer (environmentEntries environment)).entries with
    | some settings => return .ok settings
    | none => return .error .unsuitable

/-! ### Saving -/

/-- Why settings are not saved. -/
inductive SaveError where
  /-- The count is too large for the document. -/
  | tooLarge
  /-- The file cannot be written. -/
  | notWritten
deriving DecidableEq, Repr

/-- Write the settings to a file. Nothing is written if they make no document. -/
def Settings.save (settings : Settings) (path : String) : m (Except SaveError Unit) := do
  match settings.render? with
  | none => return .error .tooLarge
  | some text => return if ← Storage.write path text then .ok () else .error .notWritten

end Conform
