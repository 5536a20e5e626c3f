/-
Module: Conform.Document
Purpose: Loading schema and instance documents. A schema file may be a descriptor, which holds the schema
  under `schema` or names the schema's file, relative to its own directory, under `schema_path`; the
  file wins.
Main exports: DocumentError, InputError, InputError.isStructural, Source, readJson, Target,
  descriptorTarget, followDescriptor, readSchema
-/
import Conform.Json.Parser
import Conform.Schema.Reference
import Conform.Storage.Basic
import Conform.Storage.Path

namespace Conform

/-- Why there is no document. -/
inductive DocumentError where
  /-- There is no such file, or its content is no text. -/
  | unreadable
  /-- The text is no JSON. -/
  | malformed
  /-- A descriptor whose `schema_path` is no string. -/
  | pathNotText (descriptor : String)
  /-- A descriptor with neither of its two fields. -/
  | noSchema (descriptor : String)
deriving DecidableEq, Repr

/-- The wording of a document error. -/
def DocumentError.message : DocumentError → String
  | .unreadable => "IO error: file cannot be read"
  | .malformed => "JSON error: not a JSON document"
  | .pathNotText descriptor =>
    "Invalid schema descriptor: " ++ descriptor ++ ": schema_path must be a string"
  | .noSchema descriptor =>
    "Invalid schema descriptor: " ++ descriptor ++ " missing 'schema' or 'schema_path' field"

/-- Why a schema or an instance cannot be used: there is no document, or a reference in it leads
    nowhere. -/
inductive InputError where
  | document (e : DocumentError)
  | reference (e : ReferenceError)
deriving DecidableEq, Repr

namespace InputError

/-- The wording of an input error. -/
def message : InputError → String
  | .document e => e.message
  | .reference e => e.message

/-- The schema document itself is wrong, as opposed to an input that cannot be read or parsed. -/
def isStructural : InputError → Bool
  | .reference (.notLocal _) => true
  | .reference (.missingKey _ _) => true
  | .reference (.notAnObject _) => true
  | .reference (.cycle _) => true
  | .document _ => false

/-- Whatever is wrong with a reference, the schema document is wrong. -/
@[simp] theorem isStructural_reference (e : ReferenceError) : (reference e).isStructural = true := by
  cases e <;> rfl

end InputError

/-! ### Documents in files -/

/-- The document in what was found under a path. -/
def Entry.document (entry : Entry) : Except DocumentError Json :=
  match entry.text? with
  | none => .error .unreadable
  | some text =>
    match Json.parse? text with
    | none => .error .malformed
    | some v => .ok v

variable {m : Type → Type} [Monad m] [Storage m]

/-- The document in a file. -/
def readJson (path : String) : m (Except DocumentError Json) := do
  return (← Storage.look path).document

/-! ### Descriptors -/

/-- Where a descriptor says its schema is. -/
inductive Target where
  | inline (schema : Json)
  | file (path : String)

/-- What a descriptor at a path refers to. -/
def descriptorTarget (path : String) (document : Json) : Except DocumentError Target :=
  match document.get? "schema_path" with
  | some (.string target) => .ok (.file (Path.beside path target))
  | some _ => .error (.pathNotText path)
  | none =>
    match document.get? "schema" with
    | some schema => .ok (.inline schema)
    | none => .error (.noSchema path)

/-- The schema that a descriptor at a path refers to. A file it names is taken as it is, also if it is a
    descriptor itself. -/
def followDescriptor (path : String) (document : Json) : m (Except DocumentError Json) :=
  match descriptorTarget path document with
  | .error e => return .error e
  | .ok (.inline schema) => return .ok schema
  | .ok (.file target) => readJson target

/-- The schema in a file, which is a descriptor if `descriptor` says so. -/
def readSchema (path : String) (descriptor : Bool) : m (Except DocumentError Json) := do
  match ← readJson path with
  | .error e => return .error e
  | .ok document => if descriptor then followDescriptor path document else return .ok document

/-! ### Sources of instances -/

/-- Where an instance comes from. -/
inductive Source where
  | file (path : String)
  | standardInput
deriving DecidableEq, Repr

namespace Source

/-- A single dash means standard input. -/
def ofArgument (argument : String) : Source :=
  if argument = "-" then .standardInput else .file argument

/-- The name shown for a source. -/
def label : Source → String
  | .file path => path
  | .standardInput => "<stdin>"

/-- The document from a source. Standard input is read only if it is the source. -/
def read (input : m ByteArray) : Source → m (Except DocumentError Json)
  | .file path => readJson path
  | .standardInput => do return (Entry.device (← input)).document

end Source
end Conform
