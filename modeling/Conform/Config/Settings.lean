/-
Module: Conform.Config.Settings
Purpose: The settings of the command and how configured values become settings.
Main exports: ReportFormat, Settings, Settings.ofConfig?, Settings.render?
-/
import Conform.Config.Value
import Conform.LowerCase
import Conform.Numeric.Word

namespace Conform

/-- How a report is shown. -/
inductive ReportFormat where
  /-- One line for each diagnostic on the error stream. -/
  | text
  /-- One JSON document on the output stream. -/
  | json
deriving DecidableEq, Repr

namespace ReportFormat

/-- The name of a format. -/
def name : ReportFormat → String
  | .text => "text"
  | .json => "json"

/-- The format with exactly this name. -/
def ofName? (name : String) : Option ReportFormat :=
  if name = "text" then some .text else if name = "json" then some .json else none

/-- A name leads back to its format. -/
theorem ofName?_name (format : ReportFormat) : ofName? format.name = some format := by
  cases format <;> decide

end ReportFormat

/-- The settings of the command. -/
structure Settings where
  format : ReportFormat := .text
  /-- At most this many diagnostics are shown. -/
  maxReported : Option UInt64 := none
  /-- Schema files are descriptors. -/
  descriptor : Bool := false
deriving DecidableEq, Repr

/-! ### Conversions -/

namespace ConfigValue

/-- Words for a truth value. -/
def truthOfWord? (word : String) : Option Bool :=
  if word ∈ ["true", "on", "yes"] then some true
  else if word ∈ ["false", "off", "no"] then some false
  else none

/-- The format that a value names: by a string in any case, or as the only key of a table. -/
def format? : ConfigValue → Option ReportFormat
  | .string s => ReportFormat.ofName? (lowerCase s)
  | .table [(key, _)] => ReportFormat.ofName? (lowerCase key)
  | _ => none

/-- The word that a value stands for. Floating-point numbers are rounded into the range of words, and
    truth values count as one and zero. -/
def word? : ConfigValue → Option UInt64
  | .integer i => if 0 ≤ i then some (UInt64.ofNat i.toNat) else none
  | .float x => some x.toWord
  | .bool b => some (if b then 1 else 0)
  | .string s =>
    match truthOfWord? (lowerCase s) with
    | some b => some (if b then 1 else 0)
    | none => Word.unsigned? s.toList
  | _ => none

/-- The truth value that a value stands for. Every number but zero is true. -/
def truth? : ConfigValue → Option Bool
  | .bool b => some b
  | .integer i => some (i != 0)
  | .float x => some (!x.isZero)
  | .string s =>
    if s = "1" then some true
    else if s = "0" then some false
    else truthOfWord? (lowerCase s)
  | _ => none

/-- The value of a field of a section, if it is there. A section is a table with its fields under their
    names, or an array with its fields in order; the outer option is none for one of another form. -/
def field? (config : Entries ConfigValue) (table name : String) (position : Nat) :
    Option (Option ConfigValue) :=
  match config.lookup table with
  | none => some none
  | some (.table entries) => some (entries.lookup name)
  | some (.array items) => some items[position]?
  | some _ => none

/-- A count, which may be left out. -/
def count? : ConfigValue → Option (Option UInt64)
  | .nothing => some none
  | v => v.word?.map some

/-- Convert a value if it is there, or else take another one. -/
def convertedOr? {α : Type} (otherwise : α) (convert : ConfigValue → Option α) :
    Option ConfigValue → Option α
  | none => some otherwise
  | some v => convert v

end ConfigValue

/-- The settings in a configuration; none if a value does not convert. Everything else in it is
    ignored. -/
def Settings.ofConfig? (config : Entries ConfigValue) : Option Settings := do
  let format ← ConfigValue.field? config "output" "format" 0
  let maxReported ← ConfigValue.field? config "output" "max_reported" 1
  let descriptor ← ConfigValue.field? config "schema" "descriptor" 0
  return {
    format := ← ConfigValue.convertedOr? .text ConfigValue.format? format
    maxReported := ← ConfigValue.convertedOr? none ConfigValue.count? maxReported
    descriptor := ← ConfigValue.convertedOr? false ConfigValue.truth? descriptor }

/-! ### Writing -/

/-- The settings as a TOML document; none if the count does not fit a signed word of 64 bits, the
    largest whole number of such a document. -/
def Settings.render? (settings : Settings) : Option String :=
  match settings.maxReported with
  | none => some (document "")
  | some n =>
    if n.toNat < 2 ^ 63 then some (document ("max_reported = " ++ toString n.toNat ++ "\n")) else none
where
  document (limit : String) : String :=
    "[output]\nformat = \"" ++ settings.format.name ++ "\"\n" ++ limit
      ++ "\n[schema]\ndescriptor = " ++ toString settings.descriptor ++ "\n"

end Conform
