/-
Module: Conform.Config.Document
Purpose: Configuration from documents: from TOML, from JSON, and from whatever else the endings of file
  names stand for.
Main exports: ConfigValue.ofToml?, ConfigValue.ofDocument?, ConfigValue.ofJson,
  ConfigValue.ofJsonDocument?, ConfigFormats, ConfigFormats.entries?
-/
import Conform.Config.Value
import Conform.Json.Parser
import Conform.Toml.Document

namespace Conform
namespace ConfigValue

/-! ### TOML -/

/-- The name at the front of a table that stands for a moment. -/
def momentName : String := "$__toml_private_datetime"

/-- The value under the first name of a table that stands for a moment; none for other tables. -/
def reservedValue? : List (String × Toml.Value) → Option Toml.Value
  | [] => none
  | (name, value) :: _ => if name = momentName then some value else none

mutual

/-- The value of a document as a value of the configuration. A moment becomes a string, and so does a
    table that stands for one, which has to hold the text of a moment. -/
def ofToml? : Toml.Value → Option ConfigValue
  | .bool b => some (.bool b)
  | .integer i => some (.integer i)
  | .float x => some (.float x)
  | .string s => some (.string s)
  | .moment text => some (.string text)
  | .array items => (itemsOfToml? items).map .array
  | .table entries =>
    match reservedValue? entries with
    | none => (entriesOfToml? entries).map .table
    | some (.string s) => if Toml.isMoment s.toList then some (.string s) else none
    | some _ => none

def itemsOfToml? : List Toml.Value → Option (List ConfigValue)
  | [] => some []
  | value :: rest => do return (← ofToml? value) :: (← itemsOfToml? rest)

def entriesOfToml? : List (String × Toml.Value) → Option (Entries ConfigValue)
  | [] => some []
  | (name, value) :: rest => do return (name, ← ofToml? value) :: (← entriesOfToml? rest)

end

/-- The entries of a document; none if the text is no document, or a single value. -/
def ofDocument? (text : String) : Option (Entries ConfigValue) := do
  match ← ofToml? (.table (← Toml.parse? text)) with
  | .table entries => some entries
  | _ => none

/-! ### JSON -/

/-- The value of a number. A whole number above all signed words of 64 bits becomes a double. -/
def ofNumber : Number → ConfigValue
  | .integer n =>
    if n.value < 2 ^ 63 then .integer n.value else .float (Double.ofScaled false n.value.toNat 0)
  | .float x => .float (.finite x)

mutual

/-- A JSON value as a value of the configuration. -/
def ofJson : Json → ConfigValue
  | .null => .nothing
  | .bool b => .bool b
  | .number n => ofNumber n
  | .string s => .string s
  | .array items => .array (itemsOfJson items)
  | .object members => .table (entriesOfJson members)

def itemsOfJson : List Json → List ConfigValue
  | [] => []
  | item :: rest => ofJson item :: itemsOfJson rest

def entriesOfJson : List (String × Json) → Entries ConfigValue
  | [] => []
  | (key, value) :: rest => (key, ofJson value) :: entriesOfJson rest

end

/-- The entries of a JSON document; none if the text is no document, or no object. -/
def ofJsonDocument? (text : String) : Option (Entries ConfigValue) :=
  ((Json.parse? text).bind Json.asObject?).map entriesOfJson

end ConfigValue

/-! ### Formats -/

/-- How configuration files are read: what the text of a file says, for each ending that the name of the
    file may have. Files are also looked for with these endings, one after the other. -/
structure ConfigFormats where
  readers : List (String × (String → Option (Entries ConfigValue)))
  toml_eq : readers.lookup "toml" = some ConfigValue.ofDocument?
  json_eq : readers.lookup "json" = some ConfigValue.ofJsonDocument?

namespace ConfigFormats

/-- TOML and JSON only. -/
def plain : ConfigFormats where
  readers := [("toml", ConfigValue.ofDocument?), ("json", ConfigValue.ofJsonDocument?)]
  toml_eq := rfl
  json_eq := rfl

/-- The endings of file names. -/
def endings (formats : ConfigFormats) : List String := formats.readers.map Prod.fst

/-- The entries in the text of a file with an ending; none if the text is no document of the format, or
    there is no format with the ending. -/
def entries? (formats : ConfigFormats) (ending text : String) : Option (Entries ConfigValue) :=
  (formats.readers.lookup ending).bind fun read => read text

/-- Files that end in `toml` are TOML documents. -/
theorem entries?_toml (formats : ConfigFormats) (text : String) :
    formats.entries? "toml" text = ConfigValue.ofDocument? text := by
  rw [entries?, formats.toml_eq, Option.bind_some]

/-- Files may end in `toml`. -/
theorem toml_mem_endings (formats : ConfigFormats) : "toml" ∈ formats.endings := by
  obtain ⟨before, after, hreaders, -⟩ := List.lookup_eq_some_iff.1 formats.toml_eq
  rw [endings, hreaders, List.map_append, List.map_cons]
  exact List.mem_append_right _ List.mem_cons_self

end ConfigFormats
end Conform
