/-
Module: Conform.Report.Serial
Purpose: Reports as JSON, and reading them back. A record is read from an object that has each of its
  fields once, other keys being ignored, or from an array of exactly its fields in order.
Main exports: Diagnostic.toJson, Report.toJson, Report.ofText?
-/
import Conform.Json.Parser
import Conform.Report.Basic

namespace Conform

/-! ### Writing -/

/-- A diagnostic as an object with path, kind and message. -/
def Diagnostic.toJson (d : Diagnostic) : Json :=
  .object [("path", .string d.path), ("kind", .string d.rule.name), ("message", .string d.message)]

/-- A report as an object with the list of its diagnostics. -/
def Report.toJson (r : Report) : Json :=
  .object [("items", .array (r.items.map Diagnostic.toJson))]

/-! ### Reading -/

namespace JsonSource

/-- The string that a tree spells. -/
def asString? : JsonSource → Option String
  | .string units => TextUnit.string? units
  | _ => none

/-- The value of the only member under a key. -/
def only? (members : List (String × JsonSource)) (key : String) : Option JsonSource :=
  match members.filter (·.1 == key) with
  | [(_, value)] => some value
  | _ => none

/-- Members with their keys decoded. -/
def decodedMembers? (members : List (List TextUnit × JsonSource)) :
    Option (List (String × JsonSource)) :=
  members.mapM fun member => (TextUnit.string? member.1).map (·, member.2)

/-- The fields of a record, in the order of their names. -/
def fields? (names : List String) : JsonSource → Option (List JsonSource)
  | .object members => do names.mapM (only? (← decodedMembers? members))
  | .array items => if items.length = names.length then some items else none
  | _ => none

/-- The rule that a tree names, by a string or as the only key of an object with the value null. -/
def rule? : JsonSource → Option Rule
  | .string units => (TextUnit.string? units).bind Rule.ofName?
  | .object [(key, .null)] => (TextUnit.string? key).bind Rule.ofName?
  | _ => none

/-- The diagnostic that a tree spells. -/
def diagnostic? (source : JsonSource) : Option Diagnostic :=
  match source.fields? ["path", "kind", "message"] with
  | some [path, rule, message] => do
    return ⟨← path.asString?, ← rule.rule?, ← message.asString?⟩
  | _ => none

/-- The report that a tree spells. -/
def report? (source : JsonSource) : Option Report :=
  match source.fields? ["items"] with
  | some [.array items] => (items.mapM diagnostic?).map Report.mk
  | _ => none

end JsonSource

/-- The report that a text spells. -/
def Report.ofText? (text : String) : Option Report :=
  (JsonSource.ofText? text).bind JsonSource.report?

end Conform
