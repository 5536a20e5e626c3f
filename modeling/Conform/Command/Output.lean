/-
Module: Conform.Command.Output
Purpose: How the command shows a report: lines of text or one JSON document. Both show the same first
  diagnostics, and both tell how many there are in all.
Main exports: Report.shown, Report.textOutput, Report.jsonOutput
-/
import Conform.Report.Serial

namespace Conform
namespace Report

/-- The diagnostics that are shown: all of them, or the first ones up to a limit. -/
def shown (r : Report) (limit : Option UInt64) : List Diagnostic :=
  match limit with
  | none => r.items
  | some n => r.items.take n.toNat

/-- How many diagnostics are not shown. -/
def hidden (r : Report) (limit : Option UInt64) : Nat := r.size - (r.shown limit).length

/-- The lines of the report as text. -/
def textLines (r : Report) (limit : Option UInt64) : List String :=
  (r.shown limit).map (fun d => "schema validation error: " ++ d.text)
    ++ (if 0 < r.hidden limit then
          ["(" ++ toString (r.hidden limit) ++ " more diagnostics not shown)"]
        else [])

/-- The report as text. -/
def textOutput (r : Report) (limit : Option UInt64) : String :=
  String.join ((r.textLines limit).map (· ++ "\n"))

/-- A count as a number, the largest word if it is larger. -/
def countJson (n : Nat) : Json :=
  .number (.integer ⟨min n (2 ^ 64 - 1), by omega, by omega⟩)

/-- The report as a JSON value, with the time it was made and the names of the two documents. -/
def document (r : Report) (limit : Option UInt64) (time schema subject : String) : Json :=
  .object [
    ("valid", .bool r.isEmpty),
    ("generated_at", .string time),
    ("schema", .string schema),
    ("instance", .string subject),
    ("error_count", countJson r.size),
    ("errors", .array ((r.shown limit).map Diagnostic.toJson))]

/-- The report as an indented JSON document. -/
def jsonOutput (r : Report) (limit : Option UInt64) (time schema subject : String) : String :=
  (r.document limit time schema subject).pretty ++ "\n"

end Report
end Conform
