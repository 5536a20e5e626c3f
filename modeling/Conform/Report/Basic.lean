/-
Module: Conform.Report.Basic
Purpose: Diagnostics and reports. A report is a list of diagnostics in the order they were found; it only
  grows at its end.
Main exports: Diagnostic, Finding, Report, Report.push, Report.atPath, Report.count, Report.text
-/
import Conform.Report.Location
import Conform.Report.Violation

namespace Conform

/-- One violation as it is reported: where, which rule, and in words. -/
structure Diagnostic where
  path : String
  rule : Rule
  message : String
deriving DecidableEq, Repr

namespace Diagnostic

/-- The line shown for a diagnostic. -/
def text (d : Diagnostic) : String := d.path ++ ": " ++ d.message

end Diagnostic

/-- One violation as it is found: a place inside the instance, and what is wrong there. -/
structure Finding where
  location : Location
  violation : Violation
deriving Inhabited

/-- The diagnostic that reports a finding. -/
def Finding.diagnostic (f : Finding) : Diagnostic :=
  ⟨f.location.text, f.violation.rule, f.violation.message⟩

/-- Diagnostics in the order they were found. -/
structure Report where
  items : List Diagnostic
deriving DecidableEq, Repr

namespace Report

/-- No diagnostics. -/
def empty : Report := ⟨[]⟩

instance : Inhabited Report := ⟨empty⟩

/-- Add a diagnostic at the end. -/
def push (r : Report) (d : Diagnostic) : Report := ⟨r.items ++ [d]⟩

/-- Add a diagnostic for a place, a rule and a message at the end. -/
def pushAt (r : Report) (place : Location) (rule : Rule) (message : String) : Report :=
  r.push ⟨place.text, rule, message⟩

/-- Add the diagnostics of findings at the end, in order. -/
def append (r : Report) (findings : List Finding) : Report :=
  ⟨r.items ++ findings.map Finding.diagnostic⟩

/-- How many diagnostics there are. -/
def size (r : Report) : Nat := r.items.length

/-- There are no diagnostics. -/
def isEmpty (r : Report) : Bool := r.items.isEmpty

/-- The diagnostics with exactly this path. -/
def atPath (r : Report) (path : String) : List Diagnostic := r.items.filter (·.path == path)

/-- How many diagnostics are about a rule. -/
def count (r : Report) (rule : Rule) : Nat := (r.items.filter (·.rule == rule)).length

/-- The lines of all diagnostics. -/
def lines (r : Report) : List String := r.items.map Diagnostic.text

/-- The lines of all diagnostics, each with a line break behind it. -/
def text (r : Report) : String := String.join (r.lines.map (· ++ "\n"))

@[simp] theorem items_empty : empty.items = [] := rfl

@[simp] theorem items_push (r : Report) (d : Diagnostic) : (r.push d).items = r.items ++ [d] := rfl

@[simp] theorem items_append (r : Report) (findings : List Finding) :
    (r.append findings).items = r.items ++ findings.map Finding.diagnostic := rfl

/-- Appending twice is appending all at once. -/
theorem append_append (r : Report) (first second : List Finding) :
    (r.append first).append second = r.append (first ++ second) := by
  simp [append]

end Report

end Conform
