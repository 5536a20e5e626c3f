/-
Module: Conform.Schema.TypeDeclaration
Purpose: The `type` keyword: one type name or a list of alternatives. An entry that is no type name
  admits nothing.
Main exports: TypeDeclaration, TypeDeclaration.admits, TypeDeclaration.names,
  TypeDeclaration.text
-/
import Conform.Json.Kind
import Conform.Json.Printer

namespace Conform

/-- A `type` declaration as it stands in the schema. -/
structure TypeDeclaration where
  written : Json
deriving Inhabited

namespace TypeDeclaration

/-- The type name that an entry spells. -/
def entryKind? (entry : Json) : Option Kind := entry.asString?.bind Kind.ofName?

/-- The alternatives, without the entries that are no type name. -/
def kinds (declared : TypeDeclaration) : List Kind :=
  match declared.written with
  | .array entries => entries.filterMap entryKind?
  | entry => (entryKind? entry).toList

/-- Some alternative admits the value. -/
def admits (declared : TypeDeclaration) (v : Json) : Bool := declared.kinds.any (·.admits v)

/-- The type name is one of the alternatives. -/
def names (declared : TypeDeclaration) (kind : Kind) : Bool := declared.kinds.contains kind

/-- The declaration in messages: a single name bare, anything else as compact JSON. -/
def text (declared : TypeDeclaration) : String :=
  match declared.written with
  | .string name => name
  | written => written.compact

end TypeDeclaration

end Conform
