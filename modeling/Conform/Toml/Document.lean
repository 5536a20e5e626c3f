/-
Module: Conform.Toml.Document
Purpose: TOML documents as tables of values.
Main exports: Toml.parse?
-/
import Conform.Toml.Grammar

namespace Conform
namespace Toml

/-- A document while it is read: the table that was opened last, and all entries so far. -/
structure Draft where
  opened : List String := []
  document : Entries Item := []

/-- Take in one statement. -/
def Draft.extend (draft : Draft) : Statement → Option Draft
  | .table path name =>
    (openTable path name draft.document).map fun document => ⟨path ++ [name], document⟩
  | .element path name =>
    (openElement path name draft.document).map fun document => ⟨path ++ [name], document⟩
  | .pair path name v =>
    (insertPair draft.opened path name v draft.document).map fun document => ⟨draft.opened, document⟩

/-- The entries of a document; none if the text is no document or defines a name twice. -/
def parse? (text : String) : Option (Entries Value) := do
  let statements ← lines? text.toList
  let draft ← statements.foldlM Draft.extend {}
  return entryValues draft.document

end Toml
end Conform
