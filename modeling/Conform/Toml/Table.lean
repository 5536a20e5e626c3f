/-
Module: Conform.Toml.Table
Purpose: Tables of a TOML document while it is read. Each table remembers how it came about, because a
  table may be opened by a header only once and a dotted key only extends tables of dotted keys.
Main exports: Toml.Item, Toml.openTable, Toml.openElement, Toml.insertValue, Toml.insertPair,
  Toml.entryValues
-/
import Conform.Entries
import Conform.Toml.Value

namespace Conform
namespace Toml

/-- What stands under a name. -/
inductive Item where
  | value (v : Value)
  /-- A table; `implicit` if no header opened it, `dotted` if a dotted key brought it about. -/
  | table (implicit dotted : Bool) (entries : List (String × Item))
  /-- An array of tables, of which only the last is still open. -/
  | tables (earlier : List (List (String × Item))) (last : List (String × Item))
deriving Inhabited

/-- Act on the entries of the table at the end of a path. The action learns whether that table comes
    from a dotted key. Tables that are missing on the way are brought about. A dotted path does not go
    through tables that have a header of their own. -/
def within (dotted : Bool) (action : Bool → Entries Item → Option (Entries Item)) (here : Bool)
    (entries : Entries Item) : List String → Option (Entries Item)
  | [] => action here entries
  | name :: rest =>
    match entries.lookup name with
    | none =>
      (within dotted action dotted [] rest).map fun inner =>
        Entries.set name (.table true dotted inner) entries
    | some (.table implicit d inner) =>
      if dotted && !implicit then none
      else (within dotted action d inner rest).map fun inner =>
        Entries.set name (.table implicit d inner) entries
    | some (.tables earlier last) =>
      (within dotted action false last rest).map fun last =>
        Entries.set name (.tables earlier last) entries
    | some (.value _) => none

/-- Open the table under a name by a header: a new one, or one that headers of its parts brought
    about. Tables stand in the order in which they are opened. -/
def openTableNamed (name : String) (entries : Entries Item) : Option (Entries Item) :=
  match entries.lookup name with
  | none => some (Entries.set name (.table false false []) entries)
  | some (.table true false inner) =>
    some (entries.filter (·.1 != name) ++ [(name, .table false false inner)])
  | some _ => none

/-- Add an element to the array of tables under a name. -/
def openElementNamed (name : String) (entries : Entries Item) : Option (Entries Item) :=
  match entries.lookup name with
  | none => some (Entries.set name (.tables [] []) entries)
  | some (.tables earlier last) => some (Entries.set name (.tables (earlier ++ [last]) []) entries)
  | some _ => none

/-- Open the table at the end of a path by a header. -/
def openTable (path : List String) (name : String) (document : Entries Item) : Option (Entries Item) :=
  within false (fun _ entries => openTableNamed name entries) false document path

/-- Add an element to the array of tables at the end of a path. -/
def openElement (path : List String) (name : String) (document : Entries Item) :
    Option (Entries Item) :=
  within false (fun _ entries => openElementNamed name entries) false document path

/-- Add a value under a name that is still free, in the table that a dotted path leads to. -/
def insertValue (path : List String) (name : String) (v : Value) (here : Bool)
    (entries : Entries Item) : Option (Entries Item) :=
  within true
    (fun dotted entries =>
      if dotted == path.isEmpty || (entries.lookup name).isSome then none
      else some (Entries.set name (.value v) entries))
    here entries path

/-- Add a value at a dotted path below the table that was opened last. -/
def insertPair (opened path : List String) (name : String) (v : Value)
    (document : Entries Item) : Option (Entries Item) :=
  within false (insertValue path name v) false document opened

/-! ### The finished document -/

mutual

/-- The value of what stands under a name. -/
def Item.toValue : Item → Value
  | .value v => v
  | .table _ _ entries => .table (entryValues entries)
  | .tables earlier last => .array (tableValues earlier ++ [.table (entryValues last)])

def entryValues : List (String × Item) → Entries Value
  | [] => []
  | (name, item) :: rest => (name, item.toValue) :: entryValues rest

def tableValues : List (List (String × Item)) → List Value
  | [] => []
  | entries :: rest => .table (entryValues entries) :: tableValues rest

end

end Toml
end Conform
