/-
Module: Conform.Storage.Tree
Purpose: Files kept in memory under absolute paths, with a current directory. Directories exist as far
  as something is in them.
Main exports: Tree, Tree.look, Tree.write?, Tree.currentPath
-/
import Conform.Storage.Basic
import Conform.Storage.Path

namespace Conform

/-- Files under the names that lead to them from the root. -/
structure Tree where
  entries : List (List String × Entry)
  /-- The current directory, which exists in any case. -/
  current : List String

namespace Tree

/-- The place is the root, the current directory, or on the way to one of the entries. -/
def isDirectory (tree : Tree) (place : List String) : Bool :=
  place.isPrefixOf tree.current
    || tree.entries.any fun entry => entry.1 != place && place.isPrefixOf entry.1

/-- What is kept at a place. -/
def entryAt (tree : Tree) (place : List String) : Entry :=
  match tree.entries.lookup place with
  | some entry => entry
  | none => if tree.isDirectory place then .directory else .missing

/-- Follow one name of a path from a place that has to be a directory. -/
def step (tree : Tree) (place : List String) (name : String) : Option (List String) :=
  if tree.isDirectory place then
    if name = "" ∨ name = "." then some place
    else if name = ".." then some place.dropLast
    else some (place ++ [name])
  else none

/-- The place that a path leads to; none if it cannot be followed or leads through something that is no
    directory. -/
def locate (tree : Tree) (path : String) : Option (List String) :=
  if !Path.isUsable path then none
  else
    let start := if Path.isAbsolute path then [] else tree.current
    ((path.toList.splitOn '/').map String.ofList).foldlM tree.step start

/-- What is found under a path. -/
def look (tree : Tree) (path : String) : Entry :=
  match tree.locate path with
  | some place => tree.entryAt place
  | none => .missing

/-- The tree with new content for a file, if the path leads to a file or to a free place in an existing
    directory. Devices take everything and keep nothing. -/
def write? (tree : Tree) (path content : String) : Option Tree :=
  match tree.locate path with
  | none => none
  | some place =>
    match tree.entryAt place with
    | .directory => none
    | .device _ => some tree
    | .file _ =>
      some { tree with
        entries := (place, .file content.toUTF8) :: tree.entries.filter (·.1 != place) }
    | .missing =>
      if tree.isDirectory place.dropLast && place.all Path.canBeName then
        some { tree with entries := (place, .file content.toUTF8) :: tree.entries }
      else none

/-- The absolute path of the current directory. -/
def currentPath (tree : Tree) : String := "/" ++ "/".intercalate tree.current

instance : Storage (StateM Tree) where
  currentDirectory := do return (← get).currentPath
  look path := do return (← get).look path
  write path content := do
    match (← get).write? path content with
    | some tree =>
      set tree
      return true
    | none => return false

end Tree
end Conform
