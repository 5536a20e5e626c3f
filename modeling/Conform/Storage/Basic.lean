/-
Module: Conform.Storage.Basic
Purpose: The files a program reads and writes, seen through the two things it does with a path, and the
  directory that its paths start from.
Main exports: Entry, Entry.text?, Storage
-/

namespace Conform

/-- What is found under a path. -/
inductive Entry where
  | missing
  | directory
  | file (content : ByteArray)
  /-- Readable, but no regular file. -/
  | device (content : ByteArray)
deriving Inhabited

namespace Entry

/-- The text that can be read; none if there is nothing to read or it is not UTF-8. -/
def text? : Entry → Option String
  | .file content => String.fromUTF8? content
  | .device content => String.fromUTF8? content
  | _ => none

/-- A regular file. -/
def isFile : Entry → Bool
  | .file _ => true
  | _ => false

/-- Something is there. -/
def isPresent : Entry → Bool
  | .missing => false
  | _ => true

end Entry

/-- A place where files are kept. -/
class Storage (m : Type → Type) where
  /-- The absolute path of the directory that other paths are followed from. -/
  currentDirectory : m String
  /-- What is found under a path. -/
  look : String → m Entry
  /-- Replace the content of the file under a path, which need not exist yet; false if that fails. -/
  write : String → String → m Bool

end Conform
