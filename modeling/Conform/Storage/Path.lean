/-
Module: Conform.Storage.Path
Purpose: Paths of files as text. Slashes at the end and single points at the end name nothing.
Main exports: Path.isUsable, Path.canBeName, Path.isAbsolute, Path.inDirectory, Path.directory?,
  Path.beside, Path.fileName?, Path.extension?
-/

namespace Conform
namespace Path

/-- A path can be followed if it is not empty, is not longer than 4095 bytes, and holds no zero
    character. -/
def isUsable (path : String) : Bool :=
  path != "" && path.utf8ByteSize ≤ 4095 && path.toList.all (· != '\x00')

/-- A file can have a name of up to 255 bytes. -/
def canBeName (name : String) : Bool := name.utf8ByteSize ≤ 255

/-- The path does not depend on the current directory. -/
def isAbsolute (path : String) : Bool := path.toList.head? == some '/'

/-- A path as it is followed from a directory: an absolute path is followed from anywhere, and the empty
    directory adds nothing. -/
def inDirectory (directory path : String) : String :=
  if isAbsolute path then path
  else if directory.toList.getLast?.all (· == '/') then directory ++ path
  else directory ++ "/" ++ path

/-- A reversed path without the slashes and single points that stand at its end. -/
def dropTrailing : List Char → List Char
  | '/' :: rest => dropTrailing rest
  | '.' :: '/' :: rest => dropTrailing rest
  | rest => rest

/-- A path without the slashes and single points that stand at its end. -/
def trimmed (path : String) : List Char := (dropTrailing path.toList.reverse).reverse

/-- The part in front of the last name, with one slash at its end if there is anything; none if there
    is no name. -/
def directory? (path : String) : Option String :=
  let trimmed := trimmed path
  if trimmed = [] then none
  else if trimmed.contains '/' then
    let front := trimmed.reverse.dropWhile (· != '/')
    some (String.ofList (dropTrailing front).reverse ++ "/")
  else some ""

/-- The path of a file that is named relative to another one. -/
def beside (base target : String) : String :=
  inDirectory ((directory? base).getD "") target

/-- The last name on the path, unless it names a directory by points. -/
def fileName? (path : String) : Option (List Char) :=
  let name := (trimmed path).reverse.takeWhile (· != '/') |>.reverse
  if name = [] ∨ name = ['.'] ∨ name = ['.', '.'] then none else some name

/-- What stands behind the last point of the file name, if something stands in front of it. -/
def extension? (path : String) : Option String :=
  (fileName? path).bind fun name =>
    let behind := name.reverse.takeWhile (· != '.')
    let front := name.length - behind.length
    if front ≤ 1 then none else some (String.ofList behind.reverse)

end Path
end Conform
