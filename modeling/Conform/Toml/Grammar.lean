/-
Module: Conform.Toml.Grammar
Purpose: The grammar of TOML: keys, values and the lines of a document.
Main exports: Toml.key, Toml.value, Toml.Statement, Toml.lines?
-/
import Conform.Toml.Moment
import Conform.Toml.Quoted
import Conform.Toml.Scalar
import Conform.Toml.Table

namespace Conform
namespace Toml

/-! ### Comments -/

/-- Skip a comment up to the end of its line. -/
def skipComment : List Char → List Char
  | '#' :: rest => rest.dropWhile fun c => !isControl c
  | text => text

/-- Skip blanks, comments and line ends; `comment` says whether the text begins inside of a comment. -/
def skipLines (comment : Bool) : List Char → List Char
  | [] => []
  | '\n' :: rest => skipLines false rest
  | '\r' :: '\n' :: rest => skipLines false rest
  | c :: rest =>
    if comment then if isControl c then c :: rest else skipLines true rest
    else if isBlank c then skipLines false rest
    else if c = '#' then skipLines true rest
    else c :: rest

/-! ### Keys -/

/-- How deep arrays and inline tables may nest, and how many parts a key may have. -/
def maxDepth : Nat := 79

/-- A character of a key without quotes. -/
def isBareChar (c : Char) : Bool := c.isAlphanum || c == '_' || c == '-'

/-- One part of a key: bare or quoted. -/
def simpleKey : Scanner String
  | '"' :: rest => (basicString rest).map fun (cs, rest) => (String.ofList cs, rest)
  | '\'' :: rest => (literalString rest).map fun (cs, rest) => (String.ofList cs, rest)
  | text =>
    let name := text.takeWhile isBareChar
    if name = [] then none else some (String.ofList name, text.dropWhile isBareChar)

/-- A further part of a key behind a point. -/
def keyTail : Scanner String := fun text => do
  let (_, rest) ← Scanner.expect '.' (skipBlanks text)
  simpleKey (skipBlanks rest)

/-- A key: the parts in front of the last one, and the last one. -/
def key : Scanner (List String × String) := fun text => do
  let (first, rest) ← simpleKey (skipBlanks text)
  let (more, rest) := Scanner.many keyTail rest
  if more.length < maxDepth then
    return (((first :: more).dropLast, more.getLast?.getD first), skipBlanks rest)
  else none

/-! ### Values -/

/-- A character of a word. -/
def isWordChar (c : Char) : Bool := c.isAlphanum || c == '_' || c == '+' || c == '-' || c == '.'

/-- A key, an equals sign and a value. -/
def pair (value : Scanner Value) : Scanner ((List String × String) × Value) := fun text => do
  let (k, rest) ← key text
  let (_, rest) ← Scanner.expect '=' rest
  let (v, rest) ← value (skipBlanks rest)
  return ((k, v), skipBlanks rest)

/-- The elements of an array behind its opening bracket. A comma may follow the last one. -/
def arrayItems (value : Scanner Value) : Scanner (List Value) := fun text =>
  let element : Scanner Value := fun text => do
    let (v, rest) ← value (skipLines false text)
    return (v, skipLines false rest)
  match element text with
  | none => do
    let (_, rest) ← Scanner.expect ']' (skipLines false text)
    return ([], rest)
  | some (first, rest) => do
    let (more, rest) := Scanner.many (fun text => do
      let (_, rest) ← Scanner.expect ',' text
      element rest) rest
    let rest :=
      match Scanner.expect ',' rest with
      | some (_, rest) => skipLines false rest
      | none => rest
    let (_, rest) ← Scanner.expect ']' rest
    return (first :: more, rest)

/-- The entries of a table in braces behind its opening brace, all on one line. -/
def inlineEntries (value : Scanner Value) : Scanner (Entries Item) := fun text =>
  match Scanner.expect '\x7d' (skipBlanks text) with
  | some (_, rest) => some ([], rest)
  | none => do
    let (first, rest) ← pair value text
    let (more, rest) := Scanner.many (fun text => do
      let (_, rest) ← Scanner.expect ',' text
      pair value rest) rest
    let (_, rest) ← Scanner.expect '\x7d' rest
    let entries ← (first :: more).foldlM
      (fun entries p => insertValue p.1.1 p.1.2 p.2 false entries) ([] : Entries Item)
    return (entries, rest)

/-- A value without brackets: a string, a moment, or a word. -/
def plain : Scanner Value := fun text =>
  match quoted text with
  | some (cs, rest) => some (.string (String.ofList cs), rest)
  | none =>
    match moment text with
    | some (_, rest) => some (.moment (String.ofList (text.take (text.length - rest.length))), rest)
    | none => (word? (text.takeWhile isWordChar)).map (·, text.dropWhile isWordChar)

/-- A value that nests at most so many arrays and tables. -/
def value : Nat → Scanner Value
  | levels + 1, '[' :: rest =>
    (arrayItems (value levels) rest).map fun (items, rest) => (.array items, rest)
  | levels + 1, '\x7b' :: rest =>
    (inlineEntries (value levels) rest).map fun (entries, rest) => (.table (entryValues entries), rest)
  | _, text => plain text

/-! ### Lines -/

/-- One line of a document. -/
inductive Statement where
  /-- A header that opens a table. -/
  | table (path : List String) (name : String)
  /-- A header that adds a table to an array. -/
  | element (path : List String) (name : String)
  | pair (path : List String) (name : String) (v : Value)

/-- A header or a key with its value. -/
def statement : Scanner Statement
  | '[' :: '[' :: rest => do
    let ((path, name), rest) ← key rest
    let (_, rest) ← Scanner.expect ']' rest
    let (_, rest) ← Scanner.expect ']' rest
    return (.element path name, rest)
  | '[' :: rest => do
    let ((path, name), rest) ← key rest
    let (_, rest) ← Scanner.expect ']' rest
    return (.table path name, rest)
  | text => (pair (value maxDepth) text).map fun (((path, name), v), rest) => (.pair path name v, rest)

/-- A line with its end, or the rest of the text if that is the last line. A line without a statement is
    blank or holds a comment. -/
def line : Scanner (Option Statement) := fun text =>
  let text := skipBlanks text
  let (content, rest) :=
    match statement text with
    | some (s, rest) => (some s, rest)
    | none => (none, text)
  match skipComment (skipBlanks rest) with
  | [] => some (content, [])
  | rest => (lineEnd rest).map fun (_, rest) => (content, rest)

/-- The statements of a document. A byte order mark may stand in front. -/
def lines? (text : List Char) : Option (List Statement) :=
  let text :=
    match text with
    | '\ufeff' :: rest => rest
    | text => text
  match Scanner.many line text with
  | (lines, []) => some (lines.filterMap id)
  | _ => none

end Toml
end Conform
