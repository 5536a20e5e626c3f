/-
Module: Conform.Json.Printer
Purpose: The two printed forms of a JSON value: compact on one line, and indented.
Main exports: Json.quoted, Json.chars, Json.compact, Json.pretty
-/
import Conform.Json.Basic

namespace Conform
namespace Json

/-! ### Strings -/

/-- One character inside quotes. The quote, the backslash and the control characters are escaped, the
    common ones by a letter and the others by their code; everything else stands for itself. -/
def escape (c : Char) : List Char :=
  if c = '"' then ['\\', '"']
  else if c = '\\' then ['\\', '\\']
  else if c = '\x08' then ['\\', 'b']
  else if c = '\x0c' then ['\\', 'f']
  else if c = '\n' then ['\\', 'n']
  else if c = '\r' then ['\\', 'r']
  else if c = '\t' then ['\\', 't']
  else if c.toNat < 0x20 then
    ['\\', 'u', '0', '0', (c.toNat / 16).digitChar, (c.toNat % 16).digitChar]
  else [c]

/-- A string between quotes. -/
def quoted (s : String) : List Char :=
  '"' :: (s.toList.flatMap escape ++ ['"'])

/-- A value without parts; `[]` for arrays and objects. -/
def scalarChars : Json → List Char
  | .null => ['n', 'u', 'l', 'l']
  | .bool true => ['t', 'r', 'u', 'e']
  | .bool false => ['f', 'a', 'l', 's', 'e']
  | .number n => n.text
  | .string s => quoted s
  | .array _ => []
  | .object _ => []

/-! ### Compact form -/

mutual

/-- The value without any white space. -/
def chars : Json → List Char
  | .array [] => ['[', ']']
  | .array (item :: rest) => '[' :: (item.chars ++ itemsTail rest)
  | .object [] => ['\x7b', '\x7d']
  | .object ((key, value) :: rest) => '\x7b' :: (quoted key ++ ':' :: (value.chars ++ membersTail rest))
  | scalar => scalarChars scalar

/-- The elements after the first one, each behind a comma, and the closing bracket. -/
def itemsTail : List Json → List Char
  | [] => [']']
  | item :: rest => ',' :: (item.chars ++ itemsTail rest)

/-- The members after the first one, each behind a comma, and the closing brace. -/
def membersTail : List (String × Json) → List Char
  | [] => ['\x7d']
  | (key, value) :: rest => ',' :: (quoted key ++ ':' :: (value.chars ++ membersTail rest))

end

/-- The compact text of a value. -/
def compact (v : Json) : String := String.ofList v.chars

/-- The compact text of an array with these elements. -/
def compactList (items : List Json) : String := compact (.array items)

/-! ### Indented form -/

/-- A line break and two blanks for every level. -/
def lineBreak (level : Nat) : List Char := '\n' :: List.replicate (2 * level) ' '

mutual

/-- The value with each element and member on a line of its own, starting at a level. Empty arrays and
    objects stay on one line. -/
def indented (level : Nat) : Json → List Char
  | .array [] => ['[', ']']
  | .array (item :: rest) =>
    '[' :: (lineBreak (level + 1) ++ (item.indented (level + 1) ++ indentedItems level rest))
  | .object [] => ['\x7b', '\x7d']
  | .object ((key, value) :: rest) =>
    '\x7b' :: (lineBreak (level + 1) ++ (quoted key ++ ':' :: ' ' ::
      (value.indented (level + 1) ++ indentedMembers level rest)))
  | scalar => scalarChars scalar

def indentedItems (level : Nat) : List Json → List Char
  | [] => lineBreak level ++ [']']
  | item :: rest =>
    ',' :: (lineBreak (level + 1) ++ (item.indented (level + 1) ++ indentedItems level rest))

def indentedMembers (level : Nat) : List (String × Json) → List Char
  | [] => lineBreak level ++ ['\x7d']
  | (key, value) :: rest =>
    ',' :: (lineBreak (level + 1) ++ (quoted key ++ ':' :: ' ' ::
      (value.indented (level + 1) ++ indentedMembers level rest)))

end

/-- The indented text of a value. -/
def pretty (v : Json) : String := String.ofList (v.indented 0)

end Json
end Conform
