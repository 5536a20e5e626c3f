/-
Module: Conform.Config.KeyPath
Purpose: Keys that spell a path into a configuration, such as `output.format` or `hosts[2].name`, and
  putting values at the end of a path.
Main exports: KeyStep, KeyPath, KeyPath.ofKey, ConfigValue.put, ConfigValue.layer
-/
import Conform.Config.Value
import Conform.LowerCase
import Conform.Numeric.Word
import Conform.Scanner

namespace Conform

/-- A step from a value into one of its parts. -/
inductive KeyStep where
  /-- To the entry of a table. -/
  | name (name : String)
  /-- To the element of an array, counted from the end if negative. -/
  | index (i : Int)
deriving DecidableEq, Repr

/-- A path from the whole configuration to one of its parts. -/
abbrev KeyPath := List KeyStep

namespace KeyPath

/-! ### Paths in keys -/

/-- A character of a name in a path. -/
def isNameChar (c : Char) : Bool := c.isAlphanum || c == '_' || c == '-' || c == ' '

/-- A name. -/
def name : Scanner KeyStep := fun text =>
  let name := text.takeWhile isNameChar
  if name = [] then none else some (.name (String.ofList name), text.dropWhile isNameChar)

/-- A whole number in brackets, perhaps with blanks around it. -/
def index : Scanner KeyStep := fun text => do
  let isBlank := fun c : Char => c == ' ' || c == '\t'
  let isNumberChar := fun c : Char => c.isDigit || c == '-'
  let (_, rest) ← Scanner.expect '[' text
  let rest := rest.dropWhile isBlank
  let i ← Word.signed? (rest.takeWhile isNumberChar)
  let (_, rest) ← Scanner.expect ']' ((rest.dropWhile isNumberChar).dropWhile isBlank)
  return (.index i, rest)

/-- A further step: a name behind a point, or an index. -/
def step : Scanner KeyStep
  | '.' :: rest => name rest
  | rest => index rest

/-- The path that a key spells: a name and further steps. A key of another form is the name of an entry
    as it stands. -/
def ofKey (key : String) : KeyPath :=
  match name key.toList with
  | none => [.name key]
  | some (first, rest) =>
    match Scanner.many step rest with
    | (steps, []) => first :: steps
    | _ => [.name key]

end KeyPath

namespace ConfigValue

/-! ### Values at the end of a path -/

/-- Arrays have fewer elements than this. -/
def lengthLimit : Nat := 2 ^ 24

/-- The position that an index means among so many elements; none if it is in front of the first one or
    farther behind the last one than any array goes. -/
def position? (length : Nat) (i : Int) : Option Nat :=
  if 0 ≤ i then if i < lengthLimit then some i.toNat else none
  else if -i ≤ length then some (length - i.natAbs)
  else none

/-- Elements with a new one at a position. Places between the last element and a position behind it
    are left out. -/
def setItem (position : Nat) (value : ConfigValue) (items : List ConfigValue) : List ConfigValue :=
  (items ++ List.replicate (position + 1 - items.length) ConfigValue.nothing).set position value

/-- Put a value at the end of a path from a value. What is on the way becomes a table or an array if it
    is none. Under a name the new value is laid over the one that is there; an element is replaced. -/
def put (value : ConfigValue) : KeyPath → ConfigValue → ConfigValue
  | [], base => base.overlay value
  | .name name :: rest, base =>
    let key := lowerCase name
    .table (Entries.set key (put value rest ((base.entries.lookup key).getD (.table []))) base.entries)
  | .index i :: rest, base =>
    match position? base.items.length i with
    | none => .array base.items
    | some position =>
      let element := if rest = [] then value else put value rest (base.items[position]?.getD .nothing)
      .array (setItem position element base.items)

/-- Put each entry at the path that its key spells, later ones over earlier ones. -/
def layer (base : ConfigValue) (entries : Entries ConfigValue) : ConfigValue :=
  entries.foldl (fun base entry => put entry.2 (KeyPath.ofKey entry.1) base) base

end ConfigValue
end Conform
