/-
Module: Conform.Config.Value
Purpose: Values of a configuration and laying one value over another.
Main exports: ConfigValue, ConfigValue.entries, ConfigValue.items, ConfigValue.overlay, overlayEntries
-/
import Conform.Entries
import Conform.LowerCase
import Conform.Numeric.Double

namespace Conform

/-- A value in a configuration. -/
inductive ConfigValue where
  /-- What an array holds at a place that was left out, and what is written as null. -/
  | nothing
  | bool (b : Bool)
  | integer (i : Int)
  | float (x : Double)
  | string (s : String)
  | array (items : List ConfigValue)
  | table (entries : List (String × ConfigValue))
deriving Inhabited

namespace ConfigValue

/-- The entries of a table; none for other values. -/
def entries : ConfigValue → Entries ConfigValue
  | .table entries => entries
  | _ => []

/-- The elements of an array; none for other values. -/
def items : ConfigValue → List ConfigValue
  | .array items => items
  | _ => []

mutual

/-- Lay a value over the one that is there: the entries of a table go into the table that is there,
    anything else replaces it. So a table without entries leaves what is there, whatever it is. -/
def overlay (base : ConfigValue) : ConfigValue → ConfigValue
  | .table entries =>
    if entries.isEmpty then base else .table (overlayEntries base.entries entries)
  | value => value

/-- Lay entries over those that are there, one after the other. Names are compared in lower case. -/
def overlayEntries (base : Entries ConfigValue) : List (String × ConfigValue) → Entries ConfigValue
  | [] => base
  | (name, value) :: rest =>
    let key := lowerCase name
    overlayEntries (Entries.set key (((base.lookup key).getD (.table [])).overlay value) base) rest

end

end ConfigValue
end Conform
