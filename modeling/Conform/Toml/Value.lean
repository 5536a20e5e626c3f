/-
Module: Conform.Toml.Value
Purpose: The values of a TOML document.
Main exports: Toml.Value
-/
import Conform.Numeric.Double

namespace Conform
namespace Toml

/-- A value in a document. -/
inductive Value where
  | bool (b : Bool)
  | integer (i : Int)
  | float (x : Double)
  | string (s : String)
  /-- A day or a time of day or both, as it is written. -/
  | moment (text : String)
  | array (items : List Value)
  | table (entries : List (String × Value))
deriving Inhabited

end Toml
end Conform
