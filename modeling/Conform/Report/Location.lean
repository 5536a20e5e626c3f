/-
Module: Conform.Report.Location
Purpose: Places inside an instance and their written form.
Main exports: Location, Location.text
-/

namespace Conform

/-- A place inside an instance, by the way that leads there from the whole. -/
inductive Location where
  | whole
  | member (parent : Location) (key : String)
  | element (parent : Location) (i : Nat)
deriving DecidableEq, Repr, Inhabited

namespace Location

/-- `$` for the whole, then `.key` for each member and `[i]` for each element on the way. Keys are not
    quoted. -/
def text : Location → String
  | .whole => "$"
  | .member parent key => parent.text ++ "." ++ key
  | .element parent i => parent.text ++ "[" ++ toString i ++ "]"

end Location

end Conform
