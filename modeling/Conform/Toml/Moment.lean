/-
Module: Conform.Toml.Moment
Purpose: Moments: a day of the calendar, a time of day, or both, and then perhaps with the offset of a
  time zone.
Main exports: Toml.daysInMonth, Toml.moment, Toml.isMoment
-/
import Conform.Scanner

namespace Conform
namespace Toml

/-! ### Days -/

/-- Every fourth year is a leap year, but of the full centuries only every fourth. -/
def isLeapYear (year : Nat) : Bool := year % 4 == 0 && (year % 100 != 0 || year % 400 == 0)

/-- How many days a month has. -/
def daysInMonth (year month : Nat) : Nat :=
  if month = 2 then if isLeapYear year then 29 else 28
  else if month ∈ [4, 6, 9, 11] then 30
  else 31

/-- A day: year, month and day of the month. -/
def day : Scanner Unit := fun text => do
  let (year, rest) ← Scanner.number 4 0 9999 text
  let (_, rest) ← Scanner.expect '-' rest
  let (month, rest) ← Scanner.number 2 1 12 rest
  let (_, rest) ← Scanner.expect '-' rest
  let (_, rest) ← Scanner.number 2 1 (daysInMonth year month) rest
  return ((), rest)

/-! ### Times -/

/-- The fraction of a second, with any number of digits. -/
def fraction : Scanner Unit
  | '.' :: c :: rest => if c.isDigit then some ((), rest.dropWhile Char.isDigit) else none
  | _ => none

/-- A time of day: hours, minutes, seconds, and perhaps a fraction. A minute may have a leap second. -/
def timeOfDay : Scanner Unit := fun text => do
  let (_, rest) ← Scanner.number 2 0 23 text
  let (_, rest) ← Scanner.expect ':' rest
  let (_, rest) ← Scanner.number 2 0 59 rest
  let (_, rest) ← Scanner.expect ':' rest
  let (_, rest) ← Scanner.number 2 0 60 rest
  Scanner.optional fraction rest

/-- The offset of a time zone: none, or hours and minutes ahead or behind. -/
def offset : Scanner Unit := fun text => do
  let (sign, rest) ← Scanner.oneOf ['Z', 'z', '+', '-'] text
  if sign = 'Z' ∨ sign = 'z' then return ((), rest)
  else
    let (_, rest) ← Scanner.number 2 0 23 rest
    let (_, rest) ← Scanner.expect ':' rest
    let (_, rest) ← Scanner.number 2 0 59 rest
    return ((), rest)

/-! ### Moments -/

/-- What stands between a day and a time of day. -/
def delimiters : List Char := ['T', 't', ' ']

/-- A moment. What may stand behind a day belongs to the moment only if a time of day follows it, and
    only a day with a time of day has an offset. -/
def moment : Scanner Unit := fun text =>
  match day text with
  | none => timeOfDay text
  | some (_, rest) =>
    Scanner.optional (fun text => do
      let (_, rest) ← Scanner.oneOf delimiters text
      let (_, rest) ← timeOfDay rest
      Scanner.optional offset rest) rest

/-- The whole text is a moment. -/
def isMoment (text : List Char) : Bool := (moment text).any fun (_, rest) => rest.isEmpty

end Toml
end Conform
