/-
Module: Conform.Config.Environment
Purpose: What a run finds around it, and configuration from environment variables. The name of a variable
  spells a path of names behind a common beginning, and its text is taken for the narrowest kind of value
  it spells.
Main exports: Environment, Environment.home?, ConfigValue.ofText, environmentEntries
-/
import Conform.Config.Document
import Conform.LowerCase
import Conform.Numeric.Word

namespace Conform

/-- What a run finds around it, apart from files. -/
structure Environment where
  /-- The environment variables with their values. -/
  bindings : List (String × String) := []
  /-- The home directory that the system knows for the account. -/
  accountHome : Option String := none
  /-- The formats of configuration files. -/
  formats : ConfigFormats := .plain

namespace Environment

/-- The home directory: the one that is set, unless it is empty, or else that of the account. -/
def home? (environment : Environment) : Option String :=
  ((environment.bindings.lookup "HOME").filter (· != "")).or environment.accountHome

end Environment

/-! ### Values from text -/

/-- The exponent at the end of a decimal number; zero if there is none. -/
def exponentOfText? : List Char → Option Int
  | [] => some 0
  | mark :: rest =>
    if mark = 'e' ∨ mark = 'E' then
      let digits := if rest.head? = some '-' ∨ rest.head? = some '+' then rest.tail else rest
      if digits ≠ [] ∧ digits.all Char.isDigit then
        let n : Int := Nat.ofDigitChars 10 digits 0
        some (if rest.head? = some '-' then -n else n)
      else none
    else none

/-- The floating-point number that a text spells: digits with at most one point anywhere among them and
    an optional exponent, or the name of a special value in any case. -/
def doubleOfText? (text : List Char) : Option Double :=
  let negative := text.head? == some '-'
  let body := if text.head? = some '-' ∨ text.head? = some '+' then text.tail else text
  let name := String.ofList (body.map Char.toLower)
  if name = "inf" ∨ name = "infinity" then some (.infinite negative)
  else if name = "nan" then some .nan
  else
    let whole := body.takeWhile Char.isDigit
    let rest := body.dropWhile Char.isDigit
    let (fraction, rest) :=
      match rest with
      | '.' :: rest => (rest.takeWhile Char.isDigit, rest.dropWhile Char.isDigit)
      | rest => ([], rest)
    if whole = [] ∧ fraction = [] then none
    else (exponentOfText? rest).map fun exponent =>
      Double.ofScaled negative (Nat.ofDigitChars 10 (whole ++ fraction) 0) (exponent - fraction.length)

/-- The value that a text spells: a truth value in any case, else a whole number, else a floating-point
    number, else the text itself. -/
def ConfigValue.ofText (text : String) : ConfigValue :=
  if lowerCase text = "true" then .bool true
  else if lowerCase text = "false" then .bool false
  else
    match Word.signed? text.toList with
    | some i => .integer i
    | none =>
      match doubleOfText? text.toList with
      | some x => .float x
      | none => .string text

/-! ### Entries from variables -/

/-- What the names of the variables begin with, in lower case. -/
def variablePrefix : List Char := "schema_validate__".toList

/-- The text with a point for each pair of underscores, from the left. -/
def pointed : List Char → List Char
  | '_' :: '_' :: rest => '.' :: pointed rest
  | c :: rest => c :: pointed rest
  | [] => []

/-- The key that the name of a variable spells, if it has the common beginning in some case. -/
def keyOfVariable? (name : String) : Option String :=
  let name := (lowerCase name).toList
  if variablePrefix.isPrefixOf name then
    some (String.ofList (pointed (name.drop variablePrefix.length)))
  else none

/-- The entries that environment variables make. -/
def environmentEntries (environment : Environment) : Entries ConfigValue :=
  environment.bindings.filterMap fun setting =>
    (keyOfVariable? setting.1).map fun key => (key, ConfigValue.ofText setting.2)

end Conform
