/-
Module: Conform.LowerCase
Purpose: The lower case of words and names that are read in any case.
Main exports: smallLetter, lowerCase
-/

namespace Conform

/-- The small letter of a letter, as far as that one is in ASCII: besides the capitals of ASCII only the
    Kelvin sign has such a small letter, a `k`. The other characters outside of ASCII stay as they are,
    which no comparison with a text in ASCII can show. -/
def smallLetter (c : Char) : Char := if c = '\u212a' then 'k' else c.toLower

/-- A text in lower case, to be compared with texts in ASCII. -/
def lowerCase (text : String) : String := String.ofList (text.toList.map smallLetter)

end Conform
