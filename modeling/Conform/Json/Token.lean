/-
Module: Conform.Json.Token
Purpose: The tokens of JSON text. A string token keeps its escapes, so that a text can be checked
  against the grammar without asking whether each string and numeral has a value.
Main exports: TextUnit, TextUnit.decode?, Token, Token.lex
-/
import Conform.Json.Numeral
import Conform.Numeric.Hexadecimal

namespace Conform

/-! ### The inside of a string -/

/-- One character of a string as written: itself, or a code unit given in four hexadecimal digits. -/
inductive TextUnit where
  | char (c : Char)
  | code (u : Nat)
deriving DecidableEq, Repr

namespace TextUnit

/-- The first half of a surrogate pair. -/
def isHigh (u : Nat) : Bool := 0xD800 ≤ u && u < 0xDC00

/-- The second half of a surrogate pair. -/
def isLow (u : Nat) : Bool := 0xDC00 ≤ u && u < 0xE000

/-- The characters that the units stand for; none if half a surrogate pair stands alone. -/
def decode? : List TextUnit → Option (List Char)
  | [] => some []
  | .char c :: rest => (decode? rest).map (c :: ·)
  | .code u :: rest =>
    if isHigh u then
      match rest with
      | .code l :: rest =>
        if isLow l then
          (decode? rest).map (Char.ofNat (0x10000 + (u - 0xD800) * 0x400 + (l - 0xDC00)) :: ·)
        else none
      | _ => none
    else if isLow u then none
    else (decode? rest).map (Char.ofNat u :: ·)

/-- The string that the units stand for. -/
def string? (units : List TextUnit) : Option String := (decode? units).map String.ofList

/-- The character meant by a letter behind a backslash. -/
def escaped? : Char → Option Char
  | '"' => some '"'
  | '\\' => some '\\'
  | '/' => some '/'
  | 'b' => some '\x08'
  | 'f' => some '\x0c'
  | 'n' => some '\n'
  | 'r' => some '\r'
  | 't' => some '\t'
  | _ => none

end TextUnit

/-! ### Tokens -/

/-- The tokens of JSON text. -/
inductive Token where
  | openArray
  | closeArray
  | openObject
  | closeObject
  | comma
  | colon
  | null
  | bool (b : Bool)
  | number (n : Numeral)
  | string (units : List TextUnit)
deriving DecidableEq, Repr

namespace Token

/-- Space, tab, line feed and carriage return may stand between tokens. -/
def isBlank (c : Char) : Bool := c == ' ' || c == '\t' || c == '\n' || c == '\r'

/-- The tokens of one character. -/
def punctuation? : Char → Option Token
  | '[' => some .openArray
  | ']' => some .closeArray
  | '\x7b' => some .openObject
  | '\x7d' => some .closeObject
  | ',' => some .comma
  | ':' => some .colon
  | _ => none

/-- A character of a literal name or a numeral: all that is no blank, punctuation or quote. -/
def isWordChar (c : Char) : Bool := !(isBlank c || (punctuation? c).isSome || c == '"')

/-- The token that a run of word characters stands for. -/
def ofWord? (word : List Char) : Option Token :=
  if word = ['n', 'u', 'l', 'l'] then some .null
  else if word = ['t', 'r', 'u', 'e'] then some (.bool true)
  else if word = ['f', 'a', 'l', 's', 'e'] then some (.bool false)
  else (Numeral.ofChars? word).map .number

/-- No token for an empty run, else its one token. -/
def wordTokens? (word : List Char) : Option (List Token) :=
  if word = [] then some [] else (ofWord? word).map ([·])

mutual

/-- The tokens of a text that begins inside a word, after the characters `word`, the latest first. -/
def lexFrom (word : List Char) : List Char → Option (List Token)
  | [] => wordTokens? word.reverse
  | c :: rest =>
    if isWordChar c then lexFrom (c :: word) rest
    else
      match wordTokens? word.reverse with
      | none => none
      | some before =>
        if c = '"' then (lexString [] rest).map (before ++ ·)
        else
          match punctuation? c with
          | some token => (lexFrom [] rest).map (before ++ token :: ·)
          | none => (lexFrom [] rest).map (before ++ ·)

/-- The tokens of a text that begins inside a string, after the units `read`, the latest first. Control
    characters do not stand for themselves. -/
def lexString (read : List TextUnit) : List Char → Option (List Token)
  | [] => none
  | '"' :: rest => (lexFrom [] rest).map (.string read.reverse :: ·)
  | '\\' :: 'u' :: a :: b :: c :: d :: rest =>
    match Hexadecimal.number? [a, b, c, d] with
    | some u => lexString (.code u :: read) rest
    | none => none
  | '\\' :: letter :: rest =>
    match TextUnit.escaped? letter with
    | some c => lexString (.char c :: read) rest
    | none => none
  | c :: rest => if c = '\\' ∨ c.toNat < 0x20 then none else lexString (.char c :: read) rest

end

/-- The tokens of a text; none if it is not made of tokens. -/
def lex (text : List Char) : Option (List Token) := lexFrom [] text

end Token

end Conform
