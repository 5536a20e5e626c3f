/-
Module: Conform.Toml.Quoted
Purpose: Strings of TOML documents: in double quotes, with escapes, or in single quotes, without; on one
  line behind one quote, or as a block of lines behind three.
Main exports: Toml.basicString, Toml.literalString, Toml.basicBlock, Toml.literalBlock, Toml.quoted
-/
import Conform.Numeric.Hexadecimal
import Conform.Scanner

namespace Conform
namespace Toml

/-! ### Blanks and line ends -/

/-- Space and tab. -/
def isBlank (c : Char) : Bool := c == ' ' || c == '\t'

/-- Skip blanks. -/
def skipBlanks (text : List Char) : List Char := text.dropWhile isBlank

/-- A control character, which stands neither in comments nor in strings. -/
def isControl (c : Char) : Bool := (c.toNat < 0x20 && c != '\t') || c.toNat == 0x7f

/-- The end of a line: a line feed, alone or after a carriage return. -/
def lineEnd : Scanner Unit
  | '\n' :: rest => some ((), rest)
  | '\r' :: '\n' :: rest => some ((), rest)
  | _ => none

/-! ### Escapes -/

/-- The character with a code number. -/
def character? (digits : List Char) : Option Char :=
  (Hexadecimal.number? digits).bind fun n => if n.isValidChar then some (Char.ofNat n) else none

/-- The character meant by a letter behind a backslash. -/
def escaped? : Char → Option Char
  | 'b' => some '\x08'
  | 't' => some '\t'
  | 'n' => some '\n'
  | 'f' => some '\x0c'
  | 'r' => some '\r'
  | '"' => some '"'
  | '\\' => some '\\'
  | _ => none

/-- An escape behind its backslash: a letter, or a code number of four or eight digits. -/
def escape : Scanner Char
  | 'u' :: a :: b :: c :: d :: rest => (character? [a, b, c, d]).map (·, rest)
  | 'U' :: a :: b :: c :: d :: e :: f :: g :: h :: rest =>
    (character? [a, b, c, d, e, f, g, h]).map (·, rest)
  | letter :: rest => (escaped? letter).map (·, rest)
  | [] => none

/-! ### Strings on one line -/

/-- A character between double quotes. -/
def basicChar : Scanner Char
  | '\\' :: rest => escape rest
  | c :: rest => if c = '"' ∨ isControl c then none else some (c, rest)
  | [] => none

/-- A character between single quotes. Nothing is escaped there. -/
def literalChar : Scanner Char
  | c :: rest => if c = '\'' ∨ isControl c then none else some (c, rest)
  | [] => none

/-- The inside of a string in double quotes, and the closing quote. -/
def basicString : Scanner (List Char) := fun text => do
  let (cs, rest) := Scanner.many basicChar text
  let (_, rest) ← Scanner.expect '"' rest
  return (cs, rest)

/-- The inside of a string in single quotes, and the closing quote. -/
def literalString : Scanner (List Char) := fun text => do
  let (cs, rest) := Scanner.many literalChar text
  let (_, rest) ← Scanner.expect '\'' rest
  return (cs, rest)

/-! ### Blocks -/

/-- Three quotes stand here. -/
def startsClosing (quote : Char) (text : List Char) : Bool := text.take 3 == [quote, quote, quote]

/-- The end of a block. Up to two quotes in front of the closing three belong to the text. -/
def closing (quote : Char) : Scanner (List Char) := fun text =>
  let quotes := (text.take 5).takeWhile (· == quote)
  if quotes.length < 3 then none else some (quotes.drop 3, text.drop quotes.length)

/-- A piece of a block in single quotes: a line end, or a character. -/
def literalPiece : Scanner (List Char) := fun text =>
  match lineEnd text with
  | some (_, rest) => some (['\n'], rest)
  | none =>
    match text with
    | c :: rest => if startsClosing '\'' text ∨ isControl c then none else some ([c], rest)
    | [] => none

/-- A line end behind a backslash: it counts for nothing, nor do blanks and line ends up to the next
    character. -/
def continuation : Scanner Unit := fun text => do
  let (_, rest) ← lineEnd (skipBlanks text)
  return ((), skipBlanks (Scanner.many (fun text => lineEnd (skipBlanks text)) rest).2)

/-- A piece of a block in double quotes: a line end, an escape, or a character. -/
def basicPiece : Scanner (List Char) := fun text =>
  match lineEnd text with
  | some (_, rest) => some (['\n'], rest)
  | none =>
    match text with
    | '\\' :: rest =>
      match continuation rest with
      | some (_, rest) => some ([], rest)
      | none => (escape rest).map fun (c, rest) => ([c], rest)
    | c :: rest => if startsClosing '"' text ∨ isControl c then none else some ([c], rest)
    | [] => none

/-- The inside of a block, and its closing quotes. A line end right behind the opening quotes does not
    count. -/
def block (quote : Char) (piece : Scanner (List Char)) : Scanner (List Char) := fun text => do
  let (_, text) ← Scanner.optional lineEnd text
  let (pieces, rest) := Scanner.many piece text
  let (quotes, rest) ← closing quote rest
  return (pieces.flatten ++ quotes, rest)

/-- The inside of a block in double quotes. -/
def basicBlock : Scanner (List Char) := block '"' basicPiece

/-- The inside of a block in single quotes. -/
def literalBlock : Scanner (List Char) := block '\'' literalPiece

/-! ### Any string -/

/-- A string of one of the four forms. -/
def quoted : Scanner (List Char)
  | '"' :: '"' :: '"' :: rest => basicBlock rest
  | '\'' :: '\'' :: '\'' :: rest => literalBlock rest
  | '"' :: rest => basicString rest
  | '\'' :: rest => literalString rest
  | _ => none

end Toml
end Conform
