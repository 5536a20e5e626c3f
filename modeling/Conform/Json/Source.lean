/-
Module: Conform.Json.Source
Purpose: JSON text as a tree that keeps what was written: repeated keys, escapes and numerals. The
  grammar alone decides whether a text has a tree.
Main exports: JsonSource, JsonSource.ofTokens?, JsonSource.ofText?
-/
import Conform.Json.Token

namespace Conform

/-- A JSON value as written. -/
inductive JsonSource where
  | null
  | bool (b : Bool)
  | number (n : Numeral)
  | string (units : List TextUnit)
  | array (items : List JsonSource)
  | object (members : List (List TextUnit × JsonSource))
deriving Inhabited

namespace JsonSource

/-- An array or an object that is still open, with what it holds so far, the latest first. In an object
    the next value belongs to a key that was read already. -/
inductive Frame where
  | array (done : List JsonSource)
  | object (done : List (List TextUnit × JsonSource)) (key : List TextUnit)

mutual

/-- Read a value inside the open frames, then go on after it. -/
def read (stack : List Frame) : List Token → Option JsonSource
  | .null :: rest => resume stack .null rest
  | .bool b :: rest => resume stack (.bool b) rest
  | .number n :: rest => resume stack (.number n) rest
  | .string units :: rest => resume stack (.string units) rest
  | .openArray :: .closeArray :: rest => resume stack (.array []) rest
  | .openArray :: rest => read (.array [] :: stack) rest
  | .openObject :: .closeObject :: rest => resume stack (.object []) rest
  | .openObject :: .string key :: .colon :: rest => read (.object [] key :: stack) rest
  | _ => none

/-- Go on after a complete value: add it to the innermost open frame, or end with it when there is
    none. -/
def resume (stack : List Frame) (value : JsonSource) : List Token → Option JsonSource
  | [] =>
    match stack with
    | [] => some value
    | _ :: _ => none
  | .comma :: .string key :: .colon :: rest =>
    match stack with
    | .object done k :: stack => read (.object ((k, value) :: done) key :: stack) rest
    | _ => none
  | .comma :: rest =>
    match stack with
    | .array done :: stack => read (.array (value :: done) :: stack) rest
    | _ => none
  | .closeArray :: rest =>
    match stack with
    | .array done :: stack => resume stack (.array (done.reverse ++ [value])) rest
    | _ => none
  | .closeObject :: rest =>
    match stack with
    | .object done k :: stack => resume stack (.object (done.reverse ++ [(k, value)])) rest
    | _ => none
  | _ => none

end

/-- The value that the tokens spell, if they spell exactly one. -/
def ofTokens? (tokens : List Token) : Option JsonSource := read [] tokens

/-- The value that a text spells, if it spells exactly one. -/
def ofText? (text : String) : Option JsonSource := (Token.lex text.toList).bind ofTokens?

end JsonSource

end Conform
