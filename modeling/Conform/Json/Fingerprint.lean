/-
Module: Conform.Json.Fingerprint
Purpose: Digests of canonical texts, and the later duplicates of a list of values by digest.
Main exports: Json.fingerprint, Json.laterDuplicates
-/
import Conform.Hash.Sha256
import Conform.Json.Canonical

namespace Conform
namespace Json

/-- The digest of the canonical text. -/
def fingerprint (v : Json) : Sha256.State := Sha256.digest v.canonicalText.toUTF8.toList

/-- The positions, counted from `index`, of the digests that occurred before: among `seen` or earlier in
    the list. -/
def repeatedAt (index : Nat) (seen : List Sha256.State) : List Sha256.State → List Nat
  | [] => []
  | f :: rest =>
    if f ∈ seen then index :: repeatedAt (index + 1) seen rest
    else repeatedAt (index + 1) (f :: seen) rest

/-- The positions of the elements that repeat an earlier one. -/
def laterDuplicates (items : List Json) : List Nat := repeatedAt 0 [] (items.map fingerprint)

end Json
end Conform
