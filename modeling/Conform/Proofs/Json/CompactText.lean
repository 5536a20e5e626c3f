/-
Module: Conform.Proofs.Json.CompactText
Purpose: The compact text of a value is read back as the value. It spells the tokens of the value's tree
  like the indented text, with no blanks in between.
Main exports: Json.spells_chars, Json.ofText?_compact, Json.parse?_compact
-/
import Conform.Proofs.Json.Reading

namespace Conform
namespace Json

open Token JsonSource

section Printed

variable {tokens : List Token} {text : List Char}

/-- No word goes on behind an element: a comma or the bracket follows. -/
theorem ends_itemsTail (items : List Json) (text : List Char) : Ends (itemsTail items ++ text) := by
  cases items with
  | nil => exact ends_cons (by decide)
  | cons item rest => exact ends_cons (by decide)

/-- No word goes on behind a member: a comma or the brace follows. -/
theorem ends_membersTail (members : List (String × Json)) (text : List Char) :
    Ends (membersTail members ++ text) := by
  cases members with
  | nil => exact ends_cons (by decide)
  | cons member rest => exact ends_cons (by decide)

/-- A key with its colon. -/
theorem spells_key_colon (key : String) (h : Spells tokens text) :
    Spells (.string (TextUnit.ofString key) :: .colon :: tokens) (quoted key ++ ':' :: text) :=
  .quoted key (.punctuation rfl h)

mutual

/-- The compact text of a value spells its tokens, in front of a text where a word ends. -/
theorem spells_chars : ∀ (v : Json) {tokens : List Token} {text : List Char}, v.ReadsBack → Ends text →
    Spells tokens text → Spells (v.source.tokens ++ tokens) (v.chars ++ text)
  | .null, _, _, _, hends, h =>
    @Spells.word ['n', 'u', 'l', 'l'] _ _ _ (List.all_eq_true.1 (by decide)) rfl hends h
  | .bool true, _, _, _, hends, h =>
    @Spells.word ['t', 'r', 'u', 'e'] _ _ _ (List.all_eq_true.1 (by decide)) rfl hends h
  | .bool false, _, _, _, hends, h =>
    @Spells.word ['f', 'a', 'l', 's', 'e'] _ _ _ (List.all_eq_true.1 (by decide)) rfl hends h
  | .number n, _, _, hnumber, hends, h =>
    .word (fun c hc => isWordChar_of_isNumeric (n.isNumeric_of_mem_text c hc)) hnumber.ofWord?_text
      hends h
  | .string s, _, _, _, _, h => .quoted s h
  | .array [], _, _, _, _, h => .punctuation rfl (.punctuation rfl h)
  | .array (item :: items), _, text, hreads, _, h => by
    simp only [source, sourceItems, JsonSource.tokens, chars, List.cons_append, List.append_assoc]
    apply Spells.punctuation rfl
    apply spells_chars item hreads.1 (ends_itemsTail items text)
    exact spells_itemsTail items hreads.2 h
  | .object [], _, _, _, _, h => .punctuation rfl (.punctuation rfl h)
  | .object ((key, value) :: members), _, text, hreads, _, h => by
    simp only [source, sourceMembers, JsonSource.tokens, chars, List.cons_append, List.append_assoc]
    apply Spells.punctuation rfl
    apply spells_key_colon
    apply spells_chars value hreads.1 (ends_membersTail members text)
    exact spells_membersTail members hreads.2 h

theorem spells_itemsTail : ∀ (items : List Json) {tokens : List Token} {text : List Char},
    ReadsBackItems items → Spells tokens text →
    Spells (itemsTokens (sourceItems items) ++ tokens) (itemsTail items ++ text)
  | [], _, _, _, h => .punctuation rfl h
  | item :: items, _, text, hreads, h => by
    simp only [sourceItems, itemsTokens, itemsTail, List.cons_append, List.append_assoc]
    apply Spells.punctuation rfl
    apply spells_chars item hreads.1 (ends_itemsTail items text)
    exact spells_itemsTail items hreads.2 h

theorem spells_membersTail : ∀ (members : List (String × Json)) {tokens : List Token} {text : List Char},
    ReadsBackMembers members → Spells tokens text →
    Spells (membersTokens (sourceMembers members) ++ tokens) (membersTail members ++ text)
  | [], _, _, _, h => .punctuation rfl h
  | (key, value) :: members, _, text, hreads, h => by
    simp only [sourceMembers, membersTokens, membersTail, List.cons_append, List.append_assoc]
    apply Spells.punctuation rfl
    apply spells_key_colon
    apply spells_chars value hreads.1 (ends_membersTail members text)
    exact spells_membersTail members hreads.2 h

end

end Printed

/-- The compact text of a value spells the tree of the value. -/
theorem ofText?_compact {v : Json} (hreads : v.ReadsBack) : ofText? v.compact = some v.source := by
  have hends : Ends [] := fun _ _ heq => nomatch heq
  have hlex := lex_of_spells (spells_chars v hreads hends .done)
  rw [List.append_nil, List.append_nil] at hlex
  rw [ofText?, compact, String.toList_ofList, hlex, Option.bind_some, ofTokens?_tokens]

/-- A value is read back from its compact text. -/
theorem parse?_compact {v : Json} (hproper : v.Proper) (hreads : v.ReadsBack)
    (hdepth : v.depth ≤ maxDepth) :
    Json.parse? v.compact = some v := by
  rw [parse?, ofText?_compact hreads, Option.bind_some]
  exact toJson?_source v hproper hreads hdepth

end Json
end Conform
