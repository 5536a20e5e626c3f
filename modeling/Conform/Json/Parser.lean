/-
Module: Conform.Json.Parser
Purpose: JSON text to JSON values. A value is refused when a numeral is out of range, when half a
  surrogate pair stands alone, or when more than 127 arrays and objects are nested. A repeated key
  keeps its first place and takes its last value.
Main exports: Json.collectMembers, JsonSource.value?, Json.parse?, Json.proper_of_parse?
-/
import Conform.Entries
import Conform.Json.Basic
import Conform.Json.Source

namespace Conform

namespace Json

/-- The members of an object that was written with these pairs. -/
def collectMembers (pairs : List (String × Json)) : List (String × Json) :=
  pairs.foldl (fun members pair => Entries.set pair.1 pair.2 members) []

/-- The greatest number of arrays and objects that may be nested in each other. -/
def maxDepth : Nat := 127

end Json

namespace JsonSource

mutual

/-- The value of a tree that may nest so many levels. -/
def toJson? (levels : Nat) : JsonSource → Option Json
  | .null => some .null
  | .bool b => some (.bool b)
  | .number n => n.value?.map .number
  | .string units => (TextUnit.string? units).map .string
  | .array items =>
    match levels with
    | 0 => none
    | levels + 1 => (toItems? levels items).map .array
  | .object members =>
    match levels with
    | 0 => none
    | levels + 1 => (toMembers? levels members).map fun pairs => .object (Json.collectMembers pairs)

def toItems? (levels : Nat) : List JsonSource → Option (List Json)
  | [] => some []
  | item :: rest =>
    match item.toJson? levels, toItems? levels rest with
    | some value, some values => some (value :: values)
    | _, _ => none

def toMembers? (levels : Nat) : List (List TextUnit × JsonSource) → Option (List (String × Json))
  | [] => some []
  | (key, item) :: rest =>
    match TextUnit.string? key, item.toJson? levels, toMembers? levels rest with
    | some key, some value, some pairs => some ((key, value) :: pairs)
    | _, _, _ => none

end

/-- The value that the tree stands for. -/
def value? (source : JsonSource) : Option Json := source.toJson? Json.maxDepth

end JsonSource

/-! ### Values read from a text -/

/-- Putting a proper value under a key keeps the members proper. -/
theorem Json.properMembers_set {key : String} {value : Json} (hv : value.Proper) :
    ∀ {members : List (String × Json)}, ProperMembers members →
      ProperMembers (Entries.set key value members)
  | [], _ => ⟨hv, trivial⟩
  | (k, v) :: rest, h => by
    by_cases hk : k = key
    · simp only [Entries.set, hk, if_true]
      exact ⟨hv, h.2⟩
    · simp only [Entries.set, hk, if_false]
      exact ⟨h.1, properMembers_set hv h.2⟩

/-- Collected members have distinct keys and are proper if the pairs are. -/
theorem Json.proper_collectMembers {pairs : List (String × Json)} (h : ProperMembers pairs) :
    (Json.object (collectMembers pairs)).Proper := by
  have step : ∀ (pairs members : List (String × Json)), ProperMembers pairs →
      (Json.object members).Proper →
      (Json.object (pairs.foldl (fun ms pair => Entries.set pair.1 pair.2 ms) members)).Proper := by
    intro pairs
    induction pairs with
    | nil => intro members _ hm; exact hm
    | cons pair rest ih =>
      intro members hp hm
      refine ih _ hp.2 ?_
      exact ⟨Entries.nodup_names_set _ _ hm.1, properMembers_set hp.1 hm.2⟩
  exact step pairs [] h ⟨by simp, trivial⟩

namespace JsonSource

mutual

/-- The value of a tree is proper. -/
theorem proper_of_toJson? : ∀ (source : JsonSource) {levels : Nat} {v : Json},
    source.toJson? levels = some v → v.Proper
  | .null, _, _, h => by cases h; trivial
  | .bool _, _, _, h => by cases h; trivial
  | .number n, _, _, h => by
    obtain ⟨_, _, rfl⟩ := Option.map_eq_some_iff.1 h
    trivial
  | .string units, _, _, h => by
    obtain ⟨_, _, rfl⟩ := Option.map_eq_some_iff.1 h
    trivial
  | .array _, 0, _, h => by cases h
  | .array items, levels + 1, _, h => by
    obtain ⟨_, hs, rfl⟩ := Option.map_eq_some_iff.1 h
    exact properItems_of_toItems? items hs
  | .object _, 0, _, h => by cases h
  | .object members, levels + 1, _, h => by
    obtain ⟨_, hs, rfl⟩ := Option.map_eq_some_iff.1 h
    exact Json.proper_collectMembers (properMembers_of_toMembers? members hs)

theorem properItems_of_toItems? : ∀ (items : List JsonSource) {levels : Nat} {vs : List Json},
    toItems? levels items = some vs → Json.ProperItems vs
  | [], _, _, h => by cases h; trivial
  | item :: rest, levels, _, h => by
    simp only [toItems?] at h
    cases hi : item.toJson? levels with
    | none => simp [hi] at h
    | some v =>
      cases hr : toItems? levels rest with
      | none => simp [hi, hr] at h
      | some vs =>
        simp only [hi, hr, Option.some.injEq] at h
        subst h
        exact ⟨proper_of_toJson? item hi, properItems_of_toItems? rest hr⟩

theorem properMembers_of_toMembers? :
    ∀ (members : List (List TextUnit × JsonSource)) {levels : Nat} {pairs : List (String × Json)},
      toMembers? levels members = some pairs → Json.ProperMembers pairs
  | [], _, _, h => by cases h; trivial
  | (key, item) :: rest, levels, _, h => by
    simp only [toMembers?] at h
    cases hk : TextUnit.string? key with
    | none => simp [hk] at h
    | some k =>
      cases hi : item.toJson? levels with
      | none => simp [hk, hi] at h
      | some v =>
        cases hr : toMembers? levels rest with
        | none => simp [hk, hi, hr] at h
        | some vs =>
          simp only [hk, hi, hr, Option.some.injEq] at h
          subst h
          exact ⟨proper_of_toJson? item hi, properMembers_of_toMembers? rest hr⟩

end

end JsonSource

/-- The value that a text spells. -/
def Json.parse? (text : String) : Option Json := (JsonSource.ofText? text).bind JsonSource.value?

/-- A value read from a text is proper. -/
theorem Json.proper_of_parse? {text : String} {v : Json} (h : Json.parse? text = some v) :
    v.Proper := by
  obtain ⟨source, _, hs⟩ := Option.bind_eq_some_iff.1 h
  exact JsonSource.proper_of_toJson? source hs

end Conform
