/-
Module: Conform.Proofs.Schema.Resolution
Purpose: What a single reference is resolved to. Local references and paths of keys stand for each other
  one to one, empty keys included, since no key on a path has a slash in it. The keys are looked up as
  they are written, one after the other from the root; they lead to a value, or the first of them that is
  not there is named.
Main exports: LocalPath, LocalPath.reference, existsUnique_localPath, Json.LeadsTo, Json.Lacks,
  Json.FirstMissing, descend_eq_ok_iff, descend_eq_error_iff, dereference_classifies
-/
import Conform.Schema.Reference
import Mathlib.Data.List.Basic

namespace Conform

/-! ### Paths of keys -/

/-- A path of keys as a reference can name it: at least one key, and no slash in any of them. -/
@[ext] structure LocalPath where
  keys : List String
  notEmpty : keys ≠ []
  noSlash : ∀ key ∈ keys, '/' ∉ key.toList

namespace LocalPath

/-- The reference that names the keys. -/
def reference (path : LocalPath) : String := "#/" ++ "/".intercalate path.keys

end LocalPath

/-- No part of a text that is split at its slashes has a slash in it. -/
theorem slash_notMem_of_mem_splitOn {text part : List Char} (h : part ∈ text.splitOn '/') :
    '/' ∉ part := by
  induction text generalizing part with
  | nil =>
    rw [List.splitOn_nil, List.mem_singleton] at h
    subst h
    exact List.not_mem_nil
  | cons c rest ih =>
    rw [List.splitOn_cons_eq_if_modifyHead] at h
    split at h
    · rcases List.mem_cons.1 h with rfl | hrest
      · exact List.not_mem_nil
      · exact ih hrest
    · rename_i hc
      obtain ⟨first, others, hsplit⟩ := List.exists_cons_of_ne_nil (List.splitOn_ne_nil '/' rest)
      rw [hsplit, List.modifyHead_cons, List.mem_cons] at h
      rw [hsplit] at ih
      rcases h with rfl | hother
      · rw [List.mem_cons, not_or]
        exact ⟨fun heq => hc (beq_iff_eq.2 heq.symm), ih List.mem_cons_self⟩
      · exact ih (List.mem_cons_of_mem _ hother)

/-- The keys that a local reference names are those that it is written with. -/
@[simp] theorem keysOf?_reference (path : LocalPath) : keysOf? path.reference = some path.keys := by
  have hslash : ∀ key ∈ path.keys.map String.toList, '/' ∉ key := by
    intro key hkey
    obtain ⟨key, hmem, rfl⟩ := List.mem_map.1 hkey
    exact path.noSlash key hmem
  have htext : path.reference.toList = '#' :: '/' :: ['/'].intercalate (path.keys.map String.toList) := by
    rw [LocalPath.reference, String.toList_append, String.toList_intercalate]
    rfl
  have hsplit : (['/'].intercalate (path.keys.map String.toList)).splitOn '/' =
      path.keys.map String.toList :=
    List.splitOn_intercalate '/' hslash (by simpa using path.notEmpty)
  rw [keysOf?, htext]
  simp [hsplit, Function.comp_def]

/-- What stands behind a number sign and a slash is a path of keys. -/
theorem exists_localPath (rest : String) : ∃ path : LocalPath, path.reference = "#/" ++ rest := by
  refine ⟨⟨(rest.toList.splitOn '/').map String.ofList, ?_, ?_⟩, ?_⟩
  · simp [List.splitOn_ne_nil]
  · intro key hkey
    obtain ⟨part, hpart, rfl⟩ := List.mem_map.1 hkey
    rw [String.toList_ofList]
    exact slash_notMem_of_mem_splitOn hpart
  · have hjoin : "/".intercalate ((rest.toList.splitOn '/').map String.ofList) = rest := by
      apply String.toList_inj.1
      rw [String.toList_intercalate, List.map_map]
      have hid : String.toList ∘ String.ofList = id := funext fun _ => String.toList_ofList
      rw [hid, List.map_id]
      exact List.intercalate_splitOn '/'
    rw [LocalPath.reference, hjoin]

/-- Different paths are written as different references. -/
theorem LocalPath.eq_of_reference_eq {path path' : LocalPath} (h : path.reference = path'.reference) :
    path = path' := by
  have hkeys := keysOf?_reference path
  rw [h, keysOf?_reference] at hkeys
  exact LocalPath.ext (Option.some.inj hkeys).symm

/-- A reference that begins with a number sign and a slash names exactly one path of keys. -/
theorem existsUnique_localPath (rest : String) : ∃! path : LocalPath, path.reference = "#/" ++ rest := by
  obtain ⟨path, hpath⟩ := exists_localPath rest
  exact ⟨path, hpath, fun _ hother => LocalPath.eq_of_reference_eq (hother.trans hpath.symm)⟩

/-- Any other text names no keys. -/
theorem keysOf?_eq_none_iff {reference : String} :
    keysOf? reference = none ↔ ∀ rest, reference ≠ "#/" ++ rest := by
  constructor
  · rintro h rest rfl
    obtain ⟨path, hpath⟩ := exists_localPath rest
    rw [← hpath, keysOf?_reference] at h
    cases h
  · intro h
    rw [keysOf?]
    split
    · rename_i rest htext
      refine absurd ?_ (h (String.ofList rest))
      apply String.toList_inj.1
      rw [htext, String.toList_append, String.toList_ofList]
      simp
    · rfl

/-! ### Looking up keys -/

namespace Json

/-- Keys lead from a value to another, each of them a key of the object that those before it lead to. -/
inductive LeadsTo : Json → List String → Json → Prop where
  | here (value : Json) : LeadsTo value [] value
  | member {members : List (String × Json)} {key : String} {rest : List String} {inner target : Json}
      (found : members.lookup key = some inner) (leads : LeadsTo inner rest target) :
      LeadsTo (.object members) (key :: rest) target

/-- There is nothing under a key: the value is no object, or an object without the key. -/
inductive Lacks : Json → String → Prop where
  | noObject {value : Json} (noObject : value.isObject = false) (key : String) : Lacks value key
  | absent {members : List (String × Json)} {key : String} (absent : key ∉ members.map Prod.fst) :
      Lacks (.object members) key

/-- The first of the keys that is not there, in the value that those before it lead to. -/
def FirstMissing (value : Json) (keys : List String) (key : String) : Prop :=
  ∃ before after reached, keys = before ++ key :: after ∧ value.LeadsTo before reached ∧ reached.Lacks key

variable {value target : Json} {key : String} {keys : List String}

theorem get?_eq_none_iff_lacks : value.get? key = none ↔ value.Lacks key := by
  cases value with
  | object members =>
    rw [get?, List.lookup_eq_none_iff]
    constructor
    · intro h
      refine .absent fun hmem => ?_
      obtain ⟨member, hmember, rfl⟩ := List.mem_map.1 hmem
      simpa using h member hmember
    · rintro (⟨hobject, -⟩ | habsent) member hmember
      · cases hobject
      · refine bne_iff_ne.2 ?_
        rintro rfl
        exact habsent (List.mem_map_of_mem hmember)
  | _ => exact iff_of_true rfl (.noObject rfl key)

/-- Behind the first key, keys lead on from the value under it. -/
theorem leadsTo_cons_iff : value.LeadsTo (key :: keys) target ↔ ∃ inner, value.get? key = some inner ∧
    inner.LeadsTo keys target := by
  constructor
  · rintro (_ | ⟨found, leads⟩)
    exact ⟨_, found, leads⟩
  · rintro ⟨inner, hfound, hleads⟩
    cases value with
    | object members => exact .member hfound hleads
    | _ => cases hfound

/-- The first key is missing, or one behind it, in the value under the first. -/
theorem firstMissing_cons_iff {next : String} : value.FirstMissing (next :: keys) key ↔
    (value.get? next = none ∧ next = key) ∨
      ∃ inner, value.get? next = some inner ∧ inner.FirstMissing keys key := by
  constructor
  · rintro ⟨before, after, reached, hkeys, hleads, hlacks⟩
    cases before with
    | nil =>
      obtain ⟨rfl, -⟩ := List.cons.inj hkeys
      cases hleads
      exact .inl ⟨get?_eq_none_iff_lacks.2 hlacks, rfl⟩
    | cons first before =>
      obtain ⟨rfl, rfl⟩ := List.cons.inj hkeys
      obtain ⟨inner, hfound, hrest⟩ := leadsTo_cons_iff.1 hleads
      exact .inr ⟨inner, hfound, before, after, reached, rfl, hrest, hlacks⟩
  · rintro (⟨hmissing, rfl⟩ | ⟨inner, hfound, before, after, reached, rfl, hleads, hlacks⟩)
    · exact ⟨[], keys, value, rfl, .here value, get?_eq_none_iff_lacks.1 hmissing⟩
    · exact ⟨next :: before, after, reached, rfl, leadsTo_cons_iff.2 ⟨inner, hfound, hleads⟩, hlacks⟩

end Json

open Json

section Descent

variable {value target : Json} {key : String} {keys : List String}

/-- Looking up keys gives the value that they lead to. -/
theorem descend_eq_ok_iff : descend value keys = .ok target ↔ value.LeadsTo keys target := by
  induction keys generalizing value with
  | nil =>
    rw [descend]
    constructor
    · intro h
      cases h
      exact .here _
    · intro h
      cases h
      rfl
  | cons next rest ih =>
    rw [leadsTo_cons_iff, descend]
    cases hget : value.get? next with
    | none => simp
    | some inner => simp [ih]

/-- Looking up keys fails with the first of them that is not there. -/
theorem descend_eq_error_iff : descend value keys = .error key ↔ value.FirstMissing keys key := by
  induction keys generalizing value with
  | nil =>
    refine iff_of_false (fun h => nomatch h) ?_
    rintro ⟨before, after, -, hkeys, -, -⟩
    simp at hkeys
  | cons next rest ih =>
    rw [firstMissing_cons_iff, descend]
    cases hget : value.get? next with
    | none => simp
    | some inner => simp [ih]

/-- A key is missing exactly where the keys lead nowhere. -/
theorem exists_firstMissing_iff :
    (∃ key, value.FirstMissing keys key) ↔ ¬ ∃ target, value.LeadsTo keys target := by
  simp only [← descend_eq_error_iff, ← descend_eq_ok_iff]
  cases descend value keys <;> simp

end Descent

/-! ### References -/

section References

variable {root target : Json} {reference key : String}

/-- A reference is resolved by looking up its keys. -/
theorem dereference_reference (root : Json) (path : LocalPath) :
    dereference root path.reference =
      match descend root path.keys with
      | .error key => .error (.missingKey path.reference key)
      | .ok target => if target.isObject then .ok target else .error (.notAnObject path.reference) := by
  cases hdescend : descend root path.keys <;> simp only [dereference, keysOf?_reference, hdescend]

/-- Whatever else is wrong with a reference, it is called not local only if it does not begin as local
    ones do. -/
theorem dereference_eq_notLocal_iff :
    dereference root reference = .error (.notLocal reference) ↔ ∀ rest, reference ≠ "#/" ++ rest := by
  rw [← keysOf?_eq_none_iff, dereference]
  cases keysOf? reference with
  | none => simp
  | some keys =>
    refine iff_of_false ?_ (by simp)
    dsimp only
    cases descend root keys with
    | error key => simp
    | ok target =>
      dsimp only
      split <;> simp

variable {path : LocalPath}

/-- A reference is resolved to the object that its keys lead to. -/
theorem dereference_eq_ok_iff :
    dereference root path.reference = .ok target ↔
      root.LeadsTo path.keys target ∧ target.isObject = true := by
  rw [dereference_reference, ← descend_eq_ok_iff]
  cases descend root path.keys with
  | error key => simp
  | ok found =>
    dsimp only
    split <;> grind

/-- A reference is broken at the first of its keys that is not there. -/
theorem dereference_eq_missingKey_iff :
    dereference root path.reference = .error (.missingKey path.reference key) ↔
      root.FirstMissing path.keys key := by
  rw [dereference_reference, ← descend_eq_error_iff]
  cases descend root path.keys with
  | error first => simp
  | ok found =>
    dsimp only
    split <;> simp

/-- A reference whose keys are all there may still lead to a value that is no object. -/
theorem dereference_eq_notAnObject_iff :
    dereference root path.reference = .error (.notAnObject path.reference) ↔
      ∃ found, root.LeadsTo path.keys found ∧ found.isObject = false := by
  rw [dereference_reference]
  simp only [← descend_eq_ok_iff]
  cases descend root path.keys with
  | error key => simp
  | ok found =>
    dsimp only
    split <;> grind

/-- Each text is resolved in one of four ways. One that begins with a number sign and a slash names
    exactly one path of keys. A path is resolved to the object that its keys lead to; it is broken, at the
    first key that is not there, exactly if they lead nowhere; and what they lead to may be no object. Any
    other text is no local reference. Keys are looked up in objects only and as they are written, so
    nothing is found in an array, a single key is one of the root, the empty one included, and no sequence
    of characters in it stands for others. -/
theorem dereference_classifies (root : Json) :
    (∀ rest, ∃! path : LocalPath, path.reference = "#/" ++ rest) ∧
    (∀ path : LocalPath,
      (∀ target, dereference root path.reference = .ok target ↔
        root.LeadsTo path.keys target ∧ target.isObject = true) ∧
      (∀ key, dereference root path.reference = .error (.missingKey path.reference key) ↔
        root.FirstMissing path.keys key) ∧
      ((∃ key, dereference root path.reference = .error (.missingKey path.reference key)) ↔
        ¬ ∃ found, root.LeadsTo path.keys found) ∧
      (dereference root path.reference = .error (.notAnObject path.reference) ↔
        ∃ found, root.LeadsTo path.keys found ∧ found.isObject = false) ∧
      ∀ before key after items, path.keys = before ++ key :: after → root.LeadsTo before (.array items) →
        dereference root path.reference = .error (.missingKey path.reference key)) ∧
    (∀ reference, dereference root reference = .error (.notLocal reference) ↔
      ∀ rest, reference ≠ "#/" ++ rest) ∧
    ∀ key, '/' ∉ key.toList → ∀ target, dereference root ("#/" ++ key) = .ok target ↔
      ∃ members, root = .object members ∧ members.lookup key = some target ∧ target.isObject = true := by
  refine ⟨existsUnique_localPath,
    fun path => ⟨fun _ => dereference_eq_ok_iff, fun _ => dereference_eq_missingKey_iff, ?missing,
      dereference_eq_notAnObject_iff, ?array⟩,
    fun _ => dereference_eq_notLocal_iff, ?single⟩
  case missing =>
    simp only [dereference_eq_missingKey_iff]
    exact exists_firstMissing_iff
  case array =>
    intro before key after items hkeys hleads
    rw [dereference_eq_missingKey_iff]
    exact ⟨before, after, .array items, hkeys, hleads, .noObject rfl key⟩
  case single =>
    intro key hslash target
    let path : LocalPath := ⟨[key], List.cons_ne_nil key [], by simpa using hslash⟩
    have hreference : path.reference = "#/" ++ key := by
      rw [LocalPath.reference, String.intercalate_singleton]
    rw [← hreference, dereference_eq_ok_iff, leadsTo_cons_iff]
    constructor
    · rintro ⟨⟨inner, hfound, hleads⟩, hobject⟩
      cases hleads
      cases root with
      | object members => exact ⟨members, rfl, hfound, hobject⟩
      | _ => cases hfound
    · rintro ⟨members, rfl, hfound, hobject⟩
      exact ⟨⟨target, hfound, .here target⟩, hobject⟩

/-- An empty key, one that another notation would read as `a/b`, an element of a list, and a member that
    is no object. -/
theorem dereference_classifies_literally :
    let top : Json := .object [("a~1b", .object []), ("list", .array [.object []])]
    let root : Json := .object [("", top), ("a/b", .object []), ("%20", .bool true)]
    '/' ∉ "".toList ∧ root.LeadsTo ["", "list"] (.array [.object []]) ∧
      dereference root "#/" = .ok top ∧ dereference root "#//a~1b" = .ok (.object []) ∧
      dereference root "#//list/0" = .error (.missingKey "#//list/0" "0") ∧
      dereference root "#/a~1b" = .error (.missingKey "#/a~1b" "a~1b") ∧
      dereference root "#/%20" = .error (.notAnObject "#/%20") ∧
      dereference root "%20" = .error (.notLocal "%20") := by
  intro top root
  obtain ⟨-, hpaths, hother, hsingle⟩ := dereference_classifies root
  have hlist : root.LeadsTo ["", "list"] (.array [.object []]) := .member rfl (.member rfl (.here _))
  refine ⟨by decide, hlist, (hsingle "" (by decide) top).2 ⟨_, rfl, rfl, rfl⟩, ?_, ?_, ?_, ?_, ?_⟩
  · exact ((hpaths ⟨["", "a~1b"], by decide, by decide⟩).1 _).2 ⟨.member rfl (.member rfl (.here _)), rfl⟩
  · exact (hpaths ⟨["", "list", "0"], by decide, by decide⟩).2.2.2.2 ["", "list"] "0" [] _ rfl hlist
  · exact ((hpaths ⟨["a~1b"], by decide, by decide⟩).2.1 _).2
      ⟨[], [], root, rfl, .here _, .absent (by decide)⟩
  · exact (hpaths ⟨["%20"], by decide, by decide⟩).2.2.2.1.2 ⟨_, .member rfl (.here _), rfl⟩
  · exact (hother "%20").2 fun rest h => by simpa using congrArg String.toList h

end References

end Conform
