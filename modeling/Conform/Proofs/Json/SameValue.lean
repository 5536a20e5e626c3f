/-
Module: Conform.Proofs.Json.SameValue
Purpose: Equality of values in which the order of members does not count and numbers are compared as they
  are written, and the proof that canonical texts decide it. A canonical text belongs to one normal form,
  and a normal form forgets the order of members and nothing else as long as keys are distinct.
Main exports: Json.SameValue, Json.sortMembers_eq_of_perm, Json.canonicalText_eq_iff_sameValue
-/
import Conform.Proofs.Json.Normal
import Conform.Proofs.Json.Parts
import Mathlib.Data.List.Perm.Lattice
import Mathlib.Data.List.Nodup

namespace Conform
namespace Json

/-- Equality of values. Arrays are compared in order; objects have the same keys and equal values under
    each key, in any order; numbers are written alike once small integral doubles are whole numbers. -/
inductive SameValue : Json → Json → Prop where
  | null : SameValue .null .null
  | bool (b : Bool) : SameValue (.bool b) (.bool b)
  | number {m n : Number} (text : m.reduced.text = n.reduced.text) :
      SameValue (.number m) (.number n)
  | string (s : String) : SameValue (.string s) (.string s)
  | array {xs ys : List Json} (length : xs.length = ys.length)
      (elements : ∀ (i : Nat) (hx : i < xs.length) (hy : i < ys.length), SameValue xs[i] ys[i]) :
      SameValue (.array xs) (.array ys)
  | object {xs ys : List (String × Json)}
      (keys : ∀ key, key ∈ xs.map Prod.fst ↔ key ∈ ys.map Prod.fst)
      (values : ∀ key x y, (key, x) ∈ xs → (key, y) ∈ ys → SameValue x y) :
      SameValue (.object xs) (.object ys)

/-! ### Members as sets -/

/-- Under distinct keys there is one member for each key. -/
theorem eq_of_mem_of_nodup {members : List (String × Json)} (h : (members.map Prod.fst).Nodup)
    {key : String} {x y : Json} (hx : (key, x) ∈ members) (hy : (key, y) ∈ members) : x = y :=
  congrArg Prod.snd (List.inj_on_of_nodup_map h hx hy rfl)

theorem keys_normalizeMembers (members : List (String × Json)) :
    (normalizeMembers members).map Prod.fst = members.map Prod.fst := by
  rw [normalizeMembers_eq_map, List.map_map]
  rfl

theorem mem_normalizeMembers {members : List (String × Json)} {key : String} {v : Json} :
    (key, v) ∈ normalizeMembers members ↔ ∃ x, (key, x) ∈ members ∧ x.normalize = v := by
  rw [normalizeMembers_eq_map, List.mem_map]
  constructor
  · rintro ⟨⟨k, x⟩, hmem, heq⟩
    cases heq
    exact ⟨x, hmem, rfl⟩
  · rintro ⟨x, hmem, rfl⟩
    exact ⟨(key, x), hmem, rfl⟩

/-- With distinct keys there is one sorted order. -/
theorem sortMembers_eq_of_perm {xs ys : List (String × Json)} (hx : (xs.map Prod.fst).Nodup)
    (h : xs.Perm ys) : sortMembers xs = sortMembers ys := by
  have hperm : (sortMembers xs).Perm (sortMembers ys) :=
    (sortMembers_perm xs).trans (h.trans (sortMembers_perm ys).symm)
  refine hperm.eq_of_pairwise ?_ (sortMembers_pairwise xs) (sortMembers_pairwise ys)
  rintro ⟨k, x⟩ ⟨l, y⟩ hxmem hymem hkl hlk
  have hkey : k = l := String.le_antisymm hkl hlk
  subst hkey
  have hxm : (k, x) ∈ xs := (sortMembers_perm xs).subset hxmem
  have hym : (k, y) ∈ xs := h.symm.subset ((sortMembers_perm ys).subset hymem)
  rw [eq_of_mem_of_nodup hx hxm hym]

/-- Objects with distinct keys have one normal form if their normalized members are the same
    in any order. -/
theorem normalize_object_eq_of_perm {xs ys : List (String × Json)} (hx : (xs.map Prod.fst).Nodup)
    (h : (normalizeMembers xs).Perm (normalizeMembers ys)) :
    (Json.object xs).normalize = (Json.object ys).normalize := by
  rw [normalize, normalize, sortMembers_eq_of_perm ?_ h]
  rw [keys_normalizeMembers]
  exact hx

/-- Members that are sorted alike are the same up to their order. -/
theorem perm_of_sortMembers_eq {xs ys : List (String × Json)} (h : sortMembers xs = sortMembers ys) :
    xs.Perm ys :=
  (sortMembers_perm xs).symm.trans (h ▸ sortMembers_perm ys)

/-! ### Equal values have one normal form -/

/-- Members with the same keys and the same normal forms under each key are the same as a set. -/
theorem normalizeMembers_perm {xs ys : List (String × Json)} (hx : (xs.map Prod.fst).Nodup)
    (hy : (ys.map Prod.fst).Nodup) (keys : ∀ key, key ∈ xs.map Prod.fst ↔ key ∈ ys.map Prod.fst)
    (values : ∀ key x y, (key, x) ∈ xs → (key, y) ∈ ys → x.normalize = y.normalize) :
    (normalizeMembers xs).Perm (normalizeMembers ys) := by
  have hxn : (normalizeMembers xs).Nodup := by
    apply List.Nodup.of_map Prod.fst
    rwa [keys_normalizeMembers]
  have hyn : (normalizeMembers ys).Nodup := by
    apply List.Nodup.of_map Prod.fst
    rwa [keys_normalizeMembers]
  rw [List.perm_ext_iff_of_nodup hxn hyn]
  rintro ⟨key, v⟩
  rw [mem_normalizeMembers, mem_normalizeMembers]
  constructor
  · rintro ⟨x, hxm, rfl⟩
    obtain ⟨⟨k, y⟩, hym, rfl⟩ := List.mem_map.1 ((keys key).1 (List.mem_map.2 ⟨_, hxm, rfl⟩))
    exact ⟨y, hym, (values k x y hxm hym).symm⟩
  · rintro ⟨y, hym, rfl⟩
    obtain ⟨⟨k, x⟩, hxm, rfl⟩ := List.mem_map.1 ((keys key).2 (List.mem_map.2 ⟨_, hym, rfl⟩))
    exact ⟨x, hxm, values k x y hxm hym⟩

/-- Equal values have one normal form. -/
theorem SameValue.normalize_eq {a b : Json} (h : SameValue a b) :
    a.Proper → b.Proper → a.normalize = b.normalize := by
  induction h with
  | null => intro _ _; rfl
  | bool b => intro _ _; rfl
  | number text =>
    intro _ _
    exact congrArg Json.number (Number.text_injective text)
  | string s => intro _ _; rfl
  | array length elements ih =>
    intro hx hy
    rw [normalize, normalize, normalizeItems_eq_map, normalizeItems_eq_map]
    refine congrArg Json.array (List.ext_getElem (by simpa using length) fun i hi hj => ?_)
    rw [List.length_map] at hi hj
    rw [List.getElem_map, List.getElem_map]
    exact ih i hi hj (proper_of_mem_items hx (List.getElem_mem hi))
      (proper_of_mem_items hy (List.getElem_mem hj))
  | object keys values ih =>
    intro hx hy
    exact normalize_object_eq_of_perm hx.1 <| normalizeMembers_perm hx.1 hy.1 keys fun key x y hxm hym =>
      ih key x y hxm hym (proper_of_mem_members hx.2 hxm) (proper_of_mem_members hy.2 hym)

/-! ### Values with one normal form are equal -/

mutual

/-- Values with one normal form are equal. -/
theorem sameValue_of_normalize_eq : ∀ {a b : Json}, a.Proper → b.Proper →
    a.normalize = b.normalize → SameValue a b
  | .null, b, _, _, h => by
    cases b <;> simp [normalize] at h
    exact .null
  | .bool x, b, _, _, h => by
    cases b <;> simp [normalize] at h
    subst h
    exact .bool x
  | .number m, b, _, _, h => by
    cases b <;> simp [normalize] at h
    exact .number (congrArg Number.text h)
  | .string s, b, _, _, h => by
    cases b <;> simp [normalize] at h
    subst h
    exact .string s
  | .array xs, b, ha, hb, h => by
    cases b <;> simp [normalize] at h
    obtain ⟨hlength, helements⟩ := sameItems_of_normalize_eq ha hb h
    exact .array hlength helements
  | .object xs, b, ha, hb, h => by
    cases b <;> simp [normalize] at h
    rename_i ys
    have hperm : (normalizeMembers xs).Perm (normalizeMembers ys) := perm_of_sortMembers_eq h
    refine .object (fun key => ?_) (fun key x y hxm hym => ?_)
    · have hkeys := (hperm.map Prod.fst).mem_iff (a := key)
      rwa [keys_normalizeMembers, keys_normalizeMembers] at hkeys
    · have hxn : (key, x.normalize) ∈ normalizeMembers ys :=
        hperm.subset (mem_normalizeMembers.2 ⟨x, hxm, rfl⟩)
      have hyn : (key, y.normalize) ∈ normalizeMembers ys := mem_normalizeMembers.2 ⟨y, hym, rfl⟩
      have hdistinct : ((normalizeMembers ys).map Prod.fst).Nodup := by
        rw [keys_normalizeMembers]
        exact hb.1
      exact sameMember_of_normalize_eq ha.2 hxm (proper_of_mem_members hb.2 hym)
        (eq_of_mem_of_nodup hdistinct hxn hyn)

theorem sameItems_of_normalize_eq : ∀ {xs ys : List Json}, ProperItems xs → ProperItems ys →
    normalizeItems xs = normalizeItems ys → xs.length = ys.length ∧
      ∀ (i : Nat) (hx : i < xs.length) (hy : i < ys.length), SameValue xs[i] ys[i]
  | [], [], _, _, _ => ⟨rfl, fun i hx _ => absurd hx (Nat.not_lt_zero i)⟩
  | [], _ :: _, _, _, h => by simp [normalizeItems] at h
  | _ :: _, [], _, _, h => by simp [normalizeItems] at h
  | x :: xs, y :: ys, hx, hy, h => by
    obtain ⟨hhead, htail⟩ := List.cons.inj h
    have hfirst : SameValue x y := sameValue_of_normalize_eq hx.1 hy.1 hhead
    obtain ⟨hlength, hrest⟩ := sameItems_of_normalize_eq hx.2 hy.2 htail
    refine ⟨congrArg Nat.succ hlength, fun i hi hj => ?_⟩
    cases i with
    | zero => exact hfirst
    | succ i => exact hrest i (Nat.lt_of_succ_lt_succ hi) (Nat.lt_of_succ_lt_succ hj)

theorem sameMember_of_normalize_eq : ∀ {xs : List (String × Json)}, ProperMembers xs →
    ∀ {key : String} {x y : Json}, (key, x) ∈ xs → y.Proper → x.normalize = y.normalize →
      SameValue x y
  | (k, v) :: rest, hx, key, x, y, hmem, hy, h => by
    rcases List.mem_cons.1 hmem with heq | hmem
    · obtain ⟨-, rfl⟩ := Prod.mk.inj heq
      exact sameValue_of_normalize_eq hx.1 hy h
    · exact sameMember_of_normalize_eq hx.2 hmem hy h

end

/-! ### Canonical texts -/

/-- Canonical texts decide equality of values, and values of different kinds have different canonical
    texts, whatever their strings and keys hold. -/
theorem canonicalText_eq_iff_sameValue {a b : Json} (ha : a.Proper) (hb : b.Proper) :
    (a.canonicalText = b.canonicalText ↔ SameValue a b) ∧
      (a.canonicalText = b.canonicalText → a.kind = b.kind) := by
  rw [canonicalText_eq_iff]
  refine ⟨⟨sameValue_of_normalize_eq ha hb, fun h => h.normalize_eq ha hb⟩, fun h => ?_⟩
  rw [← kind_normalize a, h, kind_normalize]

/-- Members may change places and one may be written as a double; quotes, brackets and line breaks in keys
    and strings do no harm. -/
theorem canonicalText_reordered :
    let one : Binary64 := ⟨false, 1023 * 2 ^ 52, by decide⟩
    let parts : Json := .array [.null, .string "\"]\x7d,"]
    let a : Json := .object [("k\n", .number (.float one)), ("]", parts)]
    let b : Json := .object [("]", parts), ("k\n", .number (.integer ⟨1, by decide, by decide⟩))]
    a.Proper ∧ b.Proper ∧ a.canonicalText = b.canonicalText := by
  intro one parts a b
  have hparts : SameValue parts parts := by
    refine .array rfl fun i hi _ => ?_
    rcases i with _ | _ | i
    · exact .null
    · exact .string _
    · exact absurd hi (by simp)
  have hone : (Number.float one).reduced.text =
      (Number.integer ⟨1, by decide, by decide⟩).reduced.text := by decide +kernel
  have ha : a.Proper := by simp [a, parts, Proper, ProperMembers, ProperItems]
  have hb : b.Proper := by simp [b, parts, Proper, ProperMembers, ProperItems]
  have hab : SameValue a b := by
    refine .object (fun key => ?_) (fun key x y hx hy => ?_)
    · simp only [List.map_cons, List.map_nil, List.mem_cons, List.not_mem_nil, or_false]
      exact or_comm
    · simp only [List.mem_cons, List.not_mem_nil, or_false, Prod.mk.injEq] at hx hy
      rcases hx with ⟨rfl, rfl⟩ | ⟨rfl, rfl⟩ <;> rcases hy with ⟨hkey, rfl⟩ | ⟨hkey, rfl⟩
      · exact absurd hkey (by decide)
      · exact .number hone
      · exact hparts
      · exact absurd hkey (by decide)
  exact ⟨ha, hb, (canonicalText_eq_iff_sameValue ha hb).1.2 hab⟩

end Json
end Conform
