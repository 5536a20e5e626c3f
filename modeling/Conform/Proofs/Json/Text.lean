/-
Module: Conform.Proofs.Json.Text
Purpose: The compact text of a value determines the value, also where more text follows. Numbers end
  where a character stands that is in no number, strings where a quote stands that is not escaped, arrays
  and objects where their closing bracket stands.
Main exports: Number.text_injective, Json.quoted_append_inj, Json.chars_append_inj,
  Json.compact_injective
-/
import Conform.Json.Printer
import Conform.Json.Token
import Conform.Proofs.Numeric.DoubleText

namespace Conform

/-! ### Numbers -/

namespace Integer64

/-- A whole number is written in digits behind at most one minus sign. -/
theorem text_chars (n : Integer64) : ∀ c ∈ n.text, c.isDigit = true ∨ c = '-' := by
  intro c hc
  rw [text] at hc
  split at hc
  · rcases List.mem_cons.1 hc with rfl | hc
    · exact Or.inr rfl
    · exact Or.inl (isDigit_of_mem_toDigits_ten hc)
  · exact Or.inl (isDigit_of_mem_toDigits_ten hc)

/-- Different whole numbers have different texts. -/
theorem text_injective {m n : Integer64} (h : m.text = n.text) : m = n := by
  have hminus : ∀ k : Nat, '-' ∉ Nat.toDigits 10 k := fun k hk =>
    absurd (isDigit_of_mem_toDigits_ten hk) (by decide)
  have hvalue : m.value = n.value := by
    rw [text, text] at h
    split at h <;> split at h
    · have habs := toDigits_ten_injective (List.cons.inj h).2
      omega
    · exact absurd (h ▸ List.mem_cons_self) (hminus n.value.natAbs)
    · exact absurd (h ▸ List.mem_cons_self) (hminus m.value.natAbs)
    · have habs := toDigits_ten_injective h
      omega
  rcases m with ⟨m, _, _⟩
  rcases n with ⟨n, _, _⟩
  subst hvalue
  rfl

end Integer64

namespace Number

/-- The characters that the texts of numbers are made of. -/
def isNumeric (c : Char) : Bool := c.isDigit || ['.', 'e', '+', '-'].contains c

/-- A number is written in numeric characters. -/
theorem isNumeric_of_mem_text (n : Number) : ∀ c ∈ n.text, isNumeric c = true := by
  intro c hc
  cases n with
  | integer n =>
    rcases n.text_chars c hc with h | rfl
    · simp [isNumeric, h]
    · decide
  | float x =>
    have hmag := (floatLayout.magnitude_magnitude x).chars
    have hchar : c = '-' ∨ c ∈ floatLayout.magnitude x := by
      rw [text, FloatLayout.text] at hc
      split at hc
      · exact List.mem_cons.1 hc
      · exact Or.inr hc
    rcases hchar with rfl | hc
    · decide
    · rcases hmag c hc with h | h
      · simp [isNumeric, h]
      · rw [isNumeric, List.contains_iff_mem.2 h, Bool.or_true]

/-- No number has an empty text. -/
theorem text_ne_nil (n : Number) : n.text ≠ [] := by
  cases n with
  | integer n =>
    rw [text, Integer64.text]
    split
    · exact List.cons_ne_nil _ _
    · exact Nat.toDigits_ne_nil
  | float x =>
    obtain ⟨c, rest, hc, -⟩ := (floatLayout.magnitude_magnitude x).head
    rw [text, FloatLayout.text, hc]
    split
    · exact List.cons_ne_nil _ _
    · exact List.cons_ne_nil _ _

/-- A whole number and a double never have the same text: only the double has a point or an exponent. -/
theorem text_integer_ne_text_float (n : Integer64) (x : Binary64) :
    text (.integer n) ≠ text (.float x) := by
  intro h
  have hno : ∀ c, c = '.' ∨ c = 'e' → c ∉ text (.float x) := by
    intro c hc hmem
    rw [← h] at hmem
    have hno : ¬ (c.isDigit = true ∨ c = '-') := by
      rcases hc with rfl | rfl
      · decide
      · decide
    exact hno (n.text_chars c hmem)
  have hsub : ∀ c ∈ floatLayout.magnitude x, c ∈ text (.float x) := by
    intro c hc
    rw [text, FloatLayout.text]
    split
    · exact List.mem_cons_of_mem _ hc
    · exact hc
  rcases (floatLayout.magnitude_magnitude x).marked with hp | he
  · exact hno '.' (Or.inl rfl) (hsub _ hp)
  · exact hno 'e' (Or.inr rfl) (hsub _ he)

/-- Different numbers have different texts. -/
theorem text_injective {m n : Number} (h : m.text = n.text) : m = n := by
  cases m with
  | integer m =>
    cases n with
    | integer n => exact congrArg _ (Integer64.text_injective h)
    | float y => exact absurd h (text_integer_ne_text_float m y)
  | float x =>
    cases n with
    | integer n => exact absurd h.symm (text_integer_ne_text_float n x)
    | float y => exact congrArg _ (FloatLayout.text_injective floatLayout h)

/-- A text that does not go on with a numeric character. -/
def Delimited (rest : List Char) : Prop := ∀ c tail, rest = c :: tail → isNumeric c = false

theorem delimited_nil : Delimited [] := by
  intro c tail h
  cases h

theorem delimited_cons {c : Char} {tail : List Char} (h : isNumeric c = false) :
    Delimited (c :: tail) := by
  intro d rest heq
  rw [← (List.cons.inj heq).1]
  exact h

/-- A number ends where the numeric characters end. -/
theorem text_append_inj {m n : Number} {r s : List Char} (hr : Delimited r) (hs : Delimited s)
    (h : m.text ++ r = n.text ++ s) : m = n ∧ r = s := by
  have hsplit : ∀ (n : Number) {r : List Char}, Delimited r →
      (n.text ++ r).takeWhile isNumeric = n.text := by
    intro n r hr
    rw [List.takeWhile_append_of_pos n.isNumeric_of_mem_text]
    cases r with
    | nil => simp
    | cons c tail => simp [hr c tail rfl]
  have htext : m.text = n.text := by rw [← hsplit m hr, h, hsplit n hs]
  obtain rfl := text_injective htext
  exact ⟨rfl, List.append_cancel_left h⟩

end Number

/-! ### Strings -/

namespace Json

/-- A character stands for itself, or behind a backslash for a letter or for its code. -/
theorem escape_cases (c : Char) :
    (escape c = [c] ∧ c ≠ '"' ∧ c ≠ '\\') ∨
      (∃ letter, escape c = ['\\', letter] ∧ letter ≠ 'u' ∧ TextUnit.escaped? letter = some c) ∨
      (c.toNat < 0x20 ∧ escape c =
        ['\\', 'u', '0', '0', (c.toNat / 16).digitChar, (c.toNat % 16).digitChar]) := by
  rw [escape]
  split_ifs with h1 h2 h3 h4 h5 h6 h7 h8
  · exact Or.inr (Or.inl ⟨'"', rfl, by decide, by rw [h1]; rfl⟩)
  · exact Or.inr (Or.inl ⟨'\\', rfl, by decide, by rw [h2]; rfl⟩)
  · exact Or.inr (Or.inl ⟨'b', rfl, by decide, by rw [h3]; rfl⟩)
  · exact Or.inr (Or.inl ⟨'f', rfl, by decide, by rw [h4]; rfl⟩)
  · exact Or.inr (Or.inl ⟨'n', rfl, by decide, by rw [h5]; rfl⟩)
  · exact Or.inr (Or.inl ⟨'r', rfl, by decide, by rw [h6]; rfl⟩)
  · exact Or.inr (Or.inl ⟨'t', rfl, by decide, by rw [h7]; rfl⟩)
  · exact Or.inr (Or.inr ⟨h8, rfl⟩)
  · exact Or.inl ⟨rfl, h1, h2⟩

/-- Hexadecimal digits are different characters. -/
theorem digitChar_inj {m n : Nat} (hm : m < 16) (hn : n < 16) (h : m.digitChar = n.digitChar) :
    m = n := by
  have hall : ∀ m < 16, ∀ n < 16, m.digitChar = n.digitChar → m = n := by decide
  exact hall m hm n hn h

/-- An escaped character does not begin with a quote. -/
theorem escape_append_ne_quote (c : Char) (r s : List Char) : escape c ++ r ≠ '"' :: s := by
  intro h
  rcases escape_cases c with ⟨he, hc, -⟩ | ⟨letter, he, -, -⟩ | ⟨-, he⟩ <;> rw [he] at h
  · exact hc (List.cons.inj h).1
  · exact absurd (List.cons.inj h).1 (by decide)
  · exact absurd (List.cons.inj h).1 (by decide)

/-- An escaped character is determined, and so is what follows it. -/
theorem escape_append_inj {c d : Char} {r s : List Char} (h : escape c ++ r = escape d ++ s) :
    c = d ∧ r = s := by
  rcases escape_cases c with ⟨hc, -, hcb⟩ | ⟨l, hc, hlu, hl⟩ | ⟨hcs, hc⟩ <;>
    rcases escape_cases d with ⟨hd, -, hdb⟩ | ⟨m, hd, hmu, hm⟩ | ⟨hds, hd⟩ <;>
    rw [hc, hd] at h <;> simp only [List.cons_append, List.nil_append, List.cons.injEq] at h
  · exact h
  · exact absurd h.1 hcb
  · exact absurd h.1 hcb
  · exact absurd h.1.symm hdb
  · obtain ⟨-, rfl, hrest⟩ := h
    exact ⟨Option.some.inj (hl.symm.trans hm), hrest⟩
  · exact absurd h.2.1 hlu
  · exact absurd h.1.symm hdb
  · exact absurd h.2.1.symm hmu
  · obtain ⟨-, -, -, -, hhigh, hlow, hrest⟩ := h
    have hdiv : c.toNat / 16 = d.toNat / 16 := digitChar_inj (by omega) (by omega) hhigh
    have hmod : c.toNat % 16 = d.toNat % 16 := digitChar_inj (by omega) (by omega) hlow
    have hnat : c.toNat = d.toNat := by omega
    exact ⟨Char.toNat_inj.1 hnat, hrest⟩

/-- Escaped characters up to the closing quote are determined. -/
theorem escapes_append_inj : ∀ {s t r r' : List Char},
    s.flatMap escape ++ '"' :: r = t.flatMap escape ++ '"' :: r' → s = t ∧ r = r'
  | [], [], _, _, h => ⟨rfl, (List.cons.inj h).2⟩
  | [], d :: t, r, r', h => by
    rw [List.flatMap_cons, List.append_assoc] at h
    exact absurd h.symm (escape_append_ne_quote d _ r)
  | c :: s, [], r, r', h => by
    rw [List.flatMap_cons, List.append_assoc] at h
    exact absurd h (escape_append_ne_quote c _ r')
  | c :: s, d :: t, r, r', h => by
    rw [List.flatMap_cons, List.flatMap_cons, List.append_assoc, List.append_assoc] at h
    obtain ⟨rfl, hrest⟩ := escape_append_inj h
    obtain ⟨rfl, hr⟩ := escapes_append_inj hrest
    exact ⟨rfl, hr⟩

/-- A quoted string is determined, and so is what follows it. -/
theorem quoted_append_inj {s t : String} {r r' : List Char} (h : quoted s ++ r = quoted t ++ r') :
    s = t ∧ r = r' := by
  have hinner : s.toList.flatMap escape ++ '"' :: r = t.toList.flatMap escape ++ '"' :: r' := by
    simpa [quoted] using h
  obtain ⟨hchars, hr⟩ := escapes_append_inj hinner
  exact ⟨String.toList_inj.1 hchars, hr⟩

/-! ### Values -/

/-- The character that the text of a value begins with, unless the value is a number. -/
def opening? : Json → Option Char
  | .null => some 'n'
  | .bool b => some (if b then 't' else 'f')
  | .number _ => none
  | .string _ => some '"'
  | .array _ => some '['
  | .object _ => some '\x7b'

/-- No number begins like another value. -/
theorem not_isNumeric_of_opening? {v : Json} {c : Char} (h : v.opening? = some c) :
    Number.isNumeric c = false := by
  cases v with
  | bool b => cases b <;> (cases h; decide)
  | number n => cases h
  | _ => cases h; decide

/-- A text begins with the opening character of its value, or with a numeric character. -/
theorem chars_eq_cons (v : Json) : ∃ c rest, v.chars = c :: rest ∧
    (v.opening? = some c ∨ v.opening? = none ∧ Number.isNumeric c = true) := by
  cases v with
  | null => exact ⟨_, _, rfl, Or.inl rfl⟩
  | bool b => cases b <;> exact ⟨_, _, rfl, Or.inl rfl⟩
  | number n =>
    obtain ⟨c, rest, hc⟩ := List.exists_cons_of_ne_nil n.text_ne_nil
    exact ⟨c, rest, hc, Or.inr ⟨rfl, n.isNumeric_of_mem_text c (hc ▸ List.mem_cons_self)⟩⟩
  | string s => exact ⟨_, _, rfl, Or.inl rfl⟩
  | array items => cases items <;> exact ⟨_, _, rfl, Or.inl rfl⟩
  | object members =>
    cases members with
    | nil => exact ⟨_, _, rfl, Or.inl rfl⟩
    | cons member rest =>
      rcases member with ⟨key, value⟩
      exact ⟨_, _, rfl, Or.inl rfl⟩

/-- Texts that begin alike belong to values of one sort. -/
theorem opening?_eq_of_chars_append {a b : Json} {r s : List Char}
    (h : a.chars ++ r = b.chars ++ s) : a.opening? = b.opening? := by
  obtain ⟨c, _, hc, hca⟩ := a.chars_eq_cons
  obtain ⟨d, _, hd, hdb⟩ := b.chars_eq_cons
  rw [hc, hd] at h
  obtain ⟨rfl, -⟩ := List.cons.inj h
  rcases hca with hca | ⟨hca, hcn⟩ <;> rcases hdb with hdb | ⟨hdb, hdn⟩
  · exact hca.trans hdb.symm
  · exact absurd hdn (by simp [not_isNumeric_of_opening? hca])
  · exact absurd hcn (by simp [not_isNumeric_of_opening? hdb])
  · exact hca.trans hdb.symm

/-- No value begins with a closing bracket or a comma. -/
theorem chars_append_ne_cons (v : Json) {c : Char} (hc : c ∈ [']', '\x7d', ',']) (r s : List Char) :
    v.chars ++ r ≠ c :: s := by
  intro h
  obtain ⟨d, rest, hd, hopen⟩ := v.chars_eq_cons
  rw [hd] at h
  obtain ⟨rfl, -⟩ := List.cons.inj h
  rcases hopen with hopen | ⟨-, hnum⟩
  · cases v with
    | bool b => cases b <;> (cases hopen; exact absurd hc (by decide))
    | number n => cases hopen
    | _ => cases hopen; exact absurd hc (by decide)
  · have hall : ∀ c ∈ [']', '\x7d', ','], Number.isNumeric c = false := by
      simp [Number.isNumeric]
    rw [hall d hc] at hnum
    cases hnum

/-- What follows an element or a member begins with a comma or a bracket. -/
theorem delimited_itemsTail (items : List Json) (r : List Char) :
    Number.Delimited (itemsTail items ++ r) := by
  cases items with
  | nil => exact Number.delimited_cons (by decide)
  | cons item rest => exact Number.delimited_cons (by decide)

/-- What follows an element or a member begins with a comma or a bracket. -/
theorem delimited_membersTail (members : List (String × Json)) (r : List Char) :
    Number.Delimited (membersTail members ++ r) := by
  cases members with
  | nil => exact Number.delimited_cons (by decide)
  | cons member rest => exact Number.delimited_cons (by decide)

mutual

/-- The text of a value is determined together with what follows it. -/
theorem chars_append_inj : ∀ (a b : Json) {r s : List Char}, Number.Delimited r →
    Number.Delimited s → a.chars ++ r = b.chars ++ s → a = b ∧ r = s
  | .null, b, r, s, _, _, h => by
    have hopen := opening?_eq_of_chars_append h
    cases b with
    | null => exact ⟨rfl, List.append_cancel_left h⟩
    | bool y => cases y <;> simp [opening?] at hopen
    | _ => simp [opening?] at hopen
  | .bool x, b, r, s, _, _, h => by
    have hopen := opening?_eq_of_chars_append h
    cases b with
    | bool y =>
      have hxy : x = y := by cases x <;> cases y <;> simp [opening?] at hopen ⊢
      subst hxy
      exact ⟨rfl, List.append_cancel_left h⟩
    | _ => cases x <;> simp [opening?] at hopen
  | .number m, b, r, s, hr, hs, h => by
    have hopen := opening?_eq_of_chars_append h
    cases b with
    | number n =>
      obtain ⟨rfl, hrest⟩ := Number.text_append_inj hr hs h
      exact ⟨rfl, hrest⟩
    | _ => simp [opening?] at hopen
  | .string x, b, r, s, _, _, h => by
    have hopen := opening?_eq_of_chars_append h
    cases b with
    | string y =>
      obtain ⟨rfl, hrest⟩ := quoted_append_inj h
      exact ⟨rfl, hrest⟩
    | bool y => cases y <;> simp [opening?] at hopen
    | _ => simp [opening?] at hopen
  | .array xs, b, r, s, _, _, h => by
    have hopen := opening?_eq_of_chars_append h
    cases b with
    | array ys =>
      obtain ⟨rfl, hrest⟩ := array_append_inj xs ys h
      exact ⟨rfl, hrest⟩
    | bool y => cases y <;> simp [opening?] at hopen
    | _ => simp [opening?] at hopen
  | .object xs, b, r, s, _, _, h => by
    have hopen := opening?_eq_of_chars_append h
    cases b with
    | object ys =>
      obtain ⟨rfl, hrest⟩ := object_append_inj xs ys h
      exact ⟨rfl, hrest⟩
    | bool y => cases y <;> simp [opening?] at hopen
    | _ => simp [opening?] at hopen

/-- The elements of an array are determined together with what follows its bracket. -/
theorem array_append_inj : ∀ (xs ys : List Json) {r s : List Char},
    (array xs).chars ++ r = (array ys).chars ++ s → xs = ys ∧ r = s
  | [], [], r, s, h => ⟨rfl, List.append_cancel_left h⟩
  | [], y :: ys, r, s, h => by
    simp only [chars, List.cons_append, List.append_assoc, List.nil_append, List.cons.injEq,
      true_and] at h
    exact absurd h.symm (y.chars_append_ne_cons (by decide) _ _)
  | x :: xs, [], r, s, h => by
    simp only [chars, List.cons_append, List.append_assoc, List.nil_append, List.cons.injEq,
      true_and] at h
    exact absurd h (x.chars_append_ne_cons (by decide) _ _)
  | x :: xs, y :: ys, r, s, h => by
    simp only [chars, List.cons_append, List.append_assoc, List.cons.injEq, true_and] at h
    obtain ⟨rfl, htail⟩ := chars_append_inj x y (delimited_itemsTail xs r)
      (delimited_itemsTail ys s) h
    obtain ⟨rfl, hrest⟩ := itemsTail_append_inj xs ys htail
    exact ⟨rfl, hrest⟩

/-- The members of an object are determined together with what follows its brace. -/
theorem object_append_inj : ∀ (xs ys : List (String × Json)) {r s : List Char},
    (object xs).chars ++ r = (object ys).chars ++ s → xs = ys ∧ r = s
  | [], [], r, s, h => ⟨rfl, List.append_cancel_left h⟩
  | [], (l, y) :: ys, r, s, h => by
    simp [chars, quoted] at h
  | (k, x) :: xs, [], r, s, h => by
    simp [chars, quoted] at h
  | (k, x) :: xs, (l, y) :: ys, r, s, h => by
    simp only [chars, List.cons_append, List.append_assoc, List.cons.injEq, true_and] at h
    obtain ⟨rfl, hvalue⟩ := quoted_append_inj h
    obtain ⟨rfl, htail⟩ := chars_append_inj x y (delimited_membersTail xs r)
      (delimited_membersTail ys s) (List.cons.inj hvalue).2
    obtain ⟨rfl, hrest⟩ := membersTail_append_inj xs ys htail
    exact ⟨rfl, hrest⟩

/-- The remaining elements are determined together with what follows the bracket. -/
theorem itemsTail_append_inj : ∀ (xs ys : List Json) {r s : List Char},
    itemsTail xs ++ r = itemsTail ys ++ s → xs = ys ∧ r = s
  | [], [], r, s, h => ⟨rfl, (List.cons.inj h).2⟩
  | [], y :: ys, r, s, h => by
    simp [itemsTail] at h
  | x :: xs, [], r, s, h => by
    simp [itemsTail] at h
  | x :: xs, y :: ys, r, s, h => by
    simp only [itemsTail, List.cons_append, List.append_assoc, List.cons.injEq, true_and] at h
    obtain ⟨rfl, htail⟩ := chars_append_inj x y (delimited_itemsTail xs r)
      (delimited_itemsTail ys s) h
    obtain ⟨rfl, hrest⟩ := itemsTail_append_inj xs ys htail
    exact ⟨rfl, hrest⟩

/-- The remaining members are determined together with what follows the brace. -/
theorem membersTail_append_inj : ∀ (xs ys : List (String × Json)) {r s : List Char},
    membersTail xs ++ r = membersTail ys ++ s → xs = ys ∧ r = s
  | [], [], r, s, h => ⟨rfl, (List.cons.inj h).2⟩
  | [], (l, y) :: ys, r, s, h => by
    simp [membersTail] at h
  | (k, x) :: xs, [], r, s, h => by
    simp [membersTail] at h
  | (k, x) :: xs, (l, y) :: ys, r, s, h => by
    simp only [membersTail, List.cons_append, List.append_assoc, List.cons.injEq, true_and] at h
    obtain ⟨rfl, hvalue⟩ := quoted_append_inj h
    obtain ⟨rfl, htail⟩ := chars_append_inj x y (delimited_membersTail xs r)
      (delimited_membersTail ys s) (List.cons.inj hvalue).2
    obtain ⟨rfl, hrest⟩ := membersTail_append_inj xs ys htail
    exact ⟨rfl, hrest⟩

end

/-- Different values have different compact texts. -/
theorem compact_injective {a b : Json} (h : a.compact = b.compact) : a = b := by
  have hchars : a.chars ++ [] = b.chars ++ [] := by
    rw [List.append_nil, List.append_nil]
    exact String.ofList_injective h
  exact (chars_append_inj a b Number.delimited_nil Number.delimited_nil hchars).1

end Json
end Conform
