/-
Module: Conform.Proofs.Numeric.DoubleText
Purpose: The text of a double determines the double. Both layouts give away the digits without zeros at
  their ends and the exponent of the leading one; these two determine a decimal up to zeros at its end,
  and the decimal reads back to one double only.
Main exports: toDigits_ten_injective, FloatLayout.Significant, FloatLayout.positional_parts,
  FloatLayout.Magnitude, FloatLayout.text_injective
-/
import Conform.Proofs.Numeric.Nearest
import Mathlib.Data.List.DropRight

namespace Conform

/-! ### Digits -/

/-- Different numbers have different digits. -/
theorem toDigits_ten_injective {m n : Nat} (h : Nat.toDigits 10 m = Nat.toDigits 10 n) : m = n := by
  have hm : Nat.ofDigitChars 10 (Nat.toDigits 10 m) 0 = m := Nat.ofDigitChars_ten_toDigits
  have hn : Nat.ofDigitChars 10 (Nat.toDigits 10 n) 0 = n := Nat.ofDigitChars_ten_toDigits
  rw [← hm, h, hn]

/-- The digits of a number are digits. -/
theorem isDigit_of_mem_toDigits_ten {c : Char} {n : Nat} (h : c ∈ Nat.toDigits 10 n) :
    c.isDigit = true :=
  Nat.isDigit_of_mem_toDigits (by decide) (by decide) h

/-- The digits of a positive number do not begin with a zero. -/
theorem head?_toDigits_ne_zero {n : Nat} (hn : 0 < n) : (Nat.toDigits 10 n).head? ≠ some '0' := by
  induction n using Nat.strongRecOn with
  | ind n ih =>
    rcases Nat.lt_or_ge n 10 with hlt | hge
    · rw [Nat.toDigits_of_lt_base hlt]
      have hsmall : ∀ k < 10, 0 < k → [k.digitChar].head? ≠ some '0' := by decide
      exact hsmall n hlt hn
    · have hpos : 0 < n / 10 := Nat.div_pos hge (by decide)
      rw [Nat.toDigits_of_base_le (by decide) hge, List.head?_append_of_ne_nil _ Nat.toDigits_ne_nil]
      exact ih (n / 10) (Nat.div_lt_self hn (by decide)) hpos

namespace FloatLayout

/-! ### Significant digits -/

/-- Digits of a positive decimal, without zeros at either end. -/
structure Significant (digits : List Char) : Prop where
  isDigit : ∀ c ∈ digits, c.isDigit = true
  ne_nil : digits ≠ []
  head_ne : digits.head? ≠ some '0'
  last_ne : ∀ h : digits ≠ [], digits.getLast h ≠ '0'

/-- Only zeros are cut off at the end. -/
theorem significant_append_zeros (n : Nat) :
    ∃ k, Nat.toDigits 10 n = significant n ++ List.replicate k '0' := by
  refine ⟨((Nat.toDigits 10 n).rtakeWhile (· == '0')).length, ?_⟩
  have hzeros : (Nat.toDigits 10 n).rtakeWhile (· == '0') =
      List.replicate ((Nat.toDigits 10 n).rtakeWhile (· == '0')).length '0' := by
    apply List.eq_replicate_of_mem
    intro c hc
    simpa using List.mem_rtakeWhile_imp hc
  rw [← hzeros]
  exact List.rdropWhile_append_rtakeWhile.symm

/-- What is left of the digits of a positive number is significant. -/
theorem significant_of_pos {n : Nat} (hn : 0 < n) : Significant (significant n) := by
  obtain ⟨k, hk⟩ := significant_append_zeros n
  have hdigit : ∀ c ∈ significant n, c.isDigit = true := fun c hc =>
    isDigit_of_mem_toDigits_ten (hk ▸ List.mem_append_left _ hc)
  have hne : significant n ≠ [] := by
    intro hnil
    rw [hnil, List.nil_append] at hk
    have hhead := head?_toDigits_ne_zero hn
    rw [hk] at hhead
    cases k with
    | zero => exact Nat.toDigits_ne_nil hk
    | succ k => exact hhead rfl
  refine ⟨hdigit, hne, ?_, ?_⟩
  · have hhead := head?_toDigits_ne_zero hn
    rwa [hk, List.head?_append_of_ne_nil _ hne] at hhead
  · intro h
    have hlast : ¬ ((significant n).getLast h == '0') = true :=
      List.rdropWhile_last_not (· == '0') (Nat.toDigits 10 n) h
    simpa using hlast

namespace Significant

/-- Zeros in front of significant digits are told apart from them. -/
theorem dropWhile_zeros {s : List Char} (hs : Significant s) (z : Nat) (rest : List Char) :
    (List.replicate z '0' ++ (s ++ rest)).dropWhile (· == '0') = s ++ rest := by
  rw [List.dropWhile_append_of_pos (by simp)]
  cases s with
  | nil => exact absurd rfl hs.ne_nil
  | cons c s =>
    have hc : (c == '0') = false := by
      simpa using fun h : c = '0' => hs.head_ne (by rw [h]; rfl)
    rw [List.cons_append, List.dropWhile_cons_of_neg (by simp [hc])]

/-- Zeros behind significant digits are told apart from them. -/
theorem rdropWhile_zeros {s : List Char} (hs : Significant s) (k : Nat) :
    (s ++ List.replicate k '0').rdropWhile (· == '0') = s := by
  induction k with
  | zero =>
    rw [List.replicate_zero, List.append_nil, List.rdropWhile_eq_self_iff]
    intro h
    simpa using hs.last_ne h
  | succ k ih =>
    rw [List.replicate_succ', ← List.append_assoc, List.rdropWhile_concat_pos _ _ _ rfl, ih]

/-- Significant digits between zeros are determined, and so is the number of zeros in front. -/
theorem eq_of_zeros {s s' : List Char} (hs : Significant s) (hs' : Significant s') {z z' k k' : Nat}
    (h : List.replicate z '0' ++ (s ++ List.replicate k '0') =
      List.replicate z' '0' ++ (s' ++ List.replicate k' '0')) : z = z' ∧ s = s' := by
  have hdrop : s ++ List.replicate k '0' = s' ++ List.replicate k' '0' := by
    rw [← hs.dropWhile_zeros z, h, hs'.dropWhile_zeros z']
  have hlen : z + (s ++ List.replicate k '0').length = z' + (s' ++ List.replicate k' '0').length := by
    simpa using congrArg List.length h
  constructor
  · rw [hdrop] at hlen
    exact Nat.add_right_cancel hlen
  · rw [← hs.rdropWhile_zeros k, hdrop, hs'.rdropWhile_zeros k']

/-- Zeros alone hold no significant digits. -/
theorem ne_zeros {s : List Char} (hs : Significant s) (z k n : Nat) :
    List.replicate z '0' ++ (s ++ List.replicate k '0') ≠ List.replicate n '0' := by
  intro h
  have hdrop := hs.dropWhile_zeros z (List.replicate k '0')
  rw [h] at hdrop
  have hnil : (List.replicate n '0').dropWhile (· == '0') = [] := by
    rw [List.dropWhile_eq_nil_iff]
    simp
  rw [hnil] at hdrop
  exact hs.ne_nil (List.append_eq_nil_iff.1 hdrop.symm).1

end Significant

/-- Cutting zeros off the end moves them into the exponent. -/
theorem ofScaled?_significant (digits : Nat) (exponent : Int) :
    Binary64.ofScaled? false digits exponent =
      Binary64.ofScaled? false (Nat.ofDigitChars 10 (significant digits) 0)
        (exponent + (Nat.toDigits 10 digits).length - (significant digits).length) := by
  obtain ⟨k, hk⟩ := significant_append_zeros digits
  have hdigits : digits = Nat.ofDigitChars 10 (significant digits) 0 * 10 ^ k := by
    have hread : Nat.ofDigitChars 10 (Nat.toDigits 10 digits) 0 = digits :=
      Nat.ofDigitChars_ten_toDigits
    rw [hk, Nat.ofDigitChars_append, Nat.ofDigitChars_replicate_zero, Nat.mul_comm] at hread
    exact hread.symm
  have hlength : (Nat.toDigits 10 digits).length = (significant digits).length + k := by
    rw [hk, List.length_append, List.length_replicate]
  have hexp : exponent =
      exponent + (Nat.toDigits 10 digits).length - (significant digits).length - (k : Int) := by
    omega
  have hshift := Binary64.ofScaled?_shift false (Nat.ofDigitChars 10 (significant digits) 0) k
    (exponent + (Nat.toDigits 10 digits).length - (significant digits).length)
  rwa [← hdigits, ← hexp] at hshift

/-! ### Layouts -/

/-- The positional form splits at its point into digits that are the significant ones between zeros; the
    exponent is where the point stands. -/
theorem positional_parts (s : List Char) (e : Int) :
    ∃ whole fraction z k, positional s e = whole ++ '.' :: fraction ∧
      whole ++ fraction = List.replicate z '0' ++ (s ++ List.replicate k '0') ∧
      e = (whole.length : Int) - z - 1 ∧ whole ≠ [] := by
  rw [positional]
  rcases Int.lt_or_le e 0 with hneg | hpos
  · rw [if_pos hneg]
    refine ⟨['0'], List.replicate (-e - 1).toNat '0' ++ s, (-e - 1).toNat + 1, 0, rfl, ?_, ?_, ?_⟩
    · simp [List.replicate_succ]
    · simp only [List.length_singleton]
      omega
    · exact List.cons_ne_nil _ _
  · rw [if_neg (by omega)]
    obtain ⟨n, rfl⟩ := Int.eq_ofNat_of_zero_le hpos
    simp only [Int.toNat_natCast]
    rcases Nat.lt_or_ge (n + 1) s.length with hlong | hshort
    · -- the point stands inside the digits
      have hne : (s.drop (n + 1)).isEmpty = false := by
        simp [List.isEmpty_eq_false_iff]
        omega
      refine ⟨_, _, 0, 0, rfl, ?_, ?_, ?_⟩
      · have hpad : n + 1 - s.length = 0 := by omega
        simp [hne, hpad, List.take_append_drop]
      · simp only [List.length_append, List.length_take, List.length_replicate]
        omega
      · rw [← List.length_pos_iff]
        simp only [List.length_append, List.length_take, List.length_replicate]
        omega
    · -- the digits end at the point or before it
      have hnil : s.drop (n + 1) = [] := List.drop_eq_nil_of_le hshort
      refine ⟨_, _, 0, n + 1 - s.length + 1, rfl, ?_, ?_, ?_⟩
      · simp [hnil, List.take_of_length_le hshort, List.replicate_succ']
      · simp only [List.length_append, List.length_take, List.length_replicate]
        omega
      · rw [← List.length_pos_iff]
        simp only [List.length_append, List.length_take, List.length_replicate]
        omega

/-- Where a text splits at a character that stands once, it splits in one way. -/
theorem append_cons_inj {a b a' b' : List Char} {m : Char} (ha : m ∉ a) (ha' : m ∉ a')
    (h : a ++ m :: b = a' ++ m :: b') : a = a' ∧ b = b' := by
  have hsplit : ∀ {x y : List Char}, m ∉ x → (x ++ m :: y).takeWhile (· != m) = x := by
    intro x y hx
    rw [List.takeWhile_append_of_pos (fun c hc => by simpa using fun e : c = m => hx (e ▸ hc))]
    simp
  have haa : a = a' := by rw [← hsplit ha, h, hsplit ha']
  subst haa
  simpa using h

/-- Digits between zeros are digits. -/
theorem isDigit_of_mem_zeros {s : List Char} (hs : ∀ c ∈ s, c.isDigit = true) {z k : Nat} {c : Char}
    (h : c ∈ List.replicate z '0' ++ (s ++ List.replicate k '0')) : c.isDigit = true := by
  simp only [List.mem_append, List.mem_replicate] at h
  rcases h with ⟨_, rfl⟩ | h | ⟨_, rfl⟩
  · rfl
  · exact hs c h
  · rfl

/-- What the text of an absolute value looks like: it begins with a digit, and behind that stand digits,
    points, exponent marks and signs, with a point or a mark among them. -/
structure Magnitude (text : List Char) : Prop where
  chars : ∀ c ∈ text, c.isDigit = true ∨ c ∈ ['.', 'e', '+', '-']
  head : ∃ c rest, text = c :: rest ∧ c.isDigit = true
  marked : '.' ∈ text ∨ 'e' ∈ text

/-- A positional text holds digits and a point. -/
theorem positional_chars {s : List Char} (hs : ∀ c ∈ s, c.isDigit = true) (e : Int) :
    ∀ c ∈ positional s e, c.isDigit = true ∨ c = '.' := by
  obtain ⟨whole, fraction, z, k, htext, hdigits, -⟩ := positional_parts s e
  rw [htext]
  intro c hc
  rcases List.mem_append.1 hc with h | h
  · exact Or.inl (isDigit_of_mem_zeros hs (hdigits ▸ List.mem_append_left _ h))
  · rcases List.mem_cons.1 h with rfl | h
    · exact Or.inr rfl
    · exact Or.inl (isDigit_of_mem_zeros hs (hdigits ▸ List.mem_append_right _ h))

/-- A positional text looks like the text of an absolute value. -/
theorem magnitude_positional {s : List Char} (hs : ∀ c ∈ s, c.isDigit = true) (e : Int) :
    Magnitude (positional s e) := by
  refine ⟨fun c hc => ?_, ?_, ?_⟩
  · rcases positional_chars hs e c hc with h | rfl
    · exact Or.inl h
    · exact Or.inr (by decide)
  · obtain ⟨whole, fraction, z, k, htext, hdigits, -, hne⟩ := positional_parts s e
    obtain ⟨c, rest, rfl⟩ := List.exists_cons_of_ne_nil hne
    refine ⟨c, _, htext, isDigit_of_mem_zeros hs (z := z) (k := k) ?_⟩
    rw [← hdigits]
    exact List.mem_append_left _ List.mem_cons_self
  · obtain ⟨whole, fraction, z, k, htext, -⟩ := positional_parts s e
    exact Or.inl (by rw [htext]; simp)

/-- Two positional texts of significant digits agree only if digits and exponent do. -/
theorem positional_inj {s s' : List Char} (hs : Significant s) (hs' : Significant s') {e e' : Int}
    (h : positional s e = positional s' e') : s = s' ∧ e = e' := by
  obtain ⟨w, f, z, k, htext, hdigits, he, -⟩ := positional_parts s e
  obtain ⟨w', f', z', k', htext', hdigits', he', -⟩ := positional_parts s' e'
  have hpoint : ¬ '.'.isDigit = true := by decide
  have hw : '.' ∉ w := fun hc =>
    hpoint (isDigit_of_mem_zeros hs.isDigit (hdigits ▸ List.mem_append_left _ hc))
  have hw' : '.' ∉ w' := fun hc =>
    hpoint (isDigit_of_mem_zeros hs'.isDigit (hdigits' ▸ List.mem_append_left _ hc))
  rw [htext, htext'] at h
  obtain ⟨rfl, rfl⟩ := append_cons_inj hw hw' h
  obtain ⟨rfl, rfl⟩ := hs.eq_of_zeros hs' (hdigits.symm.trans hdigits')
  exact ⟨rfl, he.trans he'.symm⟩

/-- A positional text of significant digits is not that of zero. -/
theorem positional_ne_zero {s : List Char} (hs : Significant s) (e : Int) :
    positional s e ≠ ['0', '.', '0'] := by
  intro h
  obtain ⟨w, f, z, k, htext, hdigits, -⟩ := positional_parts s e
  have hw : '.' ∉ w := fun hc => by
    have := isDigit_of_mem_zeros hs.isDigit (hdigits ▸ List.mem_append_left _ hc)
    exact absurd this (by decide)
  have hsplit : w ++ '.' :: f = ['0'] ++ '.' :: ['0'] := htext.symm.trans h
  obtain ⟨rfl, rfl⟩ := append_cons_inj hw (by decide) hsplit
  exact hs.ne_zeros z k 2 hdigits.symm

/-- An exponential text is a mantissa before the mark and an exponent behind it. -/
theorem exponential_cons (c : Char) (fraction : List Char) (e : Int) :
    exponential (c :: fraction) e =
      (c :: if fraction.isEmpty then [] else '.' :: fraction) ++
        'e' :: (if e < 0 then '-' else '+') :: Nat.toDigits 10 e.natAbs := by
  simp [exponential]

/-- The mantissa of an exponential text holds digits and at most a point. -/
theorem mantissa_chars {c : Char} {fraction : List Char}
    (hs : ∀ d ∈ c :: fraction, d.isDigit = true) {d : Char}
    (hd : d ∈ c :: if fraction.isEmpty then [] else '.' :: fraction) : d.isDigit = true ∨ d = '.' := by
  rcases List.mem_cons.1 hd with rfl | hd
  · exact Or.inl (hs _ List.mem_cons_self)
  · split at hd
    · cases hd
    · rcases List.mem_cons.1 hd with rfl | hd
      · exact Or.inr rfl
      · exact Or.inl (hs d (List.mem_cons_of_mem _ hd))

/-- An exponential text looks like the text of an absolute value. -/
theorem magnitude_exponential {s : List Char} (hs : Significant s) (e : Int) :
    Magnitude (exponential s e) := by
  cases s with
  | nil => exact absurd rfl hs.ne_nil
  | cons c f =>
    rw [exponential_cons]
    refine ⟨fun d hd => ?_, ⟨c, _, rfl, hs.isDigit c List.mem_cons_self⟩, Or.inr (by simp)⟩
    rcases List.mem_append.1 hd with hd | hd
    · rcases mantissa_chars hs.isDigit hd with h | rfl
      · exact Or.inl h
      · exact Or.inr (by decide)
    · rcases List.mem_cons.1 hd with rfl | hd
      · exact Or.inr (by decide)
      · rcases List.mem_cons.1 hd with rfl | hd
        · split
          · exact Or.inr (by decide)
          · exact Or.inr (by decide)
        · exact Or.inl (isDigit_of_mem_toDigits_ten hd)

/-- Two exponential texts of significant digits agree only if digits and exponent do. -/
theorem exponential_inj {s s' : List Char} (hs : Significant s) (hs' : Significant s') {e e' : Int}
    (h : exponential s e = exponential s' e') : s = s' ∧ e = e' := by
  cases s with
  | nil => exact absurd rfl hs.ne_nil
  | cons c f =>
    cases s' with
    | nil => exact absurd rfl hs'.ne_nil
    | cons c' f' =>
      have hmark : ∀ {c : Char} {f : List Char}, Significant (c :: f) →
          'e' ∉ c :: if f.isEmpty then [] else '.' :: f := by
        intro c f hs hmem
        rcases mantissa_chars hs.isDigit hmem with hd | hd
        · exact absurd hd (by decide)
        · exact absurd hd (by decide)
      rw [exponential_cons, exponential_cons] at h
      obtain ⟨hmantissa, hexponent⟩ := append_cons_inj (hmark hs) (hmark hs') h
      have hdigits : c :: f = c' :: f' := by
        obtain ⟨rfl, hfraction⟩ := List.cons.inj hmantissa
        cases f <;> cases f' <;> simp_all
      obtain ⟨hsign, habs⟩ := List.cons.inj hexponent
      have hnat : e.natAbs = e'.natAbs := toDigits_ten_injective habs
      refine ⟨hdigits, ?_⟩
      split at hsign <;> split at hsign
      · omega
      · exact absurd hsign (by decide)
      · exact absurd hsign (by decide)
      · omega

/-! ### Texts of doubles -/

/-- The absolute value of zero has a text of its own; any other is laid out from significant digits that
    read back to it. -/
theorem magnitude_cases (layout : FloatLayout) (x : Binary64) :
    (x.place = 0 ∧ layout.magnitude x = ['0', '.', '0']) ∨
      ∃ s e, Significant s ∧
        x.readsBack ⟨Nat.ofDigitChars 10 s 0, e + 1 - s.length⟩ = true ∧
        (layout.magnitude x = positional s e ∨ layout.magnitude x = exponential s e) := by
  rcases Nat.eq_zero_or_pos x.place with hzero | hpos
  · have hx : x.isZero = true := by simp [Binary64.isZero, hzero]
    exact Or.inl ⟨hzero, by rw [magnitude, if_pos hx]⟩
  · have hx : ¬ x.isZero = true := by simp [Binary64.isZero]; omega
    have hread := x.readsBack_shortest
    have hdigits : 0 < x.shortest.digits := x.digits_pos_of_readsBack hpos hread
    refine Or.inr ⟨significant x.shortest.digits,
      x.shortest.exponent + (Nat.toDigits 10 x.shortest.digits).length - 1,
      significant_of_pos hdigits, ?_, ?_⟩
    · rw [Binary64.readsBack, ofScaled?_significant] at hread
      rw [Binary64.readsBack, Int.sub_add_cancel]
      exact hread
    · rw [magnitude, if_neg hx]
      dsimp only
      split
      · exact Or.inl rfl
      · exact Or.inr rfl

/-- An exponential text has a mark for the exponent. -/
theorem mark_mem_exponential (s : List Char) (e : Int) : 'e' ∈ exponential s e := by
  simp [exponential]

/-- A positional text has no mark for an exponent. -/
theorem mark_notMem_positional {s : List Char} (hs : Significant s) (e : Int) :
    'e' ∉ positional s e := by
  intro h
  rcases positional_chars hs.isDigit e 'e' h with hd | hd
  · exact absurd hd (by decide)
  · exact absurd hd (by decide)

/-- The absolute value of a double is determined by its text. -/
theorem place_eq_of_magnitude_eq (layout : FloatLayout) {x y : Binary64}
    (h : layout.magnitude x = layout.magnitude y) : x.place = y.place := by
  rcases layout.magnitude_cases x with ⟨hx, hxt⟩ | ⟨s, e, hs, hxr, hxt⟩ <;>
    rcases layout.magnitude_cases y with ⟨hy, hyt⟩ | ⟨s', e', hs', hyr, hyt⟩
  · exact hx.trans hy.symm
  · rw [hxt] at h
    rcases hyt with hyt | hyt
    · exact absurd (hyt.symm.trans h.symm) (positional_ne_zero hs' e')
    · have hmark := mark_mem_exponential s' e'
      rw [← hyt, ← h] at hmark
      exact absurd hmark (by decide)
  · rw [hyt] at h
    rcases hxt with hxt | hxt
    · exact absurd (hxt.symm.trans h) (positional_ne_zero hs e)
    · have hmark := mark_mem_exponential s e
      rw [← hxt, h] at hmark
      exact absurd hmark (by decide)
  · have hsame : s = s' ∧ e = e' := by
      rcases hxt with hxt | hxt <;> rcases hyt with hyt | hyt <;> rw [hxt, hyt] at h
      · exact positional_inj hs hs' h
      · exact absurd (h ▸ mark_mem_exponential s' e') (mark_notMem_positional hs e)
      · exact absurd (h ▸ mark_mem_exponential s e) (mark_notMem_positional hs' e')
      · exact exponential_inj hs hs' h
    obtain ⟨rfl, rfl⟩ := hsame
    exact Binary64.place_eq_of_readsBack hxr hyr

/-- The text of an absolute value looks like one. -/
theorem magnitude_magnitude (layout : FloatLayout) (x : Binary64) : Magnitude (layout.magnitude x) := by
  rcases layout.magnitude_cases x with ⟨-, h⟩ | ⟨s, e, hs, -, h | h⟩
  · rw [h]
    exact ⟨by simp, ⟨'0', _, rfl, rfl⟩, Or.inl (by simp)⟩
  · rw [h]
    exact magnitude_positional hs.isDigit e
  · rw [h]
    exact magnitude_exponential hs e

/-- The text of an absolute value does not begin with a sign. -/
theorem magnitude_ne_minus (layout : FloatLayout) (x : Binary64) (rest : List Char) :
    layout.magnitude x ≠ '-' :: rest := by
  intro h
  obtain ⟨c, tail, hc, hdigit⟩ := (layout.magnitude_magnitude x).head
  rw [h] at hc
  rw [← (List.cons.inj hc).1] at hdigit
  exact absurd hdigit (by decide)

/-- Different doubles have different texts. -/
theorem text_injective (layout : FloatLayout) {x y : Binary64} (h : layout.text x = layout.text y) :
    x = y := by
  rcases x with ⟨xn, xp, hx⟩
  rcases y with ⟨yn, yp, hy⟩
  have hboth : xn = yn ∧ layout.magnitude ⟨xn, xp, hx⟩ = layout.magnitude ⟨yn, yp, hy⟩ := by
    rw [text, text] at h
    cases xn <;> cases yn <;> simp only [if_true, if_false, Bool.false_eq_true] at h
    · exact ⟨rfl, h⟩
    · exact absurd h (magnitude_ne_minus layout _ _)
    · exact absurd h.symm (magnitude_ne_minus layout _ _)
    · exact ⟨rfl, (List.cons.inj h).2⟩
  obtain ⟨rfl, hmag⟩ := hboth
  have hplace : xp = yp := place_eq_of_magnitude_eq layout hmag
  subst hplace
  rfl

end FloatLayout

end Conform
