/-
Module: Conform.Proofs.Json.Tokens
Purpose: Printed text and its tokens. A text spells tokens if it is made of them in their order, with
  blanks in between, where a word ends in front of a character that is in no word; such a text is taken
  apart into just these tokens. A printed string has one unit for each character, and its units read back
  to the string; a printed whole number reads back to itself.
Main exports: TextUnit.ofString, TextUnit.string?_ofString, Number.numeral, Number.ReadsBack,
  Number.readsBack_integer, Token.Spells, Token.lex_of_spells
-/
import Conform.Proofs.Json.Text

namespace Conform

/-! ### Units of printed strings -/

namespace TextUnit

/-- The unit that a character is printed as: its code if it is printed by its code, else the character. -/
def ofChar (c : Char) : TextUnit :=
  match Json.escape c with
  | '\\' :: 'u' :: _ => .code c.toNat
  | _ => .char c

/-- The units that a string is printed as. -/
def ofString (s : String) : List TextUnit := s.toList.map ofChar

/-- A character that stands for itself is no control character. -/
theorem not_control_of_escape {c : Char} (h : Json.escape c = [c]) : ¬ c.toNat < 0x20 := by
  intro hcontrol
  rw [Json.escape] at h
  split_ifs at h
  all_goals simp at h

/-- A printed character is one unit: the character, by itself or behind a backslash, or the code that it
    is printed by. -/
theorem ofChar_cases (c : Char) :
    (Json.escape c = [c] ∧ c ≠ '"' ∧ c ≠ '\\' ∧ ¬ c.toNat < 0x20 ∧ ofChar c = .char c) ∨
      (∃ letter, Json.escape c = ['\\', letter] ∧ letter ≠ 'u' ∧ escaped? letter = some c ∧
        ofChar c = .char c) ∨
      (c.toNat < 0x20 ∧ ofChar c = .code c.toNat ∧ Json.escape c =
        ['\\', 'u', '0', '0', (c.toNat / 16).digitChar, (c.toNat % 16).digitChar]) := by
  rcases Json.escape_cases c with ⟨hprinted, hquote, hslash⟩ | ⟨letter, hprinted, hletter, hescaped⟩ |
    ⟨hcontrol, hprinted⟩
  · have hunit : ofChar c = .char c := by simp [ofChar, hprinted]
    exact .inl ⟨hprinted, hquote, hslash, not_control_of_escape hprinted, hunit⟩
  · have hunit : ofChar c = .char c := by simp [ofChar, hprinted, hletter]
    exact .inr (.inl ⟨letter, hprinted, hletter, hescaped, hunit⟩)
  · have hunit : ofChar c = .code c.toNat := by simp [ofChar, hprinted]
    exact .inr (.inr ⟨hcontrol, hunit, hprinted⟩)

/-- A printed character is read as its unit. -/
theorem decode?_ofChar_cons (c : Char) (rest : List TextUnit) :
    decode? (ofChar c :: rest) = (decode? rest).map (c :: ·) := by
  rcases ofChar_cases c with ⟨-, -, -, -, hunit⟩ | ⟨-, -, -, -, hunit⟩ | ⟨hcontrol, hunit, -⟩
  · rw [hunit, decode?]
  · rw [hunit, decode?]
  · have hhigh : isHigh c.toNat = false := by
      rw [isHigh, Bool.and_eq_false_iff]
      exact .inl (decide_eq_false (by omega))
    have hlow : isLow c.toNat = false := by
      rw [isLow, Bool.and_eq_false_iff]
      exact .inl (decide_eq_false (by omega))
    rw [hunit, decode?.eq_def]
    simp [hhigh, hlow]

/-- Printed characters are read as their units. -/
theorem decode?_map_ofChar (chars : List Char) : decode? (chars.map ofChar) = some chars := by
  induction chars with
  | nil => rfl
  | cons c rest ih => rw [List.map_cons, decode?_ofChar_cons, ih, Option.map_some]

/-- The units of a string stand for the string. -/
@[simp] theorem string?_ofString (s : String) : string? (ofString s) = some s := by
  rw [string?, ofString, decode?_map_ofChar, Option.map_some, String.ofList_toList]

end TextUnit

namespace Token

/-- A character that stands for itself. -/
theorem lexString_plain {c : Char} (hquote : c ≠ '"') (hslash : c ≠ '\\') (hcontrol : ¬ c.toNat < 0x20)
    (read : List TextUnit) (rest : List Char) :
    lexString read (c :: rest) = lexString (.char c :: read) rest := by
  have hplain : ¬ (c = '\\' ∨ c.toNat < 0x20) := not_or.2 ⟨hslash, hcontrol⟩
  rw [lexString.eq_def]
  -- The other forms of a text are empty, or begin with a quote or a backslash.
  split
  case h_5 heq =>
    obtain ⟨rfl, rfl⟩ := List.cons.inj heq
    exact if_neg hplain
  all_goals simp_all

/-- A letter behind a backslash. -/
theorem lexString_letter {c letter : Char} (hletter : letter ≠ 'u')
    (hescaped : TextUnit.escaped? letter = some c)
    (read : List TextUnit) (rest : List Char) :
    lexString read ('\\' :: letter :: rest) = lexString (.char c :: read) rest := by
  rw [lexString.eq_def]
  simp_all

/-- A printed character is one unit of a string. -/
theorem lexString_escape (read : List TextUnit) (c : Char) (rest : List Char) :
    lexString read (Json.escape c ++ rest) = lexString (TextUnit.ofChar c :: read) rest := by
  have hcode : ∀ n < 0x20,
      Hexadecimal.number? ['0', '0', (n / 16).digitChar, (n % 16).digitChar] = some n := by
    decide
  rcases TextUnit.ofChar_cases c with ⟨hprinted, hquote, hslash, hcontrol, hunit⟩ |
    ⟨letter, hprinted, hletter, hescaped, hunit⟩ | ⟨hcontrol, hunit, hprinted⟩
  · rw [hprinted, hunit]
    exact lexString_plain hquote hslash hcontrol read rest
  · rw [hprinted, hunit]
    exact lexString_letter hletter hescaped read rest
  · rw [hprinted, hunit]
    simp only [List.cons_append, List.nil_append, lexString, hcode c.toNat hcontrol]

/-- The characters of a printed string are its units. -/
theorem lexString_escapes (read : List TextUnit) (s rest : List Char) :
    lexString read (s.flatMap Json.escape ++ '"' :: rest) =
      (lexFrom [] rest).map (.string (read.reverse ++ s.map TextUnit.ofChar) :: ·) := by
  induction s generalizing read with
  | nil => simp [lexString]
  | cons c s ih =>
    rw [List.flatMap_cons, List.append_assoc, lexString_escape, ih, List.reverse_cons, List.append_assoc,
      List.map_cons]
    rfl

/-- A printed string is one token. -/
theorem lexFrom_quoted (s : String) (rest : List Char) :
    lexFrom [] (Json.quoted s ++ rest) = (lexFrom [] rest).map (.string (TextUnit.ofString s) :: ·) := by
  have hbody := lexString_escapes [] s.toList rest
  rw [List.reverse_nil, List.nil_append] at hbody
  rw [Json.quoted, List.cons_append, List.append_assoc, List.singleton_append, lexFrom, hbody]
  simp [isWordChar, wordTokens?, TextUnit.ofString, Function.comp_def]

/-! ### Words -/

/-- Only blanks, punctuation and the quote are in no word. -/
theorem not_isWordChar_iff {c : Char} : isWordChar c = false ↔
    c ∈ [' ', '\t', '\n', '\r', '[', ']', '\x7b', '\x7d', ',', ':', '"'] := by
  have hmark : (punctuation? c).isSome = true ↔ c ∈ ['[', ']', '\x7b', '\x7d', ',', ':'] := by
    rw [punctuation?.eq_def]
    split <;> simp_all
  rw [isWordChar, Bool.not_eq_false', Bool.or_eq_true, Bool.or_eq_true, hmark]
  simp [isBlank]
  tauto

/-- The characters of numbers are word characters. -/
theorem isWordChar_of_isNumeric {c : Char} (h : Number.isNumeric c = true) : isWordChar c = true := by
  have hall : ∀ c ∈ [' ', '\t', '\n', '\r', '[', ']', '\x7b', '\x7d', ',', ':', '"'],
      Number.isNumeric c = false := by simp [Number.isNumeric]
  by_contra hword
  rw [hall c (not_isWordChar_iff.1 (Bool.eq_false_iff.2 hword))] at h
  cases h

/-- A text where a word ends: it does not go on with a word character. -/
def Ends (text : List Char) : Prop := ∀ c tail, text = c :: tail → isWordChar c = false

theorem ends_cons {c : Char} {tail : List Char} (h : isWordChar c = false) : Ends (c :: tail) := by
  intro d rest heq
  rw [← (List.cons.inj heq).1]
  exact h

/-- Word characters are collected. -/
theorem lexFrom_append {word : List Char} (hword : ∀ c ∈ word, isWordChar c = true)
    (before rest : List Char) :
    lexFrom before (word ++ rest) = lexFrom (word.reverse ++ before) rest := by
  induction word generalizing before with
  | nil => rfl
  | cons c word ih =>
    rw [List.cons_append, lexFrom, if_pos (hword c List.mem_cons_self),
      ih fun d hd => hword d (List.mem_cons_of_mem c hd), List.reverse_cons, List.append_assoc]
    rfl

/-- A word that has ended comes before the tokens of the text that follows. -/
theorem lexFrom_of_ended {c : Char} (hc : isWordChar c = false)
    {before text : List Char} {tokens : List Token}
    (hbefore : wordTokens? before.reverse = some tokens) :
    lexFrom before (c :: text) = (lexFrom [] (c :: text)).map (tokens ++ ·) := by
  rw [lexFrom, lexFrom, hbefore]
  simp only [hc, List.reverse_nil, wordTokens?]
  by_cases hquote : c = '"'
  · simp [hquote]
  · cases hmark : punctuation? c with
    | none => simp [hquote]
    | some mark => simp [hquote, Function.comp_def]

/-- A word is one token, where it ends. -/
theorem lexFrom_word {word text : List Char} {token : Token} (hword : ∀ c ∈ word, isWordChar c = true)
    (htoken : ofWord? word = some token) (hends : Ends text) :
    lexFrom [] (word ++ text) = (lexFrom [] text).map (token :: ·) := by
  have hne : word ≠ [] := by
    rintro rfl
    cases htoken
  have htokens : wordTokens? word = some [token] := by
    rw [wordTokens?, if_neg hne, htoken]
    rfl
  rw [lexFrom_append hword, List.append_nil]
  cases text with
  | nil => simp [lexFrom, wordTokens?, htoken, hne]
  | cons c tail =>
    exact lexFrom_of_ended (hends c tail rfl) (by rw [List.reverse_reverse, htokens])

/-- Blanks are left out. -/
theorem lexFrom_blank {c : Char} (h : isBlank c = true) (text : List Char) :
    lexFrom [] (c :: text) = lexFrom [] text := by
  have hcases : c = ' ' ∨ c = '\t' ∨ c = '\n' ∨ c = '\r' := by simpa [isBlank, or_assoc] using h
  obtain ⟨hword, hquote, hmark⟩ : isWordChar c = false ∧ c ≠ '"' ∧ punctuation? c = none := by
    rcases hcases with rfl | rfl | rfl | rfl
    all_goals exact ⟨rfl, by decide, rfl⟩
  rw [lexFrom]
  simp [hword, hquote, hmark, wordTokens?]

/-- A punctuation character is one token. -/
theorem lexFrom_punctuation {c : Char} {token : Token} (h : punctuation? c = some token)
    (text : List Char) :
    lexFrom [] (c :: text) = (lexFrom [] text).map (token :: ·) := by
  have hword : isWordChar c = false := by simp [isWordChar, h]
  have hquote : c ≠ '"' := by
    rintro rfl
    cases h
  rw [lexFrom]
  simp [hword, hquote, h, wordTokens?]

/-! ### Texts made of tokens -/

/-- A text is made of these tokens, with blanks in between. -/
inductive Spells : List Token → List Char → Prop where
  | done : Spells [] []
  | blank {c : Char} {tokens : List Token} {text : List Char} (blank : isBlank c = true)
      (rest : Spells tokens text) : Spells tokens (c :: text)
  | punctuation {c : Char} {token : Token} {tokens : List Token} {text : List Char}
      (mark : punctuation? c = some token) (rest : Spells tokens text) :
      Spells (token :: tokens) (c :: text)
  | word {word : List Char} {token : Token} {tokens : List Token} {text : List Char}
      (chars : ∀ c ∈ word, isWordChar c = true) (reads : ofWord? word = some token) (ends : Ends text)
      (rest : Spells tokens text) : Spells (token :: tokens) (word ++ text)
  | quoted (s : String) {tokens : List Token} {text : List Char} (rest : Spells tokens text) :
      Spells (.string (TextUnit.ofString s) :: tokens) (Json.quoted s ++ text)

/-- A text made of tokens is taken apart into them. -/
theorem lex_of_spells {tokens : List Token} {text : List Char} (h : Spells tokens text) :
    lex text = some tokens := by
  induction h with
  | done => rfl
  | blank blank _ ih =>
    rw [lex, lexFrom_blank blank]
    exact ih
  | punctuation mark _ ih =>
    rw [lex, lexFrom_punctuation mark]
    exact congrArg (Option.map _) ih
  | word chars reads ends _ ih =>
    rw [lex, lexFrom_word chars reads ends]
    exact congrArg (Option.map _) ih
  | quoted s _ ih =>
    rw [lex, lexFrom_quoted]
    exact congrArg (Option.map _) ih

/-- Any number of blanks may stand in front. -/
theorem Spells.blanks {blanks text : List Char} {tokens : List Token}
    (hblanks : ∀ c ∈ blanks, isBlank c = true)
    (h : Spells tokens text) : Spells tokens (blanks ++ text) := by
  induction blanks with
  | nil => exact h
  | cons c blanks ih =>
    exact .blank (hblanks c List.mem_cons_self) (ih fun d hd => hblanks d (List.mem_cons_of_mem c hd))

end Token

/-! ### Numerals -/

namespace Numeral

/-- Decimal digits without superfluous zeros are a numeral, with or without a minus sign in front. -/
theorem ofChars?_toDigits (n : Nat) :
    ofChars? (Nat.toDigits 10 n) = some ⟨false, Nat.toDigits 10 n, [], none⟩ ∧
      ofChars? ('-' :: Nat.toDigits 10 n) = some ⟨true, Nat.toDigits 10 n, [], none⟩ := by
  have hdigits : ∀ c ∈ Nat.toDigits 10 n, c.isDigit = true := fun c hc => isDigit_of_mem_toDigits_ten hc
  have htake : (Nat.toDigits 10 n).takeWhile Char.isDigit = Nat.toDigits 10 n :=
    List.takeWhile_eq_self_iff.2 hdigits
  have hdrop : (Nat.toDigits 10 n).dropWhile Char.isDigit = [] := List.dropWhile_eq_nil_iff.2 hdigits
  have hminus : ((Nat.toDigits 10 n).head? == some '-') = false := by
    rw [beq_eq_false_iff_ne]
    intro hhead
    exact absurd (hdigits '-' (List.mem_of_head? hhead)) (by decide)
  have hwhole : ¬ (Nat.toDigits 10 n = [] ∨
      (Nat.toDigits 10 n).head? = some '0' ∧ (Nat.toDigits 10 n).length ≠ 1) := by
    rintro (hnil | ⟨hzero, hlength⟩)
    · exact Nat.toDigits_ne_nil hnil
    · rcases Nat.eq_zero_or_pos n with rfl | hpos
      · exact hlength (by decide)
      · exact head?_toDigits_ne_zero hpos hzero
  constructor
  · simp only [ofChars?, hminus, Bool.false_eq_true, if_false, htake, hdrop]
    rw [if_neg hwhole]
    rfl
  · simp only [ofChars?, List.head?_cons, List.tail_cons, BEq.rfl, if_true, htake, hdrop]
    rw [if_neg hwhole]
    rfl

end Numeral

namespace Number

/-- The numeral that a number is printed as. -/
def numeral (n : Number) : Numeral := (Numeral.ofChars? n.text).getD ⟨false, [], [], none⟩

/-- The number is printed as a numeral that stands for it. -/
structure ReadsBack (n : Number) : Prop where
  ofChars?_text : Numeral.ofChars? n.text = some n.numeral
  value?_numeral : n.numeral.value? = some n

/-- A number that is printed as a numeral for it reads back. -/
theorem readsBack_of_ofChars? {n : Number} {numeral : Numeral}
    (h : Numeral.ofChars? n.text = some numeral)
    (hvalue : numeral.value? = some n) : n.ReadsBack := by
  have hnumeral : n.numeral = numeral := by rw [Number.numeral, h, Option.getD_some]
  constructor
  · rw [hnumeral, h]
  · rw [hnumeral, hvalue]

/-- Whole numbers read back. -/
theorem readsBack_integer (n : Integer64) : ReadsBack (.integer n) := by
  have hread : Nat.ofDigitChars 10 (Nat.toDigits 10 n.value.natAbs) 0 = n.value.natAbs :=
    Nat.ofDigitChars_ten_toDigits
  obtain ⟨hplain, hminus⟩ := Numeral.ofChars?_toDigits n.value.natAbs
  by_cases hneg : n.value < 0
  · have htext : Numeral.ofChars? (text (.integer n)) =
        some ⟨true, Nat.toDigits 10 n.value.natAbs, [], none⟩ := by
      rw [text, Integer64.text, if_pos hneg, hminus]
    have hne : n.value.natAbs ≠ 0 := by omega
    have hvalue : -(n.value.natAbs : Int) = n.value := by omega
    have hinteger : Numeral.integer? ⟨true, Nat.toDigits 10 n.value.natAbs, [], none⟩ = some n := by
      rw [Numeral.integer?]
      simp only [hread, hne, and_false, if_false, and_self, if_true]
      rw [hvalue, Integer64.ofInt?_value]
    exact readsBack_of_ofChars? htext (by rw [Numeral.value?, hinteger])
  · have htext : Numeral.ofChars? (text (.integer n)) =
        some ⟨false, Nat.toDigits 10 n.value.natAbs, [], none⟩ := by
      rw [text, Integer64.text, if_neg hneg, hplain]
    have hvalue : (n.value.natAbs : Int) = n.value := by omega
    have hinteger : Numeral.integer? ⟨false, Nat.toDigits 10 n.value.natAbs, [], none⟩ = some n := by
      rw [Numeral.integer?]
      simp only [hread, Bool.false_eq_true, false_and, if_false, and_self, if_true]
      rw [hvalue, Integer64.ofInt?_value]
    exact readsBack_of_ofChars? htext (by rw [Numeral.value?, hinteger])

/-- A number that reads back is one word. -/
theorem ReadsBack.ofWord?_text {n : Number} (h : n.ReadsBack) :
    Token.ofWord? n.text = some (.number n.numeral) := by
  have hname : ∀ c rest, Number.isNumeric c = false → n.text ≠ c :: rest := by
    intro c rest hc htext
    have hmem : c ∈ n.text := by
      rw [htext]
      exact List.mem_cons_self
    rw [n.isNumeric_of_mem_text c hmem] at hc
    cases hc
  rw [Token.ofWord?, if_neg (hname _ _ (by decide)), if_neg (hname _ _ (by decide)),
    if_neg (hname _ _ (by decide)), h.ofChars?_text]
  rfl

end Number

end Conform
