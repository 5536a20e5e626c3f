/-
Module: Conform.Proofs.Report.PathText
Purpose: What the text of a place tells about the place. Names are written as they are, so a name with a
  dot reads like two members, and one that ends in a number in brackets reads like an element. Without
  such names the text of a place determines the place.
Main exports: CompositeKey, Location.Plain, Location.eq_of_text_eq, Location.text_member_dotted,
  Location.text_member_indexed
-/
import Conform.Proofs.Numeric.DoubleText
import Conform.Proofs.Report.Location

namespace Conform

/-- A name that reads like two steps: a member and one of its members, or a member and one of its
    elements. -/
inductive CompositeKey : String → Prop where
  | dotted (outer inner : String) : CompositeKey (outer ++ "." ++ inner)
  | indexed (outer : String) (i : Nat) : CompositeKey (outer ++ "[" ++ toString i ++ "]")

/-- A name without dots and closing brackets is not composite. -/
theorem not_composite_of_unmarked {key : String} (hdot : '.' ∉ key.toList) (hbracket : ']' ∉ key.toList) :
    ¬ CompositeKey key := by
  intro h
  cases h with
  | dotted outer inner => simp at hdot
  | indexed outer i => simp at hbracket

/-- A name that is not composite has no dot. -/
theorem dot_not_mem_of_not_composite {key : String} (h : ¬ CompositeKey key) : '.' ∉ key.toList := by
  intro hmem
  obtain ⟨outer, inner, hsplit⟩ := List.append_of_mem hmem
  have hkey : key = String.ofList outer ++ "." ++ String.ofList inner :=
    String.toList_inj.1 (by simp [hsplit])
  rw [hkey] at h
  exact h (.dotted _ _)

/-- Where a text splits at a character that is not behind it, it splits in one way. -/
theorem append_cons_inj_right {a b a' b' : List Char} {m : Char} (hb : m ∉ b) (hb' : m ∉ b')
    (h : a ++ m :: b = a' ++ m :: b') : a = a' ∧ b = b' := by
  have hreverse : b.reverse ++ m :: a.reverse = b'.reverse ++ m :: a'.reverse := by
    simpa using congrArg List.reverse h
  obtain ⟨hbb, haa⟩ := FloatLayout.append_cons_inj (by simpa using hb) (by simpa using hb') hreverse
  exact ⟨List.reverse_injective haa, List.reverse_injective hbb⟩

namespace Location

/-- No name on the way is composite. -/
def Plain : Location → Prop
  | .whole => True
  | .member parent key => parent.Plain ∧ ¬ CompositeKey key
  | .element parent _ => parent.Plain

/-! ### Places that read alike -/

/-- A member with a dot in its name reads like a member of a member. -/
theorem text_member_dotted (parent : Location) (outer inner : String) :
    (parent.member (outer ++ "." ++ inner)).text = ((parent.member outer).member inner).text := by
  simp only [text, String.append_assoc]

/-- A member whose name ends in a number in brackets reads like an element of a member. -/
theorem text_member_indexed (parent : Location) (outer : String) (i : Nat) :
    (parent.member (outer ++ "[" ++ toString i ++ "]")).text =
      ((parent.member outer).element i).text := by
  simp only [text, String.append_assoc]

/-! ### Places told by their texts -/

variable {a b parent parent' : Location} {key key' : String} {i i' : Nat}

/-- The characters of a place begin with `$`. -/
theorem exists_toList_text (place : Location) : ∃ way, place.text.toList = '$' :: way := by
  obtain ⟨way, htext, -⟩ := place.exists_text_under
  exact ⟨way.toList, by simp [htext]⟩

theorem toList_text_member :
    (parent.member key).text.toList = parent.text.toList ++ '.' :: key.toList := by
  simp [text]

theorem toList_text_element : (parent.element i).text.toList =
    parent.text.toList ++ '[' :: (Nat.toDigits 10 i ++ [']']) := by
  simp [text]

/-- Only the whole reads `$`. -/
theorem eq_whole_of_text_eq (h : a.text = whole.text) : a = .whole := by
  have hlist : a.text.toList = ['$'] := by rw [h]; rfl
  cases a with
  | whole => rfl
  | member parent key =>
    obtain ⟨way, hway⟩ := parent.exists_toList_text
    rw [toList_text_member, hway] at hlist
    simp at hlist
  | element parent i =>
    obtain ⟨way, hway⟩ := parent.exists_toList_text
    rw [toList_text_element, hway] at hlist
    simp at hlist

/-- A member does not read like an element, unless its name is composite. -/
theorem text_member_ne_element (hkey : ¬ CompositeKey key) :
    (parent.member key).text ≠ (parent'.element i).text := by
  intro h
  have hlist := congrArg String.toList h
  rw [toList_text_member, toList_text_element] at hlist
  have hindex : '.' ∉ '[' :: (Nat.toDigits 10 i ++ [']']) := by
    intro hmem
    rcases List.mem_cons.1 hmem with hc | hmem
    · exact absurd hc (by decide)
    · rcases List.mem_append.1 hmem with hdigit | hc
      · exact absurd (isDigit_of_mem_toDigits_ten hdigit) (by decide)
      · exact absurd (List.mem_singleton.1 hc) (by decide)
  -- The name with its dot ends where the index does, and the longer of the two has the shorter one at its
  -- end.
  rcases List.append_eq_append_iff.1 hlist with ⟨between, -, hname⟩ | ⟨between, -, hsteps⟩
  · cases between with
    | nil => exact absurd (List.cons.inj hname).1 (by decide)
    | cons dot outer =>
      have hkey' : key = String.ofList outer ++ "[" ++ toString i ++ "]" :=
        String.toList_inj.1 (by simpa using (List.cons.inj hname).2)
      rw [hkey'] at hkey
      exact hkey (.indexed _ _)
  · exact hindex (hsteps ▸ List.mem_append_right between List.mem_cons_self)

/-- Members read alike only if they are the same, unless their names are composite. -/
theorem text_member_inj (hkey : ¬ CompositeKey key) (hkey' : ¬ CompositeKey key')
    (h : (parent.member key).text = (parent'.member key').text) :
    parent.text = parent'.text ∧ key = key' := by
  have hlist := congrArg String.toList h
  rw [toList_text_member, toList_text_member] at hlist
  obtain ⟨hparent, hname⟩ := append_cons_inj_right (dot_not_mem_of_not_composite hkey)
    (dot_not_mem_of_not_composite hkey') hlist
  exact ⟨String.toList_inj.1 hparent, String.toList_inj.1 hname⟩

/-- Elements read alike only if they are the same. -/
theorem text_element_inj (h : (parent.element i).text = (parent'.element i').text) :
    parent.text = parent'.text ∧ i = i' := by
  have hlist := congrArg String.toList h
  rw [toList_text_element, toList_text_element] at hlist
  have hbracket : ∀ j, '[' ∉ Nat.toDigits 10 j ++ [']'] := by
    intro j hmem
    rcases List.mem_append.1 hmem with hdigit | hc
    · exact absurd (isDigit_of_mem_toDigits_ten hdigit) (by decide)
    · exact absurd (List.mem_singleton.1 hc) (by decide)
  obtain ⟨hparent, hindex⟩ := append_cons_inj_right (hbracket i) (hbracket i') hlist
  exact ⟨String.toList_inj.1 hparent, toDigits_ten_injective (List.append_cancel_right hindex)⟩

/-- Places without composite names are told apart by their texts. -/
theorem eq_of_text_eq (ha : a.Plain) (hb : b.Plain) (h : a.text = b.text) : a = b := by
  induction a generalizing b with
  | whole => exact (eq_whole_of_text_eq h.symm).symm
  | member parent key ih =>
    cases b with
    | whole => exact eq_whole_of_text_eq h
    | member parent' key' =>
      obtain ⟨hparent, rfl⟩ := text_member_inj ha.2 hb.2 h
      rw [ih ha.1 hb.1 hparent]
    | element parent' i => exact absurd h (text_member_ne_element ha.2)
  | element parent i ih =>
    cases b with
    | whole => exact eq_whole_of_text_eq h
    | member parent' key => exact absurd h.symm (text_member_ne_element hb.2)
    | element parent' i' =>
      obtain ⟨hparent, rfl⟩ := text_element_inj h
      rw [ih (b := parent') ha hb hparent]

end Location

end Conform
