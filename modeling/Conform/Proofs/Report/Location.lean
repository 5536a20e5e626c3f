/-
Module: Conform.Proofs.Report.Location
Purpose: Places seen from another place. A place is a way, and it can be gone from anywhere: the text of
  the place reached is the text of the start with the way written behind it. A way leads from a value to
  the values inside it.
Main exports: Location.under, Location.depth, Location.Below, Location.Leads, Diagnostic.relocate,
  Location.exists_text_under, Finding.diagnostic_under, Report.relocate_append
-/
import Conform.Report.Basic

namespace Conform

namespace Location

/-- The place that a way leads to when it begins at `base` and not at the whole. -/
def under : Location → Location → Location
  | .whole, base => base
  | .member parent key, base => .member (parent.under base) key
  | .element parent i, base => .element (parent.under base) i

@[simp] theorem whole_under (base : Location) : whole.under base = base := rfl

@[simp] theorem member_under (parent base : Location) (key : String) :
    (parent.member key).under base = (parent.under base).member key := rfl

@[simp] theorem element_under (parent base : Location) (i : Nat) :
    (parent.element i).under base = (parent.under base).element i := rfl

/-- Two ways one after the other lead where the second leads from the end of the first. -/
theorem under_under (way place base : Location) :
    (way.under place).under base = way.under (place.under base) := by
  induction way with
  | whole => rfl
  | member parent key ih => rw [member_under, member_under, member_under, ih]
  | element parent i ih => rw [element_under, element_under, element_under, ih]

/-- How many members and elements are on the way. -/
def depth : Location → Nat
  | .whole => 0
  | .member parent _ => parent.depth + 1
  | .element parent _ => parent.depth + 1

theorem depth_under (way base : Location) : (way.under base).depth = way.depth + base.depth := by
  induction way with
  | whole => exact (Nat.zero_add _).symm
  | member parent key ih => rw [member_under, depth, ih, depth, Nat.add_right_comm]
  | element parent i ih => rw [element_under, depth, ih, depth, Nat.add_right_comm]

/-- A way without a step is no way. -/
theorem eq_whole_of_depth {way : Location} (h : way.depth = 0) : way = .whole := by
  cases way with
  | whole => rfl
  | member parent key => exact absurd h (Nat.succ_ne_zero _)
  | element parent i => exact absurd h (Nat.succ_ne_zero _)

/-- No way of some length leads back to where it begins. -/
theorem eq_whole_of_under_eq {way base : Location} (h : way.under base = base) : way = .whole := by
  have hdepth := congrArg depth h
  rw [depth_under] at hdepth
  exact eq_whole_of_depth (by omega)

/-- Ways from two places of the same depth meet only if the places are the same. -/
theorem eq_of_under_eq_under {way way' a b : Location} (h : way.under a = way'.under b)
    (hdepth : a.depth = b.depth) : a = b := by
  have hways : way.depth = way'.depth := by
    have hsum := congrArg depth h
    rw [depth_under, depth_under] at hsum
    omega
  induction way generalizing way' with
  | whole =>
    obtain rfl := eq_whole_of_depth hways.symm
    exact h
  | member parent key ih =>
    cases way' with
    | whole => cases hways
    | member parent' key' => exact ih (Location.member.inj h).1 (Nat.succ.inj hways)
    | element parent' i' => cases h
  | element parent i ih =>
    cases way' with
    | whole => cases hways
    | member parent' key' => cases h
    | element parent' i' => exact ih (Location.element.inj h).1 (Nat.succ.inj hways)

/-- A place is strictly deeper than another: a way of some length leads there. -/
def Below (place base : Location) : Prop := ∃ way : Location, way ≠ .whole ∧ place = way.under base

/-- The text of a place is `$` with the way behind it, and a way is written alike wherever it begins. -/
theorem exists_text_under (place : Location) :
    ∃ way, place.text = "$" ++ way ∧ ∀ base, (place.under base).text = base.text ++ way := by
  induction place with
  | whole => exact ⟨"", rfl, fun base => String.append_empty.symm⟩
  | member parent key ih =>
    obtain ⟨way, hwhole, hbase⟩ := ih
    refine ⟨way ++ "." ++ key, ?_, fun base => ?_⟩
    · simp only [text, hwhole, String.append_assoc]
    · simp only [under, text, hbase, String.append_assoc]
  | element parent i ih =>
    obtain ⟨way, hwhole, hbase⟩ := ih
    refine ⟨way ++ "[" ++ toString i ++ "]", ?_, fun base => ?_⟩
    · simp only [text, hwhole, String.append_assoc]
    · simp only [under, text, hbase, String.append_assoc]

/-- A way leads from a value to a value inside it, over members of objects and elements of arrays. -/
inductive Leads (value : Json) : Location → Json → Prop where
  | whole : Leads value .whole value
  | member {parent : Location} {members : List (String × Json)} {key : String} {part : Json}
      (leads : Leads value parent (.object members)) (mem : (key, part) ∈ members) :
      Leads value (.member parent key) part
  | element {parent : Location} {items : List Json} {i : Nat} {part : Json}
      (leads : Leads value parent (.array items)) (at_index : items[i]? = some part) :
      Leads value (.element parent i) part

end Location

/-! ### Diagnostics -/

/-- The diagnostic with another path in the place of the leading `$`. -/
def Diagnostic.relocate (path : String) (d : Diagnostic) : Diagnostic :=
  { d with path := path ++ String.ofList d.path.toList.tail }

/-- The finding at the place that its way leads to from `base`. -/
def Finding.under (base : Location) (f : Finding) : Finding := ⟨f.location.under base, f.violation⟩

/-- A finding elsewhere is reported with another path in the place of `$`. -/
theorem Finding.diagnostic_under (base : Location) (f : Finding) :
    (f.under base).diagnostic = f.diagnostic.relocate base.text := by
  obtain ⟨way, hwhole, hbase⟩ := f.location.exists_text_under
  have htail : String.ofList ("$" ++ way).toList.tail = way := by simp
  simp only [Finding.diagnostic, Finding.under, Diagnostic.relocate, hbase, hwhole, htail]

/-- Findings elsewhere are reported with another path in the place of `$`. -/
theorem Report.relocate_append (base : Location) (findings : List Finding) :
    (findings.map (Finding.under base)).map Finding.diagnostic =
      (Report.empty.append findings).items.map (Diagnostic.relocate base.text) := by
  simp only [Report.items_append, Report.items_empty, List.nil_append, List.map_map]
  exact List.map_congr_left fun f _ => f.diagnostic_under base

end Conform
