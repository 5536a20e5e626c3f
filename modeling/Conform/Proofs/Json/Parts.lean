/-
Module: Conform.Proofs.Json.Parts
Purpose: The parts of a value and induction over them. What holds of a value whenever it holds of its
  elements and members holds of all values.
Main exports: Json.Part, Json.partInduction, Json.Within, Json.proper_of_mem_items,
  Json.proper_of_mem_members, Json.Part.proper
-/
import Conform.Json.Basic
import Mathlib.Logic.Relation

namespace Conform
namespace Json

/-- A value is an element or a member of another. -/
inductive Part : Json → Json → Prop where
  | element {v : Json} {items : List Json} (mem : v ∈ items) : Part v (.array items)
  | member {key : String} {v : Json} {members : List (String × Json)} (mem : (key, v) ∈ members) :
      Part v (.object members)

/-- An object has a member with a key. -/
def HasMember : Json → String → Json → Prop
  | .object members, key, part => (key, part) ∈ members
  | _, _, _ => False

/-- An array has an element. -/
def HasElement : Json → Json → Prop
  | .array items, part => part ∈ items
  | _, _ => False

/-- A member is a part. -/
theorem HasMember.part {value part : Json} {key : String} (h : value.HasMember key part) :
    Part part value := by
  cases value with
  | object members => exact .member h
  | _ => exact h.elim

/-- An element is a part. -/
theorem HasElement.part {value part : Json} (h : value.HasElement part) : Part part value := by
  cases value with
  | array items => exact .element h
  | _ => exact h.elim

/-- A part is smaller than the whole. -/
theorem Part.sizeOf_lt {part whole : Json} (h : Part part whole) : sizeOf part < sizeOf whole := by
  cases h with
  | element mem =>
    have hlt := List.sizeOf_lt_of_mem mem
    rw [Json.array.sizeOf_spec]
    omega
  | member mem =>
    have hlt := List.sizeOf_lt_of_mem mem
    rw [Prod.mk.sizeOf_spec] at hlt
    rw [Json.object.sizeOf_spec]
    omega

/-- Induction over the parts of a value. -/
theorem partInduction {P : Json → Prop} (step : ∀ v, (∀ part, Part part v → P part) → P v) (v : Json) :
    P v :=
  step v fun part _ => partInduction step part
termination_by sizeOf v
decreasing_by exact Part.sizeOf_lt ‹_›

/-- A value is found inside another, at any depth. -/
def Within : Json → Json → Prop := Relation.ReflTransGen Part

theorem Within.refl (v : Json) : Within v v := Relation.ReflTransGen.refl

/-- What is inside a part is inside the whole. -/
theorem Within.of_part {u v w : Json} (h : Within u v) (hp : Part v w) : Within u w := h.tail hp

/-- A value inside another is the whole or inside a part. -/
theorem within_iff {u v : Json} : Within u v ↔ u = v ∨ ∃ part, Part part v ∧ Within u part := by
  constructor
  · intro h
    rcases Relation.ReflTransGen.cases_tail h with rfl | ⟨part, hu, hpart⟩
    · exact Or.inl rfl
    · exact Or.inr ⟨part, hpart, hu⟩
  · rintro (rfl | ⟨part, hpart, hu⟩)
    · exact .refl u
    · exact hu.of_part hpart

/-! ### Proper parts -/

theorem proper_of_mem_items : ∀ {items : List Json}, ProperItems items →
    ∀ {v : Json}, v ∈ items → v.Proper
  | _ :: _, h, _, hv => by
    rcases List.mem_cons.1 hv with rfl | hv
    · exact h.1
    · exact proper_of_mem_items h.2 hv

theorem proper_of_mem_members : ∀ {members : List (String × Json)}, ProperMembers members →
    ∀ {key : String} {v : Json}, (key, v) ∈ members → v.Proper
  | (_, _) :: _, h, _, _, hv => by
    rcases List.mem_cons.1 hv with heq | hv
    · cases heq
      exact h.1
    · exact proper_of_mem_members h.2 hv

/-- A part of a proper value is proper. -/
theorem Part.proper {part whole : Json} (h : Part part whole) (hproper : whole.Proper) : part.Proper := by
  cases h with
  | element mem => exact proper_of_mem_items hproper mem
  | member mem => exact proper_of_mem_members hproper.2 mem

end Json
end Conform
