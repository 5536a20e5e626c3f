/-
Module: Conform.Entries
Purpose: Values under names, in the order in which the names first came up.
Main exports: Entries, Entries.set, Entries.lookup_set_self, Entries.lookup_set_of_ne,
  Entries.nodup_names_set
-/

namespace Conform

/-- Values under names. -/
abbrev Entries (α : Type) := List (String × α)

namespace Entries

variable {α : Type}

/-- Put a value under a name: in the place of the name if it is there, at the end if not. -/
def set (name : String) (value : α) : Entries α → Entries α
  | [] => [(name, value)]
  | (n, v) :: rest => if n = name then (n, value) :: rest else (n, v) :: set name value rest

/-- What was put under a name is found there. -/
theorem lookup_set_self (name : String) (value : α) (entries : Entries α) :
    (set name value entries).lookup name = some value := by
  induction entries with
  | nil => simp [set]
  | cons entry rest ih =>
    rcases entry with ⟨n, v⟩
    by_cases h : n = name
    · simp [set, h]
    · have : (name == n) = false := by simpa using fun e : name = n => h e.symm
      simp [set, h, List.lookup_cons, this, ih]

/-- Other names are not affected. -/
theorem lookup_set_of_ne {name other : String} (value : α) (entries : Entries α)
    (h : other ≠ name) : (set name value entries).lookup other = entries.lookup other := by
  have hne : (other == name) = false := by simpa using h
  induction entries with
  | nil => simp [set, h]
  | cons entry rest ih =>
    rcases entry with ⟨n, v⟩
    by_cases hn : n = name
    · subst hn
      simp [set, List.lookup_cons, hne]
    · simp only [set, hn, if_false, List.lookup_cons, ih]

/-- Putting a value under a name adds the name unless it is there. -/
theorem names_set (name : String) (value : α) (entries : Entries α) :
    (set name value entries).map Prod.fst =
      if name ∈ entries.map Prod.fst then entries.map Prod.fst
      else entries.map Prod.fst ++ [name] := by
  induction entries with
  | nil => simp [set]
  | cons entry rest ih =>
    rcases entry with ⟨n, v⟩
    by_cases hn : n = name
    · simp [set, hn]
    · have hne : ¬name = n := fun h => hn h.symm
      simp only [set, hn, if_false, List.map_cons, ih, List.mem_cons, hne, false_or]
      split <;> rfl

/-- Names stay distinct. -/
theorem nodup_names_set (name : String) (value : α) {entries : Entries α}
    (h : (entries.map Prod.fst).Nodup) : ((set name value entries).map Prod.fst).Nodup := by
  rw [names_set]
  split
  · exact h
  · rename_i hmem
    exact List.nodup_append.2 ⟨h, by simp, by
      intro a ha b hb
      simp only [List.mem_singleton] at hb
      exact fun hab => hmem (hb ▸ hab ▸ ha)⟩

end Entries
end Conform
