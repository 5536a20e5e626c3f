/-
Module: Conform.Proofs.Storage.Written
Purpose: Files that are written are found again. What is written leaves all directories as they are, so
  the paths that led to the place of the file still do, its absolute form among them.
Main exports: Tree.Extends, Tree.entryAt_of_write?, Tree.Keeps, Tree.Keeps.look_of_write?
-/
import Conform.Proofs.Storage.Places

namespace Conform

namespace Tree

variable {tree tree' : Tree} {path content : String} {place : List String}

/-! ### Growing trees -/

/-- The current directory is the same, and all directories are still there. -/
structure Extends (tree' tree : Tree) : Prop where
  current : tree'.current = tree.current
  directories : ∀ place, tree.isDirectory place = true → tree'.isDirectory place = true

/-- A name leads to the same place in a tree with more directories. -/
theorem Extends.step (hextends : tree'.Extends tree) {here there : List String} {name : String}
    (h : tree.step here name = some there) : tree'.step here name = some there := by
  by_cases hdirectory : tree.isDirectory here = true
  · rw [Tree.step, if_pos hdirectory] at h
    rw [Tree.step, if_pos (hextends.directories here hdirectory), h]
  · rw [Tree.step, if_neg hdirectory] at h
    cases h

/-- Names lead to the same place in a tree with more directories, one after the other. -/
theorem Extends.foldlM_step (hextends : tree'.Extends tree) {names : List String}
    {here there : List String}
    (h : names.foldlM tree.step here = some there) : names.foldlM tree'.step here = some there := by
  induction names generalizing here with
  | nil => exact h
  | cons name names ih =>
    rw [List.foldlM_cons, Option.bind_eq_bind, Option.bind_eq_some_iff] at h
    obtain ⟨next, hnext, hrest⟩ := h
    rw [List.foldlM_cons, hextends.step hnext, Option.bind_eq_bind, Option.bind_some]
    exact ih hrest

/-- A path leads to the same place in a tree with more directories. -/
theorem Extends.locate (hextends : tree'.Extends tree) (h : tree.locate path = some place) :
    tree'.locate path = some place := by
  have husable := isUsable_of_locate h
  rw [locate_eq husable] at h ⊢
  rw [hextends.current]
  exact hextends.foldlM_step h

/-- A tree with an entry at a place instead of the one that was there, if any, has all directories. -/
theorem extends_of_set {entry : Entry} {entries : List (List String × Entry)}
    (hentries : ∀ old ∈ tree.entries, old ∈ entries ∨ old.1 = place) :
    Extends ⟨(place, entry) :: entries, tree.current⟩ tree where
  current := rfl
  directories := by
    intro here hhere
    rw [isDirectory, Bool.or_eq_true_iff, List.any_eq_true] at hhere ⊢
    rcases hhere with hcurrent | ⟨old, hold, hbelow⟩
    · exact Or.inl hcurrent
    · rcases hentries old hold with hkept | hplace
      · exact Or.inr ⟨old, List.mem_cons_of_mem _ hkept, hbelow⟩
      · exact Or.inr ⟨(place, entry), List.mem_cons_self, hplace ▸ hbelow⟩

/-! ### Writing -/

/-- What is written somewhere other than to a device is found at the place of the path. -/
theorem entryAt_of_write? (hwrite : tree.write? path content = some tree')
    (hdevice : ∀ old, tree.look path ≠ .device old) :
    ∃ place, tree.locate path = some place ∧ tree'.Extends tree ∧
      tree'.entryAt place = .file content.toUTF8 := by
  rw [write?] at hwrite
  rw [look] at hdevice
  cases hplace : tree.locate path with
  | none =>
    rw [hplace] at hwrite
    cases hwrite
  | some place =>
    rw [hplace] at hwrite hdevice
    refine ⟨place, rfl, ?_⟩
    dsimp only at hwrite hdevice
    cases hentry : tree.entryAt place with
    | missing =>
      rw [hentry] at hwrite
      dsimp only at hwrite
      split at hwrite
      · cases hwrite
        exact ⟨extends_of_set fun old hold => Or.inl hold, by rw [entryAt, List.lookup_cons_self]⟩
      · cases hwrite
    | directory =>
      rw [hentry] at hwrite
      cases hwrite
    | file old =>
      rw [hentry] at hwrite
      cases hwrite
      refine ⟨extends_of_set fun old hold => ?_, by rw [entryAt, List.lookup_cons_self]⟩
      by_cases hold' : old.1 = place
      · exact Or.inr hold'
      · exact Or.inl (List.mem_filter.2 ⟨hold, by simpa using hold'⟩)
    | device old => exact absurd hentry (hdevice old)

/-- Whether a file is written does not depend on its content. -/
theorem isSome_write? (tree : Tree) (path content content' : String) :
    (tree.write? path content).isSome = (tree.write? path content').isSome := by
  rw [write?, write?]
  cases tree.locate path with
  | none => rfl
  | some place =>
    dsimp only
    cases tree.entryAt place with
    | missing =>
      dsimp only
      split <;> rfl
    | _ => rfl

/-- Paths to one place are written alike. -/
theorem write?_congr {path' : String} (h : tree.locate path = tree.locate path') (content : String) :
    tree.write? path content = tree.write? path' content := by
  rw [write?, h, ← write?]

/-- A path under which a file is kept: it can be written, does not lead to a device, which keeps nothing,
    and can be followed in its absolute form too. -/
structure Keeps (tree : Tree) (path : String) : Prop where
  writable : ∀ content, (tree.write? path content).isSome = true
  noDevice : ∀ old, tree.look path ≠ .device old
  followed : Path.isUsable (Path.inDirectory tree.currentPath path) = true

/-- The current directory keeps its path. -/
theorem Extends.currentPath (hextends : tree'.Extends tree) : tree'.currentPath = tree.currentPath := by
  rw [Tree.currentPath, hextends.current, Tree.currentPath]

/-- What is written is found under the absolute form of the path. -/
theorem Keeps.look_of_write? (hkeeps : tree.Keeps path) (hcurrent : tree.NamesCurrent)
    (hwrite : tree.write? path content = some tree') :
    tree'.currentPath = tree.currentPath ∧
      tree'.look (Path.inDirectory tree.currentPath path) = .file content.toUTF8 := by
  obtain ⟨place, hplace, hextends, hentry⟩ := entryAt_of_write? hwrite hkeeps.noDevice
  have habsolute := hextends.locate (locate_inDirectory hcurrent hkeeps.followed hplace)
  refine ⟨hextends.currentPath, ?_⟩
  rw [look, habsolute]
  exact hentry

end Tree

end Conform
