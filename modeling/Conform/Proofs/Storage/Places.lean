/-
Module: Conform.Proofs.Storage.Places
Purpose: The places that paths lead to. A relative path leads to the same place when the names of the
  current directory are put in front of it, and it keeps its file name there; single points in front of a
  path lead nowhere, but make it longer.
Main exports: Path.IsName, Path.fileName?_of_append, Tree.NamesCurrent, Tree.extension?_inDirectory,
  Tree.locate_inDirectory, Path.detour, Tree.locate_detour
-/
import Conform.Storage.Tree
import Mathlib.Data.List.Basic

namespace Conform

/-! ### Names on paths -/

namespace Path

/-- A name of a file or a directory: it is not empty, not made of one or two points, and
    holds no slash. -/
structure IsName (name : String) : Prop where
  notEmpty : name ≠ ""
  notHere : name ≠ "."
  notParent : name ≠ ".."
  noSlash : '/' ∉ name.toList

/-- The names on a path, among them empty ones and points. -/
def names (path : String) : List String := (path.toList.splitOn '/').map String.ofList

/-- Behind a slash, a reversed path that is more than slashes and points is trimmed as it is alone. -/
theorem dropTrailing_append {path front : List Char} (hname : dropTrailing path ≠ [])
    (hpoint : dropTrailing path ≠ ['.']) :
    dropTrailing (path ++ '/' :: front) = dropTrailing path ++ '/' :: front := by
  induction path using dropTrailing.induct with
  | case1 rest ih =>
    rw [dropTrailing] at hname hpoint ⊢
    exact ih hname hpoint
  | case2 rest ih =>
    rw [dropTrailing] at hname hpoint ⊢
    exact ih hname hpoint
  | case3 path hslash hhere =>
    have hself : dropTrailing path = path := dropTrailing.eq_3 path hslash hhere
    rw [hself] at hname hpoint ⊢
    refine dropTrailing.eq_3 _ (fun rest heq => ?_) (fun rest heq => ?_)
    · obtain ⟨c, cs, rfl⟩ := List.exists_cons_of_ne_nil hname
      obtain ⟨rfl, -⟩ := List.cons.inj heq
      exact hslash cs rfl
    · obtain ⟨c, cs, rfl⟩ := List.exists_cons_of_ne_nil hname
      obtain ⟨rfl, hcs⟩ := List.cons.inj heq
      cases cs with
      | nil => exact hpoint rfl
      | cons d ds =>
        obtain ⟨rfl, -⟩ := List.cons.inj hcs
        exact hhere ds rfl

/-- Only a path that is more than slashes and points has a file name. -/
theorem dropTrailing_ne_of_fileName? {path : String} {name : List Char} (h : fileName? path = some name) :
    dropTrailing path.toList.reverse ≠ [] ∧ dropTrailing path.toList.reverse ≠ ['.'] := by
  rw [fileName?, trimmed, List.reverse_reverse] at h
  constructor <;>
    · intro heq
      rw [heq] at h
      simp at h

/-- What stands in front of the first slash does not depend on what stands behind it. -/
theorem takeWhile_append_slash (text rest : List Char) :
    (text ++ '/' :: rest).takeWhile (· != '/') = text.takeWhile (· != '/') := by
  induction text with
  | nil => rfl
  | cons c text ih => rw [List.cons_append, List.takeWhile_cons, List.takeWhile_cons, ih]

/-- A file name does not depend on what stands in front of the path. -/
theorem fileName?_of_append {path whole : String} {front name : List Char}
    (hwhole : whole.toList = front ++ '/' :: path.toList) (h : fileName? path = some name) :
    fileName? whole = some name := by
  obtain ⟨hname, hpoint⟩ := dropTrailing_ne_of_fileName? h
  have htrimmed : (trimmed whole).reverse = (trimmed path).reverse ++ '/' :: front.reverse := by
    rw [trimmed, trimmed, List.reverse_reverse, List.reverse_reverse, hwhole]
    simpa using dropTrailing_append hname hpoint
  rw [fileName?, htrimmed, takeWhile_append_slash, ← fileName?, h]

variable {path : String}

/-- The absolute form of a relative path is no shorter than the directory and the path. -/
theorem le_utf8ByteSize_inDirectory (directory : String) (hrelative : isAbsolute path = false) :
    directory.utf8ByteSize + path.utf8ByteSize ≤ (inDirectory directory path).utf8ByteSize := by
  rw [inDirectory, hrelative, if_neg Bool.false_ne_true]
  split <;> simp only [String.utf8ByteSize_append] <;> omega

/-- The absolute form of a path ends as the path does. -/
theorem getLast?_inDirectory (directory : String) {c : Char} (h : path.toList.getLast? = some c) :
    (inDirectory directory path).toList.getLast? = some c := by
  rw [inDirectory]
  split
  · exact h
  · split <;> simp only [String.toList_append, List.getLast?_append, h] <;> rfl

/-- A path that ends with neither a slash nor a point is trimmed already. -/
theorem trimmed_of_getLast? {c : Char} (h : path.toList.getLast? = some c) (hslash : c ≠ '/')
    (hpoint : c ≠ '.') :
    trimmed path = path.toList := by
  obtain ⟨front, hfront⟩ := List.getLast?_eq_some_iff.1 h
  have hreverse : path.toList.reverse = c :: front.reverse := by rw [hfront]; simp
  have hdrop : dropTrailing (c :: front.reverse) = c :: front.reverse :=
    dropTrailing.eq_3 _ (fun rest heq => hslash (List.cons.inj heq).1) fun rest heq =>
      hpoint (List.cons.inj heq).1
  rw [trimmed, hreverse, hdrop, ← hreverse, List.reverse_reverse]

end Path

/-! ### Absolute forms of paths -/

namespace Tree

/-- The current directory is known by its names. -/
def NamesCurrent (tree : Tree) : Prop := ∀ name ∈ tree.current, Path.IsName name

variable {tree : Tree} {path : String} {place : List String}

/-- The path of a current directory other than the root. -/
theorem splitOn_currentPath (hcurrent : tree.NamesCurrent) (hroot : tree.current ≠ []) :
    tree.currentPath.toList.splitOn '/' = [] :: tree.current.map String.toList := by
  have hslash : ∀ name ∈ tree.current.map String.toList, '/' ∉ name := by
    intro name hname
    obtain ⟨name, hmem, rfl⟩ := List.mem_map.1 hname
    exact (hcurrent name hmem).noSlash
  have hchars : tree.currentPath.toList = [] ++
      '/' :: ['/'].intercalate (tree.current.map String.toList) := by
    rw [currentPath, String.toList_append, String.toList_intercalate]
    rfl
  rw [hchars, List.splitOn_append_cons_self, List.splitOn_intercalate _ hslash (by simpa using hroot)]
  rfl

/-- The path of a current directory other than the root does not end with a slash. -/
theorem getLast?_currentPath_ne (hcurrent : tree.NamesCurrent) (hroot : tree.current ≠ []) :
    tree.currentPath.toList.getLast? ≠ some '/' := by
  intro hlast
  obtain ⟨front, hfront⟩ := List.getLast?_eq_some_iff.1 hlast
  have hsplit := splitOn_currentPath hcurrent hroot
  rw [hfront, List.splitOn_append_cons_self, List.splitOn_nil] at hsplit
  -- The last of the pieces would be an empty name.
  have hempty := congrArg List.getLast? hsplit
  rw [List.getLast?_concat, List.getLast?_cons_of_ne_nil (by simpa using hroot)] at hempty
  obtain ⟨name, hmem, hname⟩ := List.mem_map.1 (List.mem_of_getLast? hempty.symm)
  exact (hcurrent name hmem).notEmpty (String.toList_eq_nil_iff.1 hname)

/-- A relative path stands in its absolute form behind the names of the current directory. -/
theorem toList_inDirectory (hcurrent : tree.NamesCurrent) (hrelative : Path.isAbsolute path = false) :
    ∃ front, (Path.inDirectory tree.currentPath path).toList = front ++ '/' :: path.toList ∧
      front.splitOn '/' = [] :: tree.current.map String.toList := by
  rw [Path.inDirectory, hrelative, if_neg Bool.false_ne_true]
  by_cases hroot : tree.current = []
  · rw [currentPath, hroot]
    exact ⟨[], by simp, rfl⟩
  · have hopen : tree.currentPath.toList.getLast?.all (· == '/') = false := by
      have hlast := getLast?_currentPath_ne hcurrent hroot
      cases hc : tree.currentPath.toList.getLast? with
      | none =>
        rw [currentPath, String.toList_append, List.getLast?_eq_none_iff] at hc
        cases hc
      | some c =>
        rw [hc] at hlast
        simpa using hlast
    rw [hopen, if_neg Bool.false_ne_true]
    exact ⟨_, by simp, splitOn_currentPath hcurrent hroot⟩

/-- The absolute form of a path has the extension of the path. -/
theorem extension?_inDirectory (hcurrent : tree.NamesCurrent) {ending : String}
    (h : Path.extension? path = some ending) :
    Path.extension? (Path.inDirectory tree.currentPath path) = some ending := by
  by_cases habsolute : Path.isAbsolute path = true
  · rwa [Path.inDirectory, if_pos habsolute]
  · obtain ⟨front, hwhole, -⟩ := toList_inDirectory hcurrent (Bool.eq_false_iff.2 habsolute)
    rw [Path.extension?, Option.bind_eq_some_iff] at h ⊢
    obtain ⟨name, hname, hending⟩ := h
    exact ⟨name, Path.fileName?_of_append hwhole hname, hending⟩

/-! ### Places of paths -/

/-- The names on the absolute form of a relative path: an empty one for the root, those of the current
    directory, and those on the path. -/
theorem names_inDirectory (hcurrent : tree.NamesCurrent) (hrelative : Path.isAbsolute path = false) :
    Path.names (Path.inDirectory tree.currentPath path) = "" :: tree.current ++ Path.names path := by
  obtain ⟨front, htext, hfront⟩ := toList_inDirectory hcurrent hrelative
  rw [Path.names, htext, List.splitOn_append_cons_self, hfront, List.map_append, Path.names]
  simp

/-- The absolute form of a path is absolute. -/
theorem isAbsolute_inDirectory (tree : Tree) (path : String) :
    Path.isAbsolute (Path.inDirectory tree.currentPath path) = true := by
  rw [Path.inDirectory]
  split
  · assumption
  · split <;> simp [Path.isAbsolute, currentPath]

/-- What is on the way to the current directory is a directory. -/
theorem isDirectory_on_way (h : place <+: tree.current) : tree.isDirectory place = true := by
  rw [isDirectory, Bool.or_eq_true_iff]
  exact Or.inl (List.isPrefixOf_iff_prefix.2 h)

/-- Names that lead on towards the current directory are followed one by one. -/
theorem foldlM_step_names {names : List String} (hnames : ∀ name ∈ names, Path.IsName name)
    (hway : place ++ names <+: tree.current) : names.foldlM tree.step place = some (place ++ names) := by
  induction names generalizing place with
  | nil => rw [List.append_nil]; rfl
  | cons name names ih =>
    obtain ⟨hname, hrest⟩ := List.forall_mem_cons.1 hnames
    have hhere : tree.isDirectory place = true :=
      isDirectory_on_way ((List.prefix_append place _).trans hway)
    have hstep : tree.step place name = some (place ++ [name]) := by
      rw [step, if_pos hhere, if_neg (by simp [hname.notEmpty, hname.notHere]), if_neg hname.notParent]
    have hmore : names.foldlM tree.step (place ++ [name]) = some (place ++ [name] ++ names) :=
      ih hrest (by simpa using hway)
    rw [List.foldlM_cons, hstep, Option.bind_eq_bind, Option.bind_some, hmore]
    simp

/-- The place of a path that can be followed. -/
theorem locate_eq (husable : Path.isUsable path = true) :
    tree.locate path =
      (Path.names path).foldlM tree.step (if Path.isAbsolute path then [] else tree.current) := by
  rw [locate, husable, if_neg (by decide), Path.names]

/-- Only a path that can be followed has a place. -/
theorem isUsable_of_locate (h : tree.locate path = some place) : Path.isUsable path = true := by
  rw [← Bool.not_eq_false]
  intro hunusable
  rw [locate, hunusable] at h
  cases h

/-- The absolute form of a path leads to the place of the path. -/
theorem locate_inDirectory (hcurrent : tree.NamesCurrent)
    (husable : Path.isUsable (Path.inDirectory tree.currentPath path) = true)
    (h : tree.locate path = some place) :
    tree.locate (Path.inDirectory tree.currentPath path) = some place := by
  by_cases habsolute : Path.isAbsolute path = true
  · rwa [Path.inDirectory, if_pos habsolute]
  · have hrelative : Path.isAbsolute path = false := Bool.eq_false_iff.2 habsolute
    rw [locate_eq (isUsable_of_locate h), if_neg habsolute] at h
    have hroot : tree.step [] "" = some [] := by
      rw [step, if_pos (isDirectory_on_way List.nil_prefix), if_pos (Or.inl rfl)]
    have hway : tree.current.foldlM tree.step [] = some tree.current :=
      foldlM_step_names hcurrent (List.prefix_rfl)
    rw [locate_eq husable, if_pos (isAbsolute_inDirectory tree path),
      names_inDirectory hcurrent hrelative, List.cons_append, List.foldlM_cons, hroot,
      Option.bind_eq_bind, Option.bind_some, List.foldlM_append, hway, Option.bind_eq_bind,
      Option.bind_some, h]

/-- Nothing is found under a path that is too long. -/
theorem look_of_long (tree : Tree) (hlong : 4095 < path.utf8ByteSize) : tree.look path = .missing := by
  have hunusable : Path.isUsable path = false := by
    rw [Path.isUsable, decide_eq_false (Nat.not_le.2 hlong), Bool.and_false, Bool.false_and]
  rw [look, locate, hunusable]
  rfl

end Tree

/-! ### Detours -/

namespace Path

/-- The path with a number of single points in front of it, which lead nowhere. -/
def detour : Nat → String → String
  | 0, path => path
  | n + 1, path => "./" ++ detour n path

variable {n : Nat} {path : String}

/-- A detour takes two bytes for each point. -/
theorem utf8ByteSize_detour (n : Nat) (path : String) :
    (detour n path).utf8ByteSize = 2 * n + path.utf8ByteSize := by
  induction n with
  | zero => rw [detour]; omega
  | succ n ih =>
    have hpoint : "./".utf8ByteSize = 2 := rfl
    rw [detour, String.utf8ByteSize_append, ih, hpoint]
    omega

/-- The characters of a detour around the path. -/
theorem toList_detour_succ (n : Nat) (path : String) :
    (detour (n + 1) path).toList = ['.'] ++ '/' :: (detour n path).toList := by
  rw [detour, String.toList_append]
  rfl

/-- A detour can be followed unless it is too long. -/
theorem isUsable_detour (husable : isUsable path = true) (hsize : 2 * n + path.utf8ByteSize ≤ 4095) :
    isUsable (detour n path) = true := by
  simp only [isUsable, Bool.and_eq_true, bne_iff_ne, decide_eq_true_eq] at husable ⊢
  obtain ⟨⟨hne, -⟩, hchars⟩ := husable
  refine ⟨⟨?_, by rwa [utf8ByteSize_detour]⟩, ?_⟩
  · intro hempty
    have hsize := utf8ByteSize_detour n path
    rw [hempty, String.utf8ByteSize_empty] at hsize
    exact hne (String.utf8ByteSize_eq_zero_iff.1 (by omega))
  · induction n with
    | zero => exact hchars
    | succ n ih =>
      rw [toList_detour_succ, List.singleton_append, List.all_cons, List.all_cons, ih (by omega)]
      rfl

/-- A detour ends as the path does. -/
theorem getLast?_detour {c : Char} (h : path.toList.getLast? = some c) :
    (detour n path).toList.getLast? = some c := by
  induction n with
  | zero => exact h
  | succ n ih => rw [toList_detour_succ, List.getLast?_append, List.getLast?_cons, ih]; rfl

/-- A detour is a relative path. -/
theorem isAbsolute_detour (h : isAbsolute path = false) : isAbsolute (detour n path) = false := by
  cases n with
  | zero => exact h
  | succ n =>
    rw [isAbsolute, toList_detour_succ]
    rfl

end Path

namespace Tree

variable {tree : Tree} {n : Nat} {path : String}

/-- A detour leads to the place of the path. -/
theorem locate_detour (hrelative : Path.isAbsolute path = false) (husable : Path.isUsable path = true)
    (hsize : 2 * n + path.utf8ByteSize ≤ 4095) : tree.locate (Path.detour n path) = tree.locate path := by
  rw [locate_eq (Path.isUsable_detour husable hsize), locate_eq husable,
    Path.isAbsolute_detour hrelative, hrelative]
  induction n with
  | zero => rfl
  | succ n ih =>
    have hhere : tree.step tree.current "." = some tree.current := by
      rw [step, if_pos (isDirectory_on_way List.prefix_rfl), if_pos (Or.inr rfl)]
    rw [← ih (by omega), Path.names, Path.toList_detour_succ, List.splitOn_append_cons_self]
    exact congrArg (Option.bind · _) hhere

end Tree

end Conform
