/-
Module: Conform.Proofs.Storage.Beside
Purpose: Paths that are named relative to another file. What stands in front of the last name on a path is
  its directory, whichever slashes and single points are written around the names. A path that is named
  beside a file is followed from the directory that the file is in.
Main exports: Path.steps, Path.DirectoryOf, Path.directoryOf_directory?,
  Path.DirectoryOf.beside_eq_append, Tree.follow, Tree.locate_beside, Tree.NamedBeside,
  Tree.namedBeside_beside
-/
import Conform.Proofs.Storage.Places

namespace Conform

/-! ### Names that lead somewhere -/

namespace Path

/-- A name that leads somewhere is not empty and no single point. -/
def leads (name : String) : Bool := name != "" && name != "."

/-- The names on a path that lead somewhere. -/
def steps (path : String) : List String := (names path).filter leads

/-- The names on both sides of a slash. -/
theorem names_of_slash {path : String} {front rest : List Char} (h : path.toList = front ++ '/' :: rest) :
    names path = names (String.ofList front) ++ names (String.ofList rest) := by
  rw [names, h, List.splitOn_append_cons_self, List.map_append, names, names, String.toList_ofList,
    String.toList_ofList]

/-- Whether a path is absolute is told in front of any slash on it, or by this slash. -/
theorem isAbsolute_append_slash (front rest : String) :
    isAbsolute (front ++ "/" ++ rest) = isAbsolute (front ++ "/") := by
  rw [isAbsolute, isAbsolute, String.toList_append, List.head?_append_of_ne_nil]
  simp

/-- The steps on both sides of a slash. -/
theorem steps_ofList (front rest : List Char) : steps (String.ofList (front ++ '/' :: rest)) =
    steps (String.ofList front) ++ steps (String.ofList rest) := by
  rw [steps, names_of_slash String.toList_ofList, List.filter_append, steps, steps]

/-- A name without a slash is one step, unless it is empty or a single point. -/
theorem steps_of_noSlash {name : List Char} (hslash : '/' ∉ name) (hempty : name ≠ [])
    (hpoint : name ≠ ['.']) :
    steps (String.ofList name) = [String.ofList name] := by
  have hne : String.ofList name ≠ "" := fun h => hempty (by simpa using congrArg String.toList h)
  have hne' : String.ofList name ≠ "." := fun h => hpoint (by simpa using congrArg String.toList h)
  rw [steps, names, String.toList_ofList, List.splitOn_eq_singleton hslash]
  simp [leads, hne, hne']

/-! ### Ends of paths -/

/-- A text that leads nowhere: it is empty, or a slash with no step behind it. -/
inductive Idle : List Char → Prop where
  | nothing : Idle []
  | slash {rest : List Char} (idle : steps (String.ofList rest) = []) : Idle ('/' :: rest)

/-- What leads nowhere adds no step to a path. -/
theorem Idle.steps_append {idle : List Char} (h : Idle idle) (text : List Char) :
    steps (String.ofList (text ++ idle)) = steps (String.ofList text) := by
  cases h with
  | nothing => rw [List.append_nil]
  | slash idle => rw [steps_ofList, idle, List.append_nil]

/-- Texts that lead nowhere, one behind the other. -/
theorem Idle.append {idle idle' : List Char} (h : Idle idle) (h' : Idle idle') :
    Idle (idle ++ idle') := by
  cases h with
  | nothing => exact h'
  | slash idle => exact .slash ((h'.steps_append _).trans idle)

/-- In front of a slash, what leads nowhere begins with a slash as well, and it adds no step to what
    follows. -/
theorem Idle.exists_rest {idle : List Char} (h : Idle idle) (text : List Char) :
    ∃ rest, idle ++ '/' :: text = '/' :: rest ∧
    steps (String.ofList rest) = steps (String.ofList text) := by
  cases h with
  | nothing => exact ⟨text, rfl, rfl⟩
  | @slash between idle =>
      exact ⟨between ++ '/' :: text, rfl, by rw [steps_ofList, idle, List.nil_append]⟩

/-- The slashes and single points that are trimmed off a path lead nowhere. -/
theorem exists_idle_of_dropTrailing (reversed : List Char) :
    ∃ idle, Idle idle ∧ reversed.reverse = (dropTrailing reversed).reverse ++ idle := by
  induction reversed using dropTrailing.induct with
  | case1 rest ih =>
    obtain ⟨idle, hidle, htext⟩ := ih
    exact ⟨idle ++ ['/'], hidle.append (.slash rfl), by
      rw [dropTrailing, List.reverse_cons, htext, List.append_assoc]⟩
  | case2 rest ih =>
    obtain ⟨idle, hidle, htext⟩ := ih
    exact ⟨idle ++ ['/', '.'], hidle.append (.slash rfl), by simp [dropTrailing, htext]⟩
  | case3 reversed hslash hpoint =>
    exact ⟨[], .nothing, by rw [dropTrailing.eq_3 reversed hslash hpoint, List.append_nil]⟩

/-- A path that is trimmed ends neither with a slash nor with a single point behind a slash. -/
theorem dropTrailing_ne_cons (reversed rest : List Char) :
    dropTrailing reversed ≠ '/' :: rest ∧ dropTrailing reversed ≠ '.' :: '/' :: rest := by
  induction reversed using dropTrailing.induct with
  | case1 _ ih => rwa [dropTrailing]
  | case2 _ ih => rwa [dropTrailing]
  | case3 reversed hslash hpoint =>
    rw [dropTrailing.eq_3 reversed hslash hpoint]
    exact ⟨hslash rest, hpoint rest⟩

/-- A path is what is left of it when it is trimmed, and an end that leads nowhere. -/
theorem exists_idle_of_trimmed (path : String) :
    ∃ idle, Idle idle ∧ path.toList = trimmed path ++ idle := by
  obtain ⟨idle, hidle, htext⟩ := exists_idle_of_dropTrailing path.toList.reverse
  rw [List.reverse_reverse] at htext
  exact ⟨idle, hidle, htext⟩

/-- If there is a slash on a trimmed path, a name that leads somewhere stands behind the last one. -/
theorem exists_name_of_trimmed {path : String} (hslash : '/' ∈ trimmed path) :
    ∃ front name, trimmed path = front ++ '/' :: name ∧
    steps (String.ofList name) = [String.ofList name] ∧
      (trimmed path).reverse.dropWhile (· != '/') = '/' :: front.reverse := by
  obtain ⟨reversed, front, htrimmed, hname⟩ := List.eq_append_cons_of_mem (List.mem_reverse.2 hslash)
  have hends := dropTrailing_ne_cons path.toList.reverse front
  have hdropped : dropTrailing path.toList.reverse = reversed ++ '/' :: front := by
    rw [← htrimmed, trimmed, List.reverse_reverse]
  rw [hdropped] at hends
  refine ⟨front.reverse, reversed.reverse, ?_, steps_of_noSlash (by simpa using hname) ?_ ?_, ?_⟩
  · rw [← List.reverse_reverse (trimmed path), htrimmed]
    simp
  · intro hnil
    rw [List.reverse_eq_nil_iff.1 hnil] at hends
    exact hends.1 rfl
  · intro hpoint
    rw [List.reverse_eq_iff.1 hpoint] at hends
    exact hends.2 rfl
  · have hall : ∀ c ∈ reversed, (c != '/') = true := by
      intro c hc
      refine bne_iff_ne.2 ?_
      rintro rfl
      exact hname hc
    rw [htrimmed, List.dropWhile_append_of_pos hall, List.reverse_reverse]
    rfl

/-! ### Directories -/

/-- The directory in front of the last name on a path: nothing, if this is the only name on a relative
    path, or what stands in front of the name up to a slash. -/
inductive DirectoryOf (path : String) : String → Prop where
  | none {name : String} (relative : isAbsolute path = false) (last : steps path = [name]) :
      DirectoryOf path ""
  | front {front rest name : String} (text : path = front ++ "/" ++ rest) (last : steps rest = [name]) :
      DirectoryOf path (front ++ "/")

/-- The directory of a path with a name that leads somewhere is what stands in front of the last of these
    names. -/
theorem directoryOf_directory? {path : String} (h : steps path ≠ []) :
    ∃ directory, directory? path = some directory ∧ DirectoryOf path directory := by
  obtain ⟨idle, hidle, htext⟩ := exists_idle_of_trimmed path
  have hsteps : steps path = steps (String.ofList (trimmed path)) := by
    rw [← hidle.steps_append, ← htext, String.ofList_toList]
  have hne : trimmed path ≠ [] := by
    intro hnil
    rw [hsteps, hnil] at h
    exact h rfl
  by_cases hslash : '/' ∈ trimmed path
  · -- The front is trimmed once more, so the slash behind the directory may be another one than that
    -- before the name.
    obtain ⟨front, name, htrimmed, hname, hfront⟩ := exists_name_of_trimmed hslash
    obtain ⟨between, hbetween, hdirectory⟩ := exists_idle_of_dropTrailing front.reverse
    rw [List.reverse_reverse] at hdirectory
    obtain ⟨rest, hrest, hstep⟩ := hbetween.exists_rest (name ++ idle)
    have hpath : path =
        String.ofList (dropTrailing front.reverse).reverse ++ "/" ++ String.ofList rest := by
      have hfront : front ++ '/' :: (name ++ idle) =
          (dropTrailing front.reverse).reverse ++ '/' :: rest := by
        rw [← hrest, ← List.append_assoc, ← hdirectory]
      apply String.toList_inj.1
      rw [htext, htrimmed, List.append_assoc, List.cons_append, hfront]
      simp
    refine ⟨_, ?_, .front hpath ((hstep.trans (hidle.steps_append name)).trans hname)⟩
    rw [directory?]
    simp [hne, hslash, hfront, dropTrailing]
  · have hpoint : trimmed path ≠ ['.'] := by
      intro hpoint
      rw [hsteps, hpoint] at h
      exact h rfl
    have hrelative : isAbsolute path = false := by
      obtain ⟨c, rest, hc⟩ := List.exists_cons_of_ne_nil hne
      rw [isAbsolute, htext, hc]
      rw [hc] at hslash
      simpa using fun heq : c = '/' => hslash (heq ▸ List.mem_cons_self)
    refine ⟨"", ?_, .none hrelative (hsteps.trans (steps_of_noSlash hslash hne hpoint))⟩
    rw [directory?]
    simp [hne, hslash]

/-- A relative path that is named beside a file is written behind the directory of the file. -/
theorem DirectoryOf.beside_eq_append {path directory target : String} (h : DirectoryOf path directory)
    (hfound : directory? path = some directory) (hrelative : isAbsolute target = false) :
    beside path target = directory ++ target := by
  have hclosed : directory.toList.getLast?.all (· == '/') = true := by
    cases h with
    | none => rfl
    | front => simp
  rw [beside, hfound, Option.getD_some, inDirectory, hrelative, if_neg Bool.false_ne_true, if_pos hclosed]

/-- An absolute path is what it is beside any file. -/
theorem beside_of_isAbsolute {path target : String} (h : isAbsolute target = true) :
    beside path target = target := by
  rw [beside, inDirectory, if_pos h]

end Path

/-! ### Places -/

namespace Tree

variable {tree : Tree} {here there place : List String} {path target : String}

/-- The place that a path leads to from a place. -/
def follow (tree : Tree) (here : List String) (path : String) : Option (List String) :=
  (Path.names path).foldlM tree.step here

/-- Where a path with a slash leads, first its front leads and then the rest. -/
theorem follow_append_slash (tree : Tree) (here : List String) (front rest : String) :
    tree.follow here (front ++ "/" ++ rest) = (tree.follow here front).bind (tree.follow · rest) := by
  have htext : (front ++ "/" ++ rest).toList = front.toList ++ '/' :: rest.toList := by simp
  rw [follow, Path.names_of_slash htext, List.foldlM_append, String.ofList_toList, String.ofList_toList]
  rfl

/-- A name that leads nowhere leads from a directory to itself. -/
theorem eq_of_step {name : String} (hidle : Path.leads name = false)
    (h : tree.step here name = some there) :
    there = here := by
  have hname : name = "" ∨ name = "." := by simpa [Path.leads, ← or_iff_not_imp_left] using hidle
  rw [step, if_pos hname] at h
  split at h
  · exact (Option.some.inj h).symm
  · cases h

/-- Names that lead nowhere can be left out. -/
theorem foldlM_step_filter {names : List String} (h : names.foldlM tree.step here = some there) :
    (names.filter Path.leads).foldlM tree.step here = some there := by
  induction names generalizing here with
  | nil => exact h
  | cons name names ih =>
    rw [List.foldlM_cons, Option.bind_eq_bind, Option.bind_eq_some_iff] at h
    obtain ⟨next, hnext, hrest⟩ := h
    cases hname : Path.leads name with
    | false =>
      rw [List.filter_cons_of_neg (by rw [hname]; exact Bool.false_ne_true), ← eq_of_step hname hnext]
      exact ih hrest
    | true =>
      rw [List.filter_cons_of_pos hname, List.foldlM_cons, hnext, Option.bind_eq_bind, Option.bind_some]
      exact ih hrest

/-- What is in front of a directory is a directory. -/
theorem isDirectory_above (hfront : here <+: there) (h : tree.isDirectory there = true) :
    tree.isDirectory here = true := by
  by_cases heq : here = there
  · rw [heq, h]
  · rw [isDirectory, Bool.or_eq_true_iff, List.any_eq_true] at h ⊢
    simp only [Bool.and_eq_true, bne_iff_ne, List.isPrefixOf_iff_prefix] at h ⊢
    rcases h with hcurrent | ⟨entry, hentry, -, hbelow⟩
    · exact .inl (hfront.trans hcurrent)
    · refine .inr ⟨entry, hentry, ?_, hfront.trans hbelow⟩
      rintro rfl
      exact heq (hfront.eq_of_length_le hbelow.length_le)

/-- A single step that does not lead to a directory leads into the directory where it is taken. -/
theorem dropLast_of_follow {name : String} (hlast : Path.steps path = [name])
    (hfile : tree.isDirectory place = false) (h : tree.follow here path = some place) :
    place.dropLast = here := by
  have hname : Path.leads name = true := by
    have hmem : name ∈ Path.steps path := by
      rw [hlast]
      exact List.mem_singleton_self name
    exact (List.mem_filter.1 hmem).2
  have hstep : tree.step here name = some place := by
    have hsteps := foldlM_step_filter h
    rw [← Path.steps, hlast] at hsteps
    simpa using hsteps
  rw [step] at hstep
  split at hstep
  case isFalse => cases hstep
  case isTrue hhere =>
    rw [if_neg (by simpa [Path.leads] using hname)] at hstep
    split at hstep
    · -- The directory above is a directory.
      cases hstep
      rw [isDirectory_above (List.dropLast_prefix here) hhere] at hfile
      cases hfile
    · cases hstep
      exact List.dropLast_concat

/-- The places that paths start from are directories. -/
theorem isDirectory_start (tree : Tree) (path : String) :
    tree.isDirectory (if Path.isAbsolute path then [] else tree.current) = true := by
  split
  · exact isDirectory_on_way List.nil_prefix
  · exact isDirectory_on_way List.prefix_rfl

/-- A path that does not lead to a directory has a name on it that leads somewhere. -/
theorem steps_ne_nil_of_locate (hplace : tree.locate path = some place)
    (hfile : tree.isDirectory place = false) :
    Path.steps path ≠ [] := by
  rw [locate_eq (isUsable_of_locate hplace)] at hplace
  intro hnil
  have hsteps := foldlM_step_filter hplace
  rw [← Path.steps, hnil] at hsteps
  cases hsteps
  rw [isDirectory_start] at hfile
  cases hfile

/-- A path that is named beside a file is followed from the directory that the file is in. -/
theorem locate_beside (hplace : tree.locate path = some place) (hfile : tree.isDirectory place = false)
    (hrelative : Path.isAbsolute target = false)
    (husable : Path.isUsable (Path.beside path target) = true) :
    tree.locate (Path.beside path target) = tree.follow place.dropLast target := by
  obtain ⟨directory, hfound, hdirectory⟩ :=
    Path.directoryOf_directory? (steps_ne_nil_of_locate hplace hfile)
  rw [locate_eq (isUsable_of_locate hplace)] at hplace
  rw [locate_eq husable, hdirectory.beside_eq_append hfound hrelative]
  change tree.follow _ _ = some place at hplace
  change tree.follow _ _ = _
  cases hdirectory with
  | none hpathRelative last =>
    rw [hpathRelative, if_neg Bool.false_ne_true] at hplace
    rw [dropLast_of_follow last hfile hplace, String.empty_append, hrelative, if_neg Bool.false_ne_true]
  | @front front rest name text last =>
    -- Both paths have the same front, which leads to the directory; only what is behind the slash
    -- differs.
    subst text
    rw [follow_append_slash, Option.bind_eq_some_iff] at hplace
    obtain ⟨there, hfront, hrest⟩ := hplace
    rw [dropLast_of_follow last hfile hrest, follow_append_slash,
      Path.isAbsolute_append_slash front target, ← Path.isAbsolute_append_slash front rest, hfront,
      Option.bind_some]

/-- What is found under a path has a place. -/
theorem exists_locate_of_look (h : tree.look path ≠ .missing) :
    ∃ place, tree.locate path = some place := by
  rw [look] at h
  cases hplace : tree.locate path with
  | none =>
    rw [hplace] at h
    exact absurd rfl h
  | some place => exact ⟨place, rfl⟩

/-- A path as it is named beside a file. An absolute one is taken as it is. Any other is written behind
    the directory of the file and followed from the directory that the file is in, where a file is no
    directory. -/
structure NamedBeside (tree : Tree) (path target named : String) : Prop where
  of_isAbsolute : Path.isAbsolute target = true → named = target
  of_relative : Path.isAbsolute target = false → ∃ place, tree.locate path = some place ∧
    (tree.isDirectory place = false →
      (∃ directory, Path.DirectoryOf path directory ∧ named = directory ++ target) ∧
      (Path.isUsable named = true → tree.locate named = tree.follow place.dropLast target))

/-- Where something is found under a path, other paths are named beside it. -/
theorem namedBeside_beside (h : tree.look path ≠ .missing) (target : String) :
    tree.NamedBeside path target (Path.beside path target) := by
  obtain ⟨place, hplace⟩ := exists_locate_of_look h
  refine ⟨Path.beside_of_isAbsolute, fun hrelative => ⟨place, hplace, fun hfile => ⟨?_, ?_⟩⟩⟩
  · obtain ⟨directory, hfound, hdirectory⟩ :=
      Path.directoryOf_directory? (steps_ne_nil_of_locate hplace hfile)
    exact ⟨directory, hdirectory, hdirectory.beside_eq_append hfound hrelative⟩
  · exact locate_beside hplace hfile hrelative

end Tree

end Conform
