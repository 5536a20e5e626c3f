/-
Module: Conform.Proofs.Command.Reads
Purpose: What is read from files in memory. Loading settings and documents changes no file, so what is
  loaded first has no influence on what is loaded next. Documents depend only on what is found under the
  paths that are asked for: the schema's, the one a descriptor names, and the instance's.
Main exports: ReadsOnly, Tree.read, Tree.read_bind, readsOnly_load, readsOnly_readSchema, FoundAlike,
  FoundAlike.readSchema, FoundAlike.readSubject
-/
import Conform.Command.Run
import Conform.Storage.Tree

namespace Conform

/-! ### Reading only -/

section Reading

variable {α β : Type}

/-- The files stay as they are. -/
def ReadsOnly (x : StateM Tree α) : Prop := ∀ tree, (x.run tree).2 = tree

/-- What is read from a tree. -/
def Tree.read (tree : Tree) (x : StateM Tree α) : α := (x.run tree).1

theorem ReadsOnly.pure (a : α) : ReadsOnly (Pure.pure a) := fun _ => rfl

/-- What reads only, and goes on with what reads only, reads only. -/
theorem ReadsOnly.bind {x : StateM Tree α} {f : α → StateM Tree β} (hx : ReadsOnly x)
    (hf : ∀ a, ReadsOnly (f a)) : ReadsOnly (x >>= f) := by
  intro tree
  change ((f (x.run tree).1).run (x.run tree).2).2 = tree
  rw [hx tree]
  exact hf _ tree

/-- What reads only leads from a tree to what is read and the same tree. -/
theorem ReadsOnly.run_eq {x : StateM Tree α} (hx : ReadsOnly x) (tree : Tree) :
    x.run tree = (tree.read x, tree) :=
  Prod.ext rfl (hx tree)

namespace Tree

/-- Behind what reads only, the same tree is read. -/
theorem read_bind {x : StateM Tree α} (hx : ReadsOnly x) (f : α → StateM Tree β) (tree : Tree) :
    tree.read (x >>= f) = tree.read (f (tree.read x)) := by
  change ((f (x.run tree).1).run (x.run tree).2).1 = ((f (x.run tree).1).run tree).1
  rw [hx tree]

end Tree

/-! ### Settings -/

theorem readsOnly_look (path : String) : ReadsOnly (Storage.look path) := fun _ => rfl

theorem readsOnly_currentDirectory : ReadsOnly Storage.currentDirectory := fun _ => rfl

theorem readsOnly_readCompleted? (path : String) (endings : List String) :
    ReadsOnly (readCompleted? path endings) := by
  induction endings with
  | nil => exact .pure _
  | cons ending rest ih =>
    rw [readCompleted?]
    apply ReadsOnly.bind (readsOnly_look _)
    intro completed
    split
    · exact .pure _
    · exact ih

theorem readsOnly_readConfig? (endings : List String) (path : String) :
    ReadsOnly (readConfig? endings path) := by
  rw [readConfig?]
  apply ReadsOnly.bind readsOnly_currentDirectory
  intro directory
  apply ReadsOnly.bind (readsOnly_look _)
  intro exact
  split
  · exact .pure _
  · split
    · exact .pure _
    · exact readsOnly_readCompleted? _ _

theorem readsOnly_fileEntries (formats : ConfigFormats) (required : Bool) (path : String) :
    ReadsOnly (fileEntries formats required path) := by
  rw [fileEntries]
  apply ReadsOnly.bind (readsOnly_readConfig? _ path)
  intro found?
  cases found? with
  | none => exact .pure _
  | some found =>
    dsimp only
    split
    · exact .pure _
    · exact .pure _

theorem readsOnly_layerFiles (explicit : Option String) (environment : Environment) :
    ReadsOnly (layerFiles explicit environment) := by
  rw [layerFiles]
  split
  · exact .pure _
  · exact (readsOnly_look _).bind fun _ => .pure _

/-- Laying files over a configuration changes none of them, file by file. -/
theorem readsOnly_readLayers (formats : ConfigFormats) (base : ConfigValue)
    (files : List (Bool × String)) : ReadsOnly (readLayers formats base files) := by
  induction files generalizing base with
  | nil => exact .pure _
  | cons file rest ih =>
    rw [readLayers]
    apply ReadsOnly.bind (readsOnly_fileEntries _ _ _)
    intro entries
    cases entries with
    | error e => exact .pure _
    | ok entries => exact ih _

/-- Loading settings changes no file. -/
theorem readsOnly_load (explicit : Option String) (environment : Environment) :
    ReadsOnly (Settings.load explicit environment) := by
  rw [Settings.load]
  apply ReadsOnly.bind (readsOnly_layerFiles explicit environment)
  intro files
  apply ReadsOnly.bind (readsOnly_readLayers _ _ files)
  intro config
  cases config with
  | error e => exact .pure _
  | ok config =>
    dsimp only
    split
    · exact .pure _
    · exact .pure _

/-! ### Documents -/

theorem readsOnly_readJson (path : String) : ReadsOnly (readJson path) :=
  (readsOnly_look path).bind fun _ => .pure _

theorem readsOnly_followDescriptor (path : String) (document : Json) :
    ReadsOnly (followDescriptor path document) := by
  rw [followDescriptor]
  cases descriptorTarget path document with
  | error e => exact .pure _
  | ok target =>
    cases target with
    | inline schema => exact .pure _
    | file path => exact readsOnly_readJson path

/-- Loading a schema changes no file. -/
theorem readsOnly_readSchema (path : String) (descriptor : Bool) :
    ReadsOnly (readSchema path descriptor) := by
  rw [readSchema]
  apply ReadsOnly.bind (readsOnly_readJson path)
  intro document
  cases document with
  | error e => exact .pure _
  | ok document =>
    cases descriptor with
    | false => exact .pure _
    | true => exact readsOnly_followDescriptor path document

/-- Reading an instance changes no file. -/
theorem readsOnly_read (input : ByteArray) (source : Source) : ReadsOnly (source.read (pure input)) := by
  cases source with
  | file path => exact readsOnly_readJson path
  | standardInput => exact .pure _

end Reading

/-! ### Documents that are found alike -/

/-- The documents that a command line asks for are found alike in two trees: the schema's file, the file
    that it names if it is a descriptor, and the instance's file. -/
structure FoundAlike (arguments : Arguments) (descriptor : Bool) (tree tree' : Tree) : Prop where
  schema : tree'.look arguments.schema = tree.look arguments.schema
  target : descriptor = true → ∀ document path, (tree.look arguments.schema).document = .ok document →
    descriptorTarget arguments.schema document = .ok (.file path) → tree'.look path = tree.look path
  subject : ∀ path, Source.ofArgument arguments.subject = .file path → tree'.look path = tree.look path

namespace FoundAlike

variable {arguments : Arguments} {descriptor : Bool} {tree tree' : Tree}

/-- What is found alike under a path is the same document. -/
theorem read_readJson {path : String} (h : tree'.look path = tree.look path) :
    tree'.read (readJson path) = tree.read (readJson path) :=
  congrArg Entry.document h

/-- The same schema is loaded where the documents are found alike. -/
theorem readSchema (h : FoundAlike arguments descriptor tree tree') :
    tree'.read (readSchema arguments.schema descriptor) =
      tree.read (readSchema arguments.schema descriptor) := by
  rw [Conform.readSchema, Tree.read_bind (readsOnly_readJson _), Tree.read_bind (readsOnly_readJson _),
    read_readJson h.schema]
  cases hdocument : tree.read (readJson arguments.schema) with
  | error e => rfl
  | ok document =>
    cases descriptor with
    | false => rfl
    | true =>
      change tree'.read (followDescriptor arguments.schema document) =
        tree.read (followDescriptor arguments.schema document)
      rw [followDescriptor]
      cases htarget : descriptorTarget arguments.schema document with
      | error e => rfl
      | ok target =>
        cases target with
        | inline schema => rfl
        | file path => exact read_readJson (h.target rfl document path hdocument htarget)

/-- The same instance is read where the documents are found alike and standard input is the same. -/
theorem readSubject (h : FoundAlike arguments descriptor tree tree') (input : ByteArray) :
    tree'.read ((Source.ofArgument arguments.subject).read (pure input)) =
      tree.read ((Source.ofArgument arguments.subject).read (pure input)) := by
  cases hsource : Source.ofArgument arguments.subject with
  | file path => exact read_readJson (h.subject path hsource)
  | standardInput => rfl

end FoundAlike

end Conform
