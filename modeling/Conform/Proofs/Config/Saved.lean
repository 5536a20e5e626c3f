/-
Module: Conform.Proofs.Config.Saved
Purpose: Saved settings load back. The file that was written is found and reads as what was saved, and its
  entries are laid over those of the layers below it: what the document holds wins, and a count that it
  leaves out is the one that the layers below have.
Main exports: Tree.lowerLayers, Tree.read_load, ConfigValue.entry?, Settings.ofConfig?_layer_written,
  saved_settings_load_back
-/
import Conform.Proofs.Command.Reads
import Conform.Proofs.Config.Rendered
import Conform.Proofs.Storage.Written

namespace Conform

/-! ### Layers below a file -/

/-- The settings in a configuration, or the error that a value does not convert. -/
def ConfigValue.converted (config : ConfigValue) : Except ConfigError Settings :=
  (Settings.ofConfig? config.entries).elim (.error .unsuitable) .ok

namespace Tree

variable {tree : Tree} {environment : Environment} {path : String}

/-- The configuration of the files below the one that is asked for. -/
def lowerLayers (tree : Tree) (environment : Environment) : Except ConfigError ConfigValue :=
  tree.read (do readLayers environment.formats (.table []) (← layerFiles none environment))

/-- The file that is asked for comes after all others. -/
theorem read_layerFiles_some (tree : Tree) (path : String) (environment : Environment) :
    tree.read (layerFiles (some path) environment) =
      tree.read (layerFiles none environment) ++ [(true, path)] := by
  rw [layerFiles, layerFiles]
  cases userFile? environment with
  | none => rfl
  | some user =>
    dsimp only
    rw [read_bind (readsOnly_look user), read_bind (readsOnly_look user)]
    change _ ++ _ ++ [(true, path)] = _ ++ _ ++ [] ++ [(true, path)]
    rw [List.append_nil]

/-- The last file is laid over the layers of the others. -/
theorem read_readLayers_append (tree : Tree) (formats : ConfigFormats) (base : ConfigValue)
    (files : List (Bool × String)) (required : Bool) (path : String) :
    tree.read (readLayers formats base (files ++ [(required, path)])) =
      (tree.read (readLayers formats base files)).bind fun config =>
        (tree.read (fileEntries formats required path)).map config.layer := by
  induction files generalizing base with
  | nil =>
    rw [List.nil_append, readLayers.eq_2, read_bind (readsOnly_fileEntries _ _ _)]
    cases tree.read (fileEntries formats required path) <;> rfl
  | cons first rest ih =>
    rcases first with ⟨needed, lower⟩
    rw [List.cons_append, readLayers.eq_2, readLayers.eq_2, read_bind (readsOnly_fileEntries _ _ _),
      read_bind (readsOnly_fileEntries _ _ _)]
    cases tree.read (fileEntries formats needed lower) with
    | error e => rfl
    | ok entries => exact ih _

/-- Without variables for settings, the settings are those of the files. -/
theorem environmentEntries_eq_nil
    (hunset : ∀ setting ∈ environment.bindings, keyOfVariable? setting.1 = none) :
    environmentEntries environment = [] := by
  rw [environmentEntries, List.filterMap_eq_nil_iff]
  intro setting hsetting
  rw [hunset setting hsetting, Option.map_none]

/-- The settings of a file that is asked for, over the layers below it. -/
theorem read_load (tree : Tree) (path : String)
    (hunset : ∀ setting ∈ environment.bindings, keyOfVariable? setting.1 = none) :
    tree.read (Settings.load (some path) environment) =
      (tree.lowerLayers environment).bind fun config =>
        (tree.read (fileEntries environment.formats true path)).bind fun entries =>
          (config.layer entries).converted := by
  rw [Settings.load, read_bind (readsOnly_layerFiles _ _), read_layerFiles_some,
    read_bind (readsOnly_readLayers _ _ _), read_readLayers_append, environmentEntries_eq_nil hunset,
    lowerLayers, read_bind (readsOnly_layerFiles _ _)]
  cases tree.read
      (readLayers environment.formats (.table []) (tree.read (layerFiles none environment))) with
  | error e => rfl
  | ok config =>
    cases tree.read (fileEntries environment.formats true path) with
    | error e => rfl
    | ok entries =>
      have hnone : (config.layer entries).layer [] = config.layer entries := rfl
      simp only [Except.bind, Except.map, hnone, ConfigValue.converted]
      cases Settings.ofConfig? (config.layer entries).entries <;> rfl

end Tree

/-! ### Saved entries over lower layers -/

namespace ConfigValue

/-- What a configuration has under a name in one of its tables. -/
def entry? (config : ConfigValue) (table name : String) : Option ConfigValue :=
  (config.entries.lookup table).bind fun part => part.entries.lookup name

/-- The entries of a table, none if there is no such table. -/
def part (config : ConfigValue) (table : String) : Entries ConfigValue :=
  ((config.entries.lookup table).getD (.table [])).entries

theorem lookup_part (config : ConfigValue) (table name : String) :
    (config.part table).lookup name = config.entry? table name := by
  rw [part, entry?]
  cases config.entries.lookup table <;> rfl

/-- A table with entries is laid over the table that is there. -/
theorem put_table (key : String) (hkey : KeyPath.ofKey key = [.name key]) (hlower : lowerCase key = key)
    (base : ConfigValue) (entry : String × ConfigValue) (rest : List (String × ConfigValue)) :
    put (.table (entry :: rest)) (KeyPath.ofKey key) base =
      .table (Entries.set key (.table (overlayEntries (base.part key) (entry :: rest)))
        base.entries) := by
  rw [hkey, put, hlower]
  rfl

/-- An entry that is no table replaces the one of its name. -/
theorem overlayEntries_cons {name : String} {value : ConfigValue} (hlower : lowerCase name = name)
    (hvalue : ∀ entries, value ≠ .table entries) (base rest : Entries ConfigValue) :
    overlayEntries base ((name, value) :: rest) = overlayEntries (Entries.set name value base) rest := by
  rw [overlayEntries, hlower, overlay]
  exact hvalue

/-- The saved format and count over entries below them: a count that is left out is the one
    that is there. -/
theorem lookup_overlayEntries_written (base : Entries ConfigValue) (format : String)
    (count : Option UInt64) :
    let entries := overlayEntries base (("format", .string format) ::
      count.toList.map fun n => ("max_reported", .integer n.toNat))
    entries.lookup "format" = some (.string format) ∧
      entries.lookup "max_reported" = count.elim (base.lookup "max_reported") fun n =>
        some (.integer n.toNat) := by
  intro entries
  have hformat : lowerCase "format" = "format" := by decide
  have hcount : lowerCase "max_reported" = "max_reported" := by decide
  have hentries : entries = overlayEntries (Entries.set "format" (.string format) base)
      (count.toList.map fun n => ("max_reported", .integer n.toNat)) :=
    overlayEntries_cons hformat (fun _ => ConfigValue.noConfusion) _ _
  rw [hentries]
  cases count with
  | none =>
    rw [Option.toList_none, List.map_nil, overlayEntries]
    exact ⟨Entries.lookup_set_self _ _ _, Entries.lookup_set_of_ne _ _ (by decide)⟩
  | some n =>
    rw [Option.toList_some, List.map_singleton,
      overlayEntries_cons hcount (fun _ => ConfigValue.noConfusion), overlayEntries,
      Entries.lookup_set_of_ne _ _ (by decide), Entries.lookup_set_self, Entries.lookup_set_self]
    exact ⟨rfl, rfl⟩

/-- The saved fields over lower layers: what the document holds wins, and a count that it leaves out is
    that of the layers. -/
theorem field?_layer_written (lower : ConfigValue) (settings : Settings) :
    let entries := (lower.layer settings.written).entries
    field? entries "output" "format" 0 = some (some (.string settings.format.name)) ∧
      field? entries "output" "max_reported" 1 = some (settings.maxReported.elim
        (lower.entry? "output" "max_reported") fun n => some (.integer n.toNat)) ∧
      field? entries "schema" "descriptor" 0 = some (some (.bool settings.descriptor)) := by
  intro entries
  obtain ⟨hformat, hcount⟩ :=
    lookup_overlayEntries_written (lower.part "output") settings.format.name settings.maxReported
  have hdescriptor : lowerCase "descriptor" = "descriptor" := by decide
  have hentries : entries = (lower.layer settings.written).entries := rfl
  rw [layer, Settings.written, List.foldl_cons, List.foldl_cons, List.foldl_nil,
    put_table "output" rfl (by decide), put_table "schema" rfl (by decide),
    ConfigValue.entries] at hentries
  have hother : entries.lookup "output" = some (.table (overlayEntries (lower.part "output")
      (("format", .string settings.format.name) ::
        settings.maxReported.toList.map fun n => ("max_reported", .integer n.toNat)))) := by
    rw [hentries, Entries.lookup_set_of_ne _ _ (by decide), ConfigValue.entries, Entries.lookup_set_self]
  refine ⟨?_, ?_, ?_⟩
  · rw [field?, hother]
    exact congrArg some hformat
  · rw [field?, hother, ← lookup_part]
    exact congrArg some hcount
  · rw [field?, hentries, Entries.lookup_set_self,
      overlayEntries_cons hdescriptor (fun _ => ConfigValue.noConfusion), overlayEntries]
    exact congrArg some (Entries.lookup_set_self _ _ _)

/-- A saved document over lower layers converts to what was saved, but for a count that it leaves out. -/
theorem ofConfig?_layer_written (lower : ConfigValue) (settings : Settings) :
    Settings.ofConfig? (lower.layer settings.written).entries =
      (convertedOr? none count? (settings.maxReported.elim (lower.entry? "output" "max_reported") fun n =>
        some (.integer n.toNat))).map fun count => { settings with maxReported := count } := by
  obtain ⟨hformat, hcount, hdescriptor⟩ := field?_layer_written lower settings
  have hname : format? (.string settings.format.name) = some settings.format := by
    cases settings.format <;> decide
  have htruth : truth? (.bool settings.descriptor) = some settings.descriptor := rfl
  rw [Settings.ofConfig?, hformat, hcount, hdescriptor]
  simp only [Option.bind_eq_bind, Option.bind_some, convertedOr?.eq_2, hname, htruth]
  cases convertedOr? none count? _ <;> rfl

/-- A saved count converts to itself. -/
theorem count?_integer (n : UInt64) : count? (.integer n.toNat) = some (some n) := by
  rw [count?, word?, if_pos (Int.natCast_nonneg _), Int.toNat_natCast, UInt64.ofNat_toNat]
  · rfl
  · intro h
    cases h

section Converted

variable {lower : ConfigValue} {settings : Settings}

/-- A saved count is the one that is loaded. -/
theorem converted_of_count {n : UInt64} (hcount : settings.maxReported = some n) :
    (lower.layer settings.written).converted = .ok settings := by
  rw [converted, ofConfig?_layer_written, hcount, Option.elim_some, convertedOr?, count?_integer,
    Option.map_some, ← hcount]
  rfl

/-- A count that is left out stays out if the layers below have none. -/
theorem converted_of_no_count (hcount : settings.maxReported = none)
    (hlower : lower.entry? "output" "max_reported" = none) :
    (lower.layer settings.written).converted = .ok settings := by
  rw [converted, ofConfig?_layer_written, hcount, Option.elim_none, hlower, convertedOr?,
    Option.map_some, ← hcount]
  rfl

/-- A count that is left out is the one of the layers below, if that converts. -/
theorem converted_of_lower_count {count : ConfigValue} (hcount : settings.maxReported = none)
    (hlower : lower.entry? "output" "max_reported" = some count) :
    (lower.layer settings.written).converted =
      count.count?.elim (.error .unsuitable) fun n => .ok { settings with maxReported := n } := by
  rw [converted, ofConfig?_layer_written, hcount, Option.elim_none, hlower, convertedOr?]
  cases count.count? <;> rfl

end Converted

end ConfigValue

/-! ### Settings from a saved file -/

namespace Tree

variable {tree tree' : Tree} {formats : ConfigFormats} {path text : String} {settings : Settings}

/-- Text that is written as a file is the text of the file. -/
theorem text?_file (text : String) : (Entry.file text.toUTF8).text? = some text := by
  have hvalid : text.toUTF8.IsValidUTF8 := text.isValidUTF8
  rw [Entry.text?, String.fromUTF8?, dif_pos hvalid]
  rfl

/-- What is read as a configuration file: the file with just the absolute path, or else the first one with
    an ending. -/
theorem read_readConfig? (tree : Tree) (endings : List String) (path : String) :
    tree.read (readConfig? endings path) =
      let whole := Path.inDirectory tree.currentPath path
      if (tree.look whole).isFile then
        ((Path.extension? whole).filter (· ∈ endings)).bind fun ending =>
          (tree.look whole).text?.map fun text => (ending, text)
      else if (Path.fileName? whole).isNone then none
      else tree.read (readCompleted? (String.ofList (Path.trimmed whole)) endings) := by
  have hhere : tree.read Storage.currentDirectory = tree.currentPath := rfl
  have hlook : ∀ path, tree.read (Storage.look path) = tree.look path := fun _ => rfl
  have hpure : ∀ found : Option (String × String), tree.read (pure found) = found := fun _ => rfl
  rw [readConfig?, read_bind readsOnly_currentDirectory, hhere, read_bind (readsOnly_look _), hlook]
  dsimp only
  split
  · rw [hpure]
  · split
    · rw [hpure]
    · rfl

/-- A file that ends in `toml` is read under just its path. -/
theorem read_readConfig?_of_file
    (hending : Path.extension? (Path.inDirectory tree.currentPath path) = some "toml")
    (hfile : tree.look (Path.inDirectory tree.currentPath path) = .file text.toUTF8) :
    tree.read (readConfig? formats.endings path) = some ("toml", text) := by
  have hisFile : (Entry.file text.toUTF8).isFile = true := rfl
  have hknown : (some "toml").filter (· ∈ formats.endings) = some "toml" :=
    Option.filter_some_pos (decide_eq_true formats.toml_mem_endings)
  rw [read_readConfig?]
  dsimp only
  rw [hfile, if_pos hisFile, hending, hknown, Option.bind_some, text?_file, Option.map_some]

/-- No file is found with an ending behind a path that is too long. -/
theorem read_readCompleted?_of_long (hlong : 4095 < path.utf8ByteSize) (endings : List String) :
    tree.read (readCompleted? path endings) = none := by
  induction endings with
  | nil => rfl
  | cons ending rest ih =>
    have hmissing : tree.look (path ++ "." ++ ending) = .missing :=
      tree.look_of_long (by rw [String.utf8ByteSize_append, String.utf8ByteSize_append]; omega)
    have hlook : tree.read (Storage.look (path ++ "." ++ ending)) = .missing := hmissing
    rw [readCompleted?, read_bind (readsOnly_look _), hlook]
    exact ih

/-- A saved file reads as the entries that were saved, whether it has to be there or not. -/
theorem read_fileEntries_saved {required : Bool} (hrender : settings.render? = some text)
    (hread : tree.read (readConfig? formats.endings path) = some ("toml", text)) :
    tree.read (fileEntries formats required path) = .ok settings.written := by
  rw [fileEntries, read_bind (readsOnly_readConfig? _ _), hread]
  dsimp only
  rw [formats.entries?_toml, Settings.ofDocument?_render hrender]
  rfl

/-- Whether settings are saved to a file, and the files afterwards. -/
def save (tree : Tree) (settings : Settings) (path : String) : Except SaveError Unit × Tree :=
  (settings.save path : StateM Tree (Except SaveError Unit)).run tree

/-- Nothing is written if the settings make no document. -/
theorem save_of_render?_none (tree : Tree) (path : String) (hrender : settings.render? = none) :
    tree.save settings path = (.error .tooLarge, tree) := by
  rw [save, Settings.save, hrender]
  rfl

/-- A document is saved exactly if it can be written. -/
theorem save_of_render? (tree : Tree) (path : String) (hrender : settings.render? = some text) :
    tree.save settings path =
      (tree.write? path text).elim (.error .notWritten, tree) fun tree' => (.ok (), tree') := by
  rw [save, Settings.save, hrender]
  simp only [Storage.write, StateT.run_bind, StateT.run_get, pure_bind]
  cases tree.write? path text <;> rfl

/-- Settings are saved alike under paths to one place. -/
theorem save_congr {path' : String} (h : tree.locate path = tree.locate path') (settings : Settings) :
    tree.save settings path = tree.save settings path' := by
  cases hrender : settings.render? with
  | none => rw [tree.save_of_render?_none path hrender, tree.save_of_render?_none path' hrender]
  | some text =>
    rw [tree.save_of_render? path hrender, tree.save_of_render? path' hrender, write?_congr h]

/-- Settings that make a document are saved under a path that keeps files, and the document is found
    there. -/
theorem Keeps.save (hkeeps : tree.Keeps path) (hcurrent : tree.NamesCurrent)
    (hending : Path.extension? path = some "toml") (hrender : settings.render? = some text) :
    ∃ tree', tree.save settings path = (.ok (), tree') ∧
      ∀ formats, tree'.read (fileEntries formats true path) = .ok settings.written := by
  obtain ⟨tree', hwrite⟩ := Option.isSome_iff_exists.1 (hkeeps.writable text)
  obtain ⟨hpath, hlook⟩ := hkeeps.look_of_write? hcurrent hwrite
  have hwhole := extension?_inDirectory hcurrent hending
  rw [← hpath] at hlook hwhole
  refine ⟨tree', ?_, fun formats =>
    read_fileEntries_saved hrender (read_readConfig?_of_file hwhole hlook)⟩
  rw [tree.save_of_render? path hrender, hwrite, Option.elim_some]

/-- A file is not found if its absolute path is too long. -/
theorem read_fileEntries_of_long {c : Char} (hlast : path.toList.getLast? = some c) (hslash : c ≠ '/')
    (hpoint : c ≠ '.') (hlong : 4095 < (Path.inDirectory tree.currentPath path).utf8ByteSize) :
    tree.read (fileEntries formats true path) = .error (.unreadable path) := by
  have htrimmed : Path.trimmed (Path.inDirectory tree.currentPath path) =
      (Path.inDirectory tree.currentPath path).toList :=
    Path.trimmed_of_getLast? (Path.getLast?_inDirectory _ hlast) hslash hpoint
  have hnoFile : ¬ Entry.missing.isFile = true := by decide
  have hread : tree.read (readConfig? formats.endings path) = none := by
    rw [read_readConfig?]
    dsimp only
    rw [htrimmed, String.ofList_toList, tree.look_of_long hlong, if_neg hnoFile,
      read_readCompleted?_of_long hlong, ite_self]
  rw [fileEntries, read_bind (readsOnly_readConfig? _ _), hread]
  rfl

end Tree

/-- What is saved loads back, over whatever the layers below have: settings with a count as they are,
    settings without one with the count of the layers. Settings with a count that does not fit are not
    saved, and no file changes. -/
theorem saved_settings_load_back (tree : Tree) (settings : Settings) (path : String) :
    ((∃ n, settings.maxReported = some n ∧ 2 ^ 63 ≤ n.toNat) →
      tree.save settings path = (.error .tooLarge, tree)) ∧
      ((∀ n, settings.maxReported = some n → n.toNat < 2 ^ 63) → tree.NamesCurrent → tree.Keeps path →
        Path.extension? path = some "toml" →
        ∃ tree', tree.save settings path = (.ok (), tree') ∧
          ∀ (environment : Environment) lower,
            (∀ setting ∈ environment.bindings, keyOfVariable? setting.1 = none) →
            tree'.lowerLayers environment = .ok lower →
            (settings.maxReported ≠ none ∨ lower.entry? "output" "max_reported" = none →
              tree'.read (Settings.load (some path) environment) = .ok settings) ∧
            (settings.maxReported = none → ∀ count, lower.entry? "output" "max_reported" = some count →
              tree'.read (Settings.load (some path) environment) =
                count.count?.elim (.error .unsuitable) fun n =>
                  .ok { settings with maxReported := n })) := by
  refine ⟨fun hlarge => tree.save_of_render?_none path (Settings.render?_eq_none_iff.2 hlarge), ?_⟩
  intro hfits hcurrent hkeeps hending
  obtain ⟨text, hrender⟩ : ∃ text, settings.render? = some text := by
    rw [← Option.ne_none_iff_exists', Ne, Settings.render?_eq_none_iff]
    rintro ⟨n, hcount, hlarge⟩
    exact absurd (hfits n hcount) (Nat.not_lt.2 hlarge)
  obtain ⟨tree', hsave, hentries⟩ := hkeeps.save hcurrent hending hrender
  refine ⟨tree', hsave, fun environment lower hunset hlower => ?_⟩
  have hload : tree'.read (Settings.load (some path) environment) =
      (lower.layer settings.written).converted := by
    rw [Tree.read_load tree' path hunset, hlower, hentries]
    rfl
  rw [hload]
  refine ⟨fun hcount => ?_, fun hcount count hentry => ConfigValue.converted_of_lower_count hcount hentry⟩
  cases hsaved : settings.maxReported with
  | some n => exact ConfigValue.converted_of_count hsaved
  | none => exact ConfigValue.converted_of_no_count hsaved (hcount.resolve_left fun hne => hne hsaved)

/-- A count of nine in the current directory is below the file that is saved, with a count of three; a
    count of `2 ^ 63` is not saved. -/
theorem saved_settings_load_back_over_local_file :
    let tree : Tree :=
      ⟨[(["work", "schema-validate.toml"], .file "[output]\nmax_reported = 9\n".toUTF8)], ["work"]⟩
    let settings : Settings := ⟨.json, some 3, true⟩
    tree.save ⟨.json, some 9223372036854775808, true⟩ "c.toml" = (.error .tooLarge, tree) ∧
      ∃ tree', tree.save settings "c.toml" = (.ok (), tree') ∧
        tree'.read (Settings.load (some "c.toml") {}) = .ok settings := by
  intro tree settings
  have hcurrent : tree.NamesCurrent := by
    intro name hname
    rw [List.mem_singleton.1 hname]
    exact ⟨by decide, by decide, by decide, by decide⟩
  have hmissing : (tree.look "c.toml").isPresent = false := by decide +kernel
  have hkeeps : tree.Keeps "c.toml" := by
    refine ⟨fun content => ?_, fun old hold => ?_, by decide +kernel⟩
    · rw [tree.isSome_write? _ content ""]
      decide +kernel
    · rw [hold] at hmissing
      cases hmissing
  refine ⟨(saved_settings_load_back tree _ "c.toml").1 ⟨_, rfl, by decide +kernel⟩, ?_⟩
  have hfits : ∀ n, settings.maxReported = some n → n.toNat < 2 ^ 63 := by
    intro n hn
    rw [← Option.some.inj hn]
    decide +kernel
  obtain ⟨tree', hsave, hload⟩ :=
    (saved_settings_load_back tree settings "c.toml").2 hfits hcurrent hkeeps (by decide +kernel)
  have hlower : ((tree.save settings "c.toml").2.lowerLayers {}).isOk = true := by decide +kernel
  rw [hsave] at hlower
  cases hlayers : tree'.lowerLayers {} with
  | error e =>
    rw [hlayers] at hlower
    cases hlower
  | ok lower => exact ⟨tree', hsave, (hload {} lower (by simp) hlayers).1 (Or.inl (by simp [settings]))⟩

/-- Settings without a count do not load back over a file that has one; under a device nothing is kept;
    and a file is written under a path that is too long to be found again when it is made absolute. -/
theorem saved_settings_not_restored :
    (let tree : Tree :=
        ⟨[(["work", "schema-validate.toml"], .file "[output]\nmax_reported = 9\n".toUTF8)], ["work"]⟩
      let saved := tree.save {} "c.toml"
      saved.1 = .ok () ∧
        saved.2.read (Settings.load (some "c.toml") {}) = .ok { maxReported := some 9 }) ∧
    (let tree : Tree := ⟨[(["work", "c.toml"], .device .empty)], ["work"]⟩
      let saved := tree.save {} "c.toml"
      saved.1 = .ok () ∧
        saved.2.read (Settings.load (some "c.toml") {}) = .error (.unreadable "c.toml")) ∧
    (let path := Path.detour 2044 "c.toml"
      let saved := Tree.save ⟨[], ["work"]⟩ {} path
      saved.1 = .ok () ∧ saved.2.read (Settings.load (some path) {}) = .error (.unreadable path)) := by
  refine ⟨by decide +kernel, by decide +kernel, ?_⟩
  intro path saved
  let tree : Tree := ⟨[], ["work"]⟩
  have hrelative : Path.isAbsolute path = false := Path.isAbsolute_detour (by decide +kernel)
  have hplace : tree.locate path = tree.locate "c.toml" :=
    Tree.locate_detour (by decide +kernel) (by decide +kernel) (by decide +kernel)
  have hsame : saved = tree.save {} "c.toml" := Tree.save_congr hplace {}
  have hsaved : (tree.save {} "c.toml").1 = .ok () := by decide +kernel
  have hlower : ((tree.save {} "c.toml").2.lowerLayers {}).isOk = true := by decide +kernel
  have hlong : 4095 < (Path.inDirectory (tree.save {} "c.toml").2.currentPath path).utf8ByteSize := by
    have hhere : (tree.save {} "c.toml").2.currentPath.utf8ByteSize = 5 := by decide +kernel
    have hsize : path.utf8ByteSize = 2 * 2044 + 6 := Path.utf8ByteSize_detour 2044 "c.toml"
    have hwhole := Path.le_utf8ByteSize_inDirectory (tree.save {} "c.toml").2.currentPath hrelative
    rw [hhere, hsize] at hwhole
    omega
  have hlast : path.toList.getLast? = some 'l' := Path.getLast?_detour rfl
  rw [hsame]
  refine ⟨hsaved, ?_⟩
  rw [Tree.read_load _ path (by simp), Tree.read_fileEntries_of_long hlast (by decide) (by decide) hlong]
  cases hlayers : (tree.save {} "c.toml").2.lowerLayers {} with
  | error e =>
    rw [hlayers] at hlower
    cases hlower
  | ok lower => rfl

end Conform
