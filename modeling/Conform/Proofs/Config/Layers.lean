/-
Module: Conform.Proofs.Config.Layers
Purpose: The highest layer that gives a setting decides it alone. The settings load if the highest values
  convert, and they are what these convert to; what lower layers give for a setting, and what any layer
  gives for other settings, has no influence. The command line overrides the count and the format and can
  ask for descriptors too.
Main exports: Layers, Layers.Highest, Layers.Decides, Tree.HasLayers, Tree.read_load_of_hasLayers,
  load_decided_by_highest_layer
-/
import Conform.Proofs.Command.Verdict
import Conform.Proofs.Config.Given

namespace Conform

/-! ### Layers -/

/-- What the layers of settings hold. A layer that is absent holds nothing. -/
structure Layers where
  plainFile : Entries ConfigValue
  hiddenFile : Entries ConfigValue
  nestedFile : Entries ConfigValue
  userFile : Entries ConfigValue
  explicitFile : Entries ConfigValue
  environment : Entries ConfigValue

namespace Layers

/-- The layers, lowest first. -/
def lowestFirst (layers : Layers) : List (Entries ConfigValue) :=
  [layers.plainFile, layers.hiddenFile, layers.nestedFile, layers.userFile, layers.explicitFile,
   layers.environment]

/-- The highest layer that gives anything for a setting gives this value. -/
def Highest (layers : Layers) (setting : Setting) (v : ConfigValue) : Prop :=
  LastGives setting.Gives layers.lowestFirst v

/-- The value of a setting is what the highest value given for it converts to, or the default if none is
    given. -/
def Decides {α : Type} (layers : Layers) (setting : Setting) (convert : ConfigValue → Option α)
    (otherwise a : α) : Prop :=
  (∀ v, layers.Highest setting v → convert v = some a) ∧
  ((∀ v, ¬ layers.Highest setting v) → a = otherwise)

/-- The layers in one configuration. -/
def config (layers : Layers) : ConfigValue := layers.lowestFirst.foldl ConfigValue.layer (.table [])

end Layers

namespace Tree

/-- The user's file, if anything has its path. -/
def userFile? (tree : Tree) (environment : Environment) : Option String :=
  (Conform.userFile? environment).filter fun path => (tree.look path).isPresent

/-- A file that is not left out reads as a layer; one that is left out stands for an empty layer. -/
def Holds (tree : Tree) (formats : ConfigFormats) (file : Option (Bool × String))
    (layer : Entries ConfigValue) : Prop :=
  match file with
  | none => layer = []
  | some (required, path) => tree.read (fileEntries formats required path) = .ok layer

/-- The files and the environment hold the layers. -/
structure HasLayers (tree : Tree) (explicit : Option String) (environment : Environment)
    (layers : Layers) : Prop where
  plainFile : tree.Holds environment.formats (some (false, "schema-validate.toml")) layers.plainFile
  hiddenFile : tree.Holds environment.formats (some (false, ".schema-validate.toml")) layers.hiddenFile
  nestedFile :
    tree.Holds environment.formats (some (false, "config/schema-validate.toml")) layers.nestedFile
  userFile :
    tree.Holds environment.formats ((tree.userFile? environment).map (false, ·)) layers.userFile
  explicitFile : tree.Holds environment.formats (explicit.map (true, ·)) layers.explicitFile
  variables_eq : environmentEntries environment = layers.environment

variable {tree : Tree} {explicit : Option String} {environment : Environment} {layers : Layers}

/-- The files are those of the current directory, the user's file and the file that is asked for. -/
theorem read_layerFiles (tree : Tree) (explicit : Option String) (environment : Environment) :
    tree.read (layerFiles explicit environment) =
      localFiles.map (false, ·) ++ ((tree.userFile? environment).map (false, ·)).toList ++
        (explicit.map (true, ·)).toList := by
  rw [layerFiles, userFile?]
  cases Conform.userFile? environment with
  | none => rfl
  | some path =>
    rw [Option.filter_some]
    dsimp only
    rw [read_bind (readsOnly_look path)]
    change _ ++ (if (tree.look path).isPresent then [(false, path)] else []) ++ _ = _
    cases (tree.look path).isPresent <;> rfl

/-- Files that hold layers are laid over a configuration as those layers. -/
theorem read_readLayers_append_of_holds {formats : ConfigFormats} {files : List (Bool × String)}
    {before base : ConfigValue} (hfiles : tree.read (readLayers formats base files) = .ok before)
    {file : Option (Bool × String)} {layer : Entries ConfigValue}
    (hfile : tree.Holds formats file layer) :
    tree.read (readLayers formats base (files ++ file.toList)) = .ok (before.layer layer) := by
  cases file with
  | none =>
    obtain rfl : layer = [] := hfile
    rw [Option.toList_none, List.append_nil]
    exact hfiles
  | some file =>
    rcases file with ⟨required, path⟩
    have hread : tree.read (fileEntries formats required path) = .ok layer := hfile
    rw [Option.toList_some, read_readLayers_append, hfiles, hread]
    rfl

/-- The settings are those in the configuration of all layers. -/
theorem read_load_of_hasLayers (h : tree.HasLayers explicit environment layers) :
    tree.read (Settings.load explicit environment) = layers.config.converted := by
  have hstart : tree.read (readLayers environment.formats (.table []) []) = .ok (.table []) := rfl
  have hplain := read_readLayers_append_of_holds hstart h.plainFile
  have hhidden := read_readLayers_append_of_holds hplain h.hiddenFile
  have hnested := read_readLayers_append_of_holds hhidden h.nestedFile
  have huser := read_readLayers_append_of_holds hnested h.userFile
  have hfiles := read_readLayers_append_of_holds huser h.explicitFile
  have hall : tree.read (layerFiles explicit environment) =
      [] ++ (some (false, "schema-validate.toml")).toList ++
        (some (false, ".schema-validate.toml")).toList ++
        (some (false, "config/schema-validate.toml")).toList ++
        ((tree.userFile? environment).map (false, ·)).toList ++ (explicit.map (true, ·)).toList :=
    read_layerFiles tree explicit environment
  rw [Settings.load, read_bind (readsOnly_layerFiles _ _), read_bind (readsOnly_readLayers _ _ _), hall,
    hfiles, h.variables_eq]
  simp only [ConfigValue.converted, Layers.config, Layers.lowestFirst, List.foldl_cons, List.foldl_nil]
  generalize Settings.ofConfig? _ = settings
  cases settings <;> rfl

end Tree

/-! ### Settings of the layers -/

namespace ConfigValue

variable {config : ConfigValue}

theorem sectioned_empty : (ConfigValue.table []).Sectioned := fun _ _ h => nomatch h

/-- The fields of sections that are tables are the entries. -/
theorem Sectioned.field?_eq (h : config.Sectioned) (setting : Setting) (position : Nat) :
    field? config.entries setting.table setting.name position =
      some (config.entry? setting.table setting.name) := by
  rw [field?, entry?]
  cases hpart : config.entries.lookup setting.table with
  | none => rfl
  | some part =>
    obtain ⟨entries, rfl⟩ := h setting part hpart
    rfl

/-- The settings in a configuration with sections are converted one by one. -/
theorem Sectioned.converted_eq_ok_iff (h : config.Sectioned) {settings : Settings} :
    config.converted = .ok settings ↔
      convertedOr? .text format? (config.entry? "output" "format") = some settings.format ∧
        convertedOr? none count? (config.entry? "output" "max_reported") = some settings.maxReported ∧
        convertedOr? false truth? (config.entry? "schema" "descriptor") = some settings.descriptor := by
  have hformat : field? config.entries "output" "format" 0 = _ := h.field?_eq .format 0
  have hcount : field? config.entries "output" "max_reported" 1 = _ := h.field?_eq .maxReported 1
  have hdescriptor : field? config.entries "schema" "descriptor" 0 = _ := h.field?_eq .descriptor 0
  rw [converted, Settings.ofConfig?, hformat, hcount, hdescriptor]
  simp only [Option.bind_eq_bind, Option.bind_some, Setting.table, Setting.name]
  cases convertedOr? .text format? (config.entry? "output" "format") with
  | none => simp
  | some format =>
    cases convertedOr? none count? (config.entry? "output" "max_reported") with
    | none => simp
    | some count =>
      cases convertedOr? false truth? (config.entry? "schema" "descriptor") with
      | none => simp
      | some descriptor =>
        rcases settings with ⟨format', count', descriptor'⟩
        simp

/-- Settings that do not convert are unsuitable. -/
theorem converted_eq_error (h : ∀ settings, config.converted ≠ .ok settings) :
    config.converted = .error .unsuitable := by
  rw [converted] at h ⊢
  cases hsettings : Settings.ofConfig? config.entries with
  | none => rfl
  | some settings =>
    rw [hsettings] at h
    exact absurd rfl (h settings)

/-- Configurations that load as the same settings, if they load, load alike. -/
theorem converted_congr {config' : ConfigValue}
    (h : ∀ settings, config'.converted = .ok settings ↔ config.converted = .ok settings) :
    config'.converted = config.converted := by
  cases hconverted : config.converted with
  | ok settings => exact (h settings).2 hconverted
  | error e =>
    have hfails : ∀ settings, config.converted ≠ .ok settings := fun settings hok => by
      rw [hconverted] at hok
      cases hok
    rw [converted_eq_error fun settings hok => hfails settings ((h settings).1 hok), ← hconverted,
      converted_eq_error hfails]

end ConfigValue

namespace Layers

variable {layers : Layers} {α : Type} {convert : ConfigValue → Option α} {otherwise a : α}
    {setting : Setting}

/-- The configuration of well-formed layers has tables for the sections and the highest value for each
    setting. -/
theorem updates_config (hwell : ∀ layer ∈ layers.lowestFirst, WellFormed layer) :
    layers.config.Sectioned ∧ ∀ setting : Setting,
      Updates (layers.Highest setting) none (layers.config.entry? setting.table setting.name) := by
  have hfold : ∀ setting : Setting, layers.config.Sectioned ∧
      Updates (layers.Highest setting) none (layers.config.entry? setting.table setting.name) :=
    fun setting => foldl_last ConfigValue.Sectioned
      (fun config => config.entry? setting.table setting.name)
      (fun config hconfig layer hmem =>
        ⟨(ConfigValue.updates_layer (hwell layer hmem) hconfig).1,
          (ConfigValue.updates_layer (hwell layer hmem) hconfig).2 setting⟩) ConfigValue.sectioned_empty
  exact ⟨(hfold .format).1, fun setting => (hfold setting).2⟩

/-- A setting is decided by its highest value alone. -/
theorem decides_congr {layers' : Layers} (h : ∀ v, layers'.Highest setting v ↔ layers.Highest setting v) :
    layers'.Decides setting convert otherwise a ↔ layers.Decides setting convert otherwise a := by
  simp only [Decides, h]

/-- What is converted is the highest value of a setting. -/
theorem convertedOr?_eq_some_iff {seen : Option ConfigValue}
    (h : Updates (layers.Highest setting) none seen) :
    ConfigValue.convertedOr? otherwise convert seen = some a ↔
      layers.Decides setting convert otherwise a := by
  by_cases hgiven : ∃ v, layers.Highest setting v
  · obtain ⟨v, hv⟩ := hgiven
    rw [h.given v hv]
    refine ⟨fun hconvert => ⟨fun w hw => ?_, fun hnone => absurd hv (hnone v)⟩,
      fun hdecides => hdecides.1 v hv⟩
    obtain rfl := h.unique hv hw
    exact hconvert
  · rw [h.kept fun v hv => hgiven ⟨v, hv⟩]
    exact ⟨fun hsome => ⟨fun v hv => absurd ⟨v, hv⟩ hgiven, fun _ => (Option.some.inj hsome).symm⟩,
      fun hdecides => congrArg some (hdecides.2 fun v hv => hgiven ⟨v, hv⟩).symm⟩

/-- A setting has a value exactly if the highest value given for it converts. -/
theorem exists_decides_iff {seen : Option ConfigValue} (h : Updates (layers.Highest setting) none seen) :
    (∃ a, layers.Decides setting convert otherwise a) ↔
      ∀ v, layers.Highest setting v → (convert v).isSome = true := by
  constructor
  · rintro ⟨a, hdecides, -⟩ v hv
    rw [hdecides v hv]
    rfl
  · intro hconverts
    by_cases hgiven : ∃ v, layers.Highest setting v
    · obtain ⟨v, hv⟩ := hgiven
      obtain ⟨a, ha⟩ := Option.isSome_iff_exists.1 (hconverts v hv)
      refine ⟨a, fun w hw => ?_, fun hnone => absurd hv (hnone v)⟩
      obtain rfl := h.unique hv hw
      exact ha
    · exact ⟨otherwise, fun v hv => absurd ⟨v, hv⟩ hgiven, fun _ => rfl⟩

/-- The settings of well-formed layers are decided one by one. -/
theorem converted_config_eq_ok_iff (hwell : ∀ layer ∈ layers.lowestFirst, WellFormed layer)
    {settings : Settings} :
    layers.config.converted = .ok settings ↔
      layers.Decides .format ConfigValue.format? .text settings.format ∧
        layers.Decides .maxReported ConfigValue.count? none settings.maxReported ∧
        layers.Decides .descriptor ConfigValue.truth? false settings.descriptor := by
  obtain ⟨hsectioned, hupdates⟩ := updates_config hwell
  rw [hsectioned.converted_eq_ok_iff]
  exact and_congr (convertedOr?_eq_some_iff (hupdates .format))
    (and_congr (convertedOr?_eq_some_iff (hupdates .maxReported))
      (convertedOr?_eq_some_iff (hupdates .descriptor)))

end Layers

/-! ### Saved settings as a layer -/

namespace Settings

variable {settings : Settings} {setting : Setting} {v : ConfigValue}

/-- What a document of saved settings gives for a setting. -/
def given (settings : Settings) : Setting → Option ConfigValue
  | .format => some (.string settings.format.name)
  | .maxReported => settings.maxReported.map fun n => .integer n.toNat
  | .descriptor => some (.bool settings.descriptor)

/-- The entries of a saved document give the settings that were saved. -/
theorem gives_written_iff : setting.Gives settings.written v ↔ settings.given setting = some v := by
  have hformat : lowerCase "format" = "format" := by decide
  have hcount : lowerCase "max_reported" = "max_reported" := by decide
  have hdescriptor : lowerCase "descriptor" = "descriptor" := by decide
  simp only [Setting.Gives, written, List.mem_cons, List.not_mem_nil, or_false, exists_eq_or_imp,
    exists_eq_left]
  rw [ConfigValue.provides_section_iff rfl (by decide), ConfigValue.provides_section_iff rfl (by decide)]
  cases setting with
  | format => simp [Setting.table, Setting.name, given, hformat, hcount]
  | maxReported => simp [Setting.table, Setting.name, given, hformat, hcount]
  | descriptor => simp [Setting.table, Setting.name, given, hdescriptor]

/-- An entry of a saved document is a section under its name. -/
theorem entry_of_mem_written {key : String} {value : ConfigValue} (h : (key, value) ∈ settings.written) :
    KeyPath.ofKey key = [.name key] ∧ ∃ entries, value = .table entries := by
  simp only [written, List.mem_cons, List.not_mem_nil, or_false, Prod.mk.injEq] at h
  rcases h with ⟨rfl, rfl⟩ | ⟨rfl, rfl⟩
  · exact ⟨rfl, _, rfl⟩
  · exact ⟨rfl, _, rfl⟩

/-- A saved document is a well-formed layer. -/
theorem wellFormed_written (settings : Settings) : WellFormed settings.written where
  tables _ _ _ _ hmem _ _ := (entry_of_mem_written hmem).2
  not_arrays _ _ _ _ _ _ hmem hpath := by
    rw [(entry_of_mem_written hmem).1] at hpath
    cases hpath
  ends _ _ _ _ _ _ hmem hpath _ _ := by
    rw [(entry_of_mem_written hmem).1] at hpath
    cases hpath
  scalar setting v h := by
    have hgiven := gives_written_iff.1 h
    cases setting with
    | format | descriptor =>
      cases hgiven
      trivial
    | maxReported =>
      obtain ⟨n, -, rfl⟩ := Option.map_eq_some_iff.1 hgiven
      trivial
  once _ _ _ h h' := Option.some.inj ((gives_written_iff.1 h).symm.trans (gives_written_iff.1 h'))

end Settings

/-- An absent layer is well-formed. -/
theorem wellFormed_nil : WellFormed [] where
  tables _ _ _ _ hmem := absurd hmem List.not_mem_nil
  not_arrays _ _ _ _ _ _ hmem := absurd hmem List.not_mem_nil
  ends _ _ _ _ _ _ hmem := absurd hmem List.not_mem_nil
  scalar := by
    rintro _ _ ⟨_, hmem, -⟩
    exact absurd hmem List.not_mem_nil
  once := by
    rintro _ _ _ ⟨_, hmem, -⟩
    exact absurd hmem List.not_mem_nil

/-- A variable for one setting is a well-formed layer, if it holds a scalar value. -/
theorem wellFormed_variable {key first second : String} {value : ConfigValue}
    (hpath : KeyPath.ofKey key = [.name first, .name second]) (hvalue : value.IsScalar) :
    WellFormed [(key, value)] := by
  have hentry : ∀ {key' value'}, (key', value') ∈ [(key, value)] → key' = key ∧ value' = value :=
    fun hmem => Prod.mk.inj (List.mem_singleton.1 hmem)
  have hgives : ∀ (setting : Setting) v, setting.Gives [(key, value)] v → v = value := by
    rintro setting v ⟨entry, hmem, hprovides⟩
    obtain rfl := List.mem_singleton.1 hmem
    have hsection := ConfigValue.section_of_provides hpath hprovides
    exact ((ConfigValue.provides_path_iff hpath hsection).1 hprovides).2.2.symm
  refine ⟨fun _ _ _ _ hmem hname => ?_, fun _ _ _ _ _ _ hmem hindex => ?_,
    fun _ _ _ _ _ _ hmem hname _ _ => ?_, fun setting v hv => ?_,
    fun setting v w hv hw => (hgives setting v hv).trans (hgives setting w hw).symm⟩
  · rw [(hentry hmem).1, hpath] at hname
    cases hname
  · rw [(hentry hmem).1, hpath] at hindex
    cases hindex
  · rw [(hentry hmem).1, hpath] at hname
    cases hname
    rfl
  · rw [hgives setting v hv]
    exact hvalue

/-- A file that is not there stands for an empty layer. -/
theorem Tree.read_fileEntries_of_absent {tree : Tree} {formats : ConfigFormats} {path : String}
    (h : tree.read (readConfig? formats.endings path) = none) :
    tree.read (fileEntries formats false path) = .ok [] := by
  rw [fileEntries, read_bind (readsOnly_readConfig? _ _), h]
  rfl

/-! ### Settings of a run -/

namespace Command

variable {tree : Tree} {environment : Environment} {arguments : Arguments} {input : ByteArray}

/-- A run that makes a report does so from what loads, under the settings of the files with what the
    command line has in their place. -/
theorem exists_loads_of_read_checked {settings : Settings} {report : Report}
    (h : tree.read (checked (pure input) environment arguments) = .ok (settings, report)) :
    ∃ config schema value, Loads tree input environment arguments config schema value ∧
      settings = Command.settings arguments config := by
  rw [checked_eq] at h
  change judged (tree.read (loaded (pure input) environment arguments)) = _ at h
  cases hload : tree.read (loaded (pure input) environment arguments) with
  | error failure =>
    rw [hload] at h
    cases h
  | ok found =>
    rcases found with ⟨found, schema, value⟩
    obtain ⟨config, hloads⟩ := exists_loads_of_read_loaded hload
    obtain ⟨rfl, -⟩ := Prod.mk.inj (Except.ok.inj (hload.symm.trans hloads.read_loaded))
    rw [hload, judged] at h
    cases hcheck : check schema value with
    | error e =>
      rw [hcheck] at h
      cases h
    | ok made =>
      rw [hcheck] at h
      obtain ⟨rfl, -⟩ := Prod.mk.inj (Except.ok.inj h)
      exact ⟨config, schema, value, hloads, rfl⟩

/-- A run whose settings do not load fails with the reason. -/
theorem read_checked_of_load_error {e : ConfigError}
    (h : tree.read (Settings.load arguments.config environment) = .error e) :
    tree.read (checked (pure input) environment arguments) = .error (.configuration e) := by
  rw [checked, Tree.read_bind (readsOnly_load _ _), h]
  rfl

end Command

/-! ### Settings of a load -/

/-- The highest layer that gives a setting decides it alone. The settings load exactly if the highest
    value given for each of them converts; they are then what these convert to, and the defaults where
    nothing is given. Layers that agree on the highest values load alike, whatever else they hold. A run
    puts the format and the count of the command line in the place of those that are loaded, and it
    unwraps descriptors if either asks for it. -/
theorem load_decided_by_highest_layer {tree : Tree} {explicit : Option String} {environment : Environment}
    {layers : Layers} (hlayers : tree.HasLayers explicit environment layers)
    (hwell : ∀ layer ∈ layers.lowestFirst, WellFormed layer) :
    let load := tree.read (Settings.load explicit environment)
    (∀ settings, load = .ok settings ↔
      layers.Decides .format ConfigValue.format? .text settings.format ∧
        layers.Decides .maxReported ConfigValue.count? none settings.maxReported ∧
        layers.Decides .descriptor ConfigValue.truth? false settings.descriptor) ∧
      ((∃ settings, load = .ok settings) ↔
        (∀ v, layers.Highest .format v → v.format?.isSome = true) ∧
          (∀ v, layers.Highest .maxReported v → v.count?.isSome = true) ∧
          ∀ v, layers.Highest .descriptor v → v.truth?.isSome = true) ∧
      ((∀ settings, load ≠ .ok settings) → load = .error .unsuitable) ∧
      (∀ (tree' : Tree) explicit' environment' (layers' : Layers),
        tree'.HasLayers explicit' environment' layers' →
        (∀ layer ∈ layers'.lowestFirst, WellFormed layer) →
        (∀ setting v, layers'.Highest setting v ↔ layers.Highest setting v) →
          tree'.read (Settings.load explicit' environment') = load) ∧
      ∀ (input : ByteArray) (arguments : Arguments), arguments.config = explicit →
        let run := tree.read (Command.checked (pure input) environment arguments)
        (∀ e, load = .error e → run = .error (.configuration e)) ∧
          ∀ settings report, run = .ok (settings, report) → ∃ config schema, load = .ok config ∧
            settings.format = arguments.format.getD config.format ∧
            settings.maxReported = arguments.maxReported.or config.maxReported ∧
            settings.descriptor = (arguments.descriptor || config.descriptor) ∧
            tree.read (readSchema arguments.schema settings.descriptor) = .ok schema := by
  intro load
  have hload : load = layers.config.converted := Tree.read_load_of_hasLayers hlayers
  have hdecided : ∀ settings, load = .ok settings ↔ _ := fun settings =>
    hload ▸ Layers.converted_config_eq_ok_iff hwell
  obtain ⟨-, hupdates⟩ := Layers.updates_config hwell
  refine ⟨hdecided, ?converts, fun hfails => ?fails,
    fun tree' explicit' environment' layers' hlayers' hwell' hsame => ?same,
    fun input arguments hexplicit => ?run⟩
  case converts =>
    rw [← Layers.exists_decides_iff (hupdates .format),
      ← Layers.exists_decides_iff (hupdates .maxReported),
      ← Layers.exists_decides_iff (hupdates .descriptor)]
    constructor
    · rintro ⟨settings, hsettings⟩
      obtain ⟨hformat, hcount, hdescriptor⟩ := (hdecided settings).1 hsettings
      exact ⟨⟨_, hformat⟩, ⟨_, hcount⟩, ⟨_, hdescriptor⟩⟩
    · rintro ⟨⟨format, hformat⟩, ⟨count, hcount⟩, ⟨descriptor, hdescriptor⟩⟩
      exact ⟨⟨format, count, descriptor⟩, (hdecided _).2 ⟨hformat, hcount, hdescriptor⟩⟩
  case fails =>
    rw [hload] at hfails ⊢
    exact ConfigValue.converted_eq_error hfails
  case same =>
    rw [Tree.read_load_of_hasLayers hlayers', hload]
    refine ConfigValue.converted_congr fun settings => ?_
    rw [Layers.converted_config_eq_ok_iff hwell', Layers.converted_config_eq_ok_iff hwell,
      Layers.decides_congr (hsame .format), Layers.decides_congr (hsame .maxReported),
      Layers.decides_congr (hsame .descriptor)]
  case run =>
    subst hexplicit
    refine ⟨fun e he => Command.read_checked_of_load_error he, fun settings report hrun => ?_⟩
    obtain ⟨config, schema, value, hloads, rfl⟩ := Command.exists_loads_of_read_checked hrun
    exact ⟨config, schema, hloads.config_eq, rfl, rfl, rfl, hloads.schema_eq⟩

/-- Saved settings in the current directory, and a variable that says no to the descriptors that they ask
    for: the variable decides this setting, the file decides the others. -/
theorem load_decided_by_variable :
    let text := "[output]\nformat = \"json\"\nmax_reported = 9\n\n[schema]\ndescriptor = true\n"
    let tree : Tree := ⟨[(["work", "schema-validate.toml"], .file text.toUTF8)], ["work"]⟩
    let environment : Environment := { bindings := [("SCHEMA_VALIDATE__SCHEMA__DESCRIPTOR", "false")] }
    let saved : Settings := ⟨.json, some 9, true⟩
    let layers : Layers := ⟨saved.written, [], [], [], [], [("schema.descriptor", .bool false)]⟩
    tree.HasLayers none environment layers ∧ (∀ layer ∈ layers.lowestFirst, WellFormed layer) ∧
      tree.read (Settings.load none environment) = .ok ⟨.json, some 9, false⟩ ∧
      layers.Decides .maxReported ConfigValue.count? none (some 9) ∧
      layers.Decides .descriptor ConfigValue.truth? false false := by
  intro text tree environment saved layers
  have hvariables : environmentEntries environment = layers.environment := by
    have hkey : keyOfVariable? "SCHEMA_VALIDATE__SCHEMA__DESCRIPTOR" = some "schema.descriptor" := by
      decide +kernel
    have hvalue : ConfigValue.ofText "false" = .bool false := by
      rw [ConfigValue.ofText, if_neg (by decide), if_pos (by decide)]
    simp [environmentEntries, environment, layers, hkey, hvalue]
  have hrender : saved.render? = some text := by decide +kernel
  have hread : tree.read (readConfig? ConfigFormats.plain.endings "schema-validate.toml") =
      some ("toml", text) := by decide +kernel
  have hlayers : tree.HasLayers none environment layers :=
    { plainFile := Tree.read_fileEntries_saved hrender hread
      hiddenFile := Tree.read_fileEntries_of_absent (by decide +kernel)
      nestedFile := Tree.read_fileEntries_of_absent (by decide +kernel)
      userFile := rfl
      explicitFile := rfl
      variables_eq := hvariables }
  have hwell : ∀ layer ∈ layers.lowestFirst, WellFormed layer := by
    have hpath : KeyPath.ofKey "schema.descriptor" = [.name "schema", .name "descriptor"] := rfl
    have hvariable : WellFormed [("schema.descriptor", .bool false)] := wellFormed_variable hpath trivial
    simp only [layers, Layers.lowestFirst, List.forall_mem_cons]
    exact ⟨saved.wellFormed_written, wellFormed_nil, wellFormed_nil, wellFormed_nil, wellFormed_nil,
      hvariable, fun _ h => absurd h List.not_mem_nil⟩
  have hload : tree.read (Settings.load none environment) = .ok ⟨.json, some 9, false⟩ := by
    decide +kernel
  obtain ⟨hdecided, -⟩ := load_decided_by_highest_layer hlayers hwell
  obtain ⟨-, hcount, hdescriptor⟩ := (hdecided _).1 hload
  exact ⟨hlayers, hwell, hload, hcount, hdescriptor⟩

end Conform
