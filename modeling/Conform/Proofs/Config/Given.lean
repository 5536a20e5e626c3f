/-
Module: Conform.Proofs.Config.Given
Purpose: What the entries of a layer give for a setting, and what the configuration has for it when they
  are laid over it. An entry gives a setting inside the table of its section, or by a key that spells the
  path to it. What a layer gives replaces what was there, and a setting that it does not give stays as it
  was.
Main exports: LastGives, Updates, foldl_last, Setting, Setting.Provides, Setting.Gives, WellFormed,
  ConfigValue.Sectioned, ConfigValue.updates_put, ConfigValue.updates_layer
-/
import Conform.Proofs.Config.Saved

namespace Conform

/-! ### The last to give something -/

section Last

variable {α β σ : Type}

/-- The last of the items that give anything gives this. -/
def LastGives (gives : α → β → Prop) (items : List α) (v : β) : Prop :=
  ∃ before item after, items = before ++ item :: after ∧ gives item v ∧
    ∀ later ∈ after, ∀ w, ¬ gives later w

variable {gives : α → β → Prop} {items : List α} {v : β}

/-- The last of the further items decides, or else the first item. -/
theorem lastGives_cons_iff {item : α} :
    LastGives gives (item :: items) v ↔
      LastGives gives items v ∨ gives item v ∧ ∀ later ∈ items, ∀ w, ¬ gives later w := by
  constructor
  · rintro ⟨_ | ⟨first, before⟩, item', after, heq, hgives, hafter⟩
    · obtain ⟨rfl, rfl⟩ := List.cons.inj heq
      exact .inr ⟨hgives, hafter⟩
    · obtain ⟨rfl, rfl⟩ := List.cons.inj heq
      exact .inl ⟨before, item', after, rfl, hgives, hafter⟩
  · rintro (⟨before, item', after, rfl, hgives, hafter⟩ | ⟨hgives, hafter⟩)
    · exact ⟨item :: before, item', after, rfl, hgives, hafter⟩
    · exact ⟨[], item, items, rfl, hgives, hafter⟩

theorem not_lastGives_nil : ¬ LastGives gives [] v := by
  rintro ⟨before, item, after, heq, -⟩
  cases before <;> cases heq

/-- Some item gives something, and one of those is the last, or none does. -/
theorem exists_lastGives_or (gives : α → β → Prop) (items : List α) :
    (∃ v, LastGives gives items v) ∨ ∀ item ∈ items, ∀ v, ¬ gives item v := by
  induction items with
  | nil => exact .inr fun _ h => absurd h List.not_mem_nil
  | cons item rest ih =>
    rcases ih with ⟨v, hlast⟩ | hnone
    · exact .inl ⟨v, lastGives_cons_iff.2 (.inl hlast)⟩
    · by_cases hgives : ∃ v, gives item v
      · obtain ⟨v, hv⟩ := hgives
        exact .inl ⟨v, lastGives_cons_iff.2 (.inr ⟨hv, hnone⟩)⟩
      · exact .inr (List.forall_mem_cons.2 ⟨fun v hv => hgives ⟨v, hv⟩, hnone⟩)

theorem LastGives.exists_mem (h : LastGives gives items v) : ∃ item ∈ items, gives item v := by
  obtain ⟨before, item, after, rfl, hgives, -⟩ := h
  exact ⟨item, List.mem_append_right _ List.mem_cons_self, hgives⟩

/-- If all that is given is the same, the last one gives it. -/
theorem lastGives_of_once {item : α} (hmem : item ∈ items) (hgives : gives item v)
    (honce : ∀ other ∈ items, ∀ w, gives other w → w = v) : LastGives gives items v := by
  rcases exists_lastGives_or gives items with ⟨w, hlast⟩ | hnone
  · obtain ⟨other, hother, hw⟩ := hlast.exists_mem
    rwa [honce other hother w hw] at hlast
  · exact absurd hgives (hnone item hmem v)

/-- What is seen becomes what is given, if anything is, and stays the same if not. -/
structure Updates (gives : β → Prop) (old new : Option β) : Prop where
  given : ∀ v, gives v → new = some v
  kept : (∀ v, ¬ gives v) → new = old

/-- Only one value is given where what is seen becomes it. -/
theorem Updates.unique {gives : β → Prop} {old new : Option β} {v w : β}
    (h : Updates gives old new) (hv : gives v)
    (hw : gives w) : v = w := Option.some.inj ((h.given v hv).symm.trans (h.given w hw))

/-- Where each step leaves what its item gives, all steps leave what the last of the items gives. -/
theorem foldl_last (Holds : σ → Prop) (seen : σ → Option β) {step : σ → α → σ}
    (hstep : ∀ state, Holds state → ∀ item ∈ items,
      Holds (step state item) ∧ Updates (gives item) (seen state) (seen (step state item)))
    {state : σ} (hstate : Holds state) :
    Holds (items.foldl step state) ∧
      Updates (LastGives gives items) (seen state) (seen (items.foldl step state)) := by
  induction items generalizing state with
  | nil => exact ⟨hstate, fun v h => absurd h not_lastGives_nil, fun _ => rfl⟩
  | cons item rest ih =>
    obtain ⟨hfirst, hgiven, hkept⟩ := hstep state hstate item List.mem_cons_self
    obtain ⟨hholds, hlast, hrest⟩ := ih (fun state hstate other hmem =>
      hstep state hstate other (List.mem_cons_of_mem item hmem)) hfirst
    refine ⟨hholds, fun v hv => ?_, fun hnone => ?_⟩
    · rcases lastGives_cons_iff.1 hv with hv | ⟨hv, hafter⟩
      · exact hlast v hv
      · rw [List.foldl_cons, hrest, hgiven v hv]
        intro w hw
        obtain ⟨later, hmem, hgives⟩ := hw.exists_mem
        exact hafter later hmem w hgives
    · rw [List.foldl_cons, hrest fun w hw => hnone w (lastGives_cons_iff.2 (.inl hw)), hkept]
      intro v hv
      rcases exists_lastGives_or gives rest with ⟨w, hw⟩ | hrest
      · exact hnone w (lastGives_cons_iff.2 (.inl hw))
      · exact hnone v (lastGives_cons_iff.2 (.inr ⟨hv, hrest⟩))

end Last

/-! ### Settings in a layer -/

/-- The three settings. -/
inductive Setting where
  | format
  | maxReported
  | descriptor

namespace Setting

/-- The section of a setting. -/
def table : Setting → String
  | .format | .maxReported => "output"
  | .descriptor => "schema"

/-- The name of a setting in its section. -/
def name : Setting → String
  | .format => "format"
  | .maxReported => "max_reported"
  | .descriptor => "descriptor"

/-- An entry of a layer gives a value for a setting: its key is the section and the value stands in the
    table there, or its key spells the path to the setting. Names are compared in lower case. -/
inductive Provides (setting : Setting) : String × ConfigValue → ConfigValue → Prop where
  | inTable {key first name : String} {entries : Entries ConfigValue} {v : ConfigValue}
      (path : KeyPath.ofKey key = [.name first]) (section_eq : lowerCase first = setting.table)
      (mem : (name, v) ∈ entries) (name_eq : lowerCase name = setting.name) :
      Provides setting (key, .table entries) v
  | atPath {key first second : String} {v : ConfigValue}
      (path : KeyPath.ofKey key = [.name first, .name second])
      (section_eq : lowerCase first = setting.table)
      (name_eq : lowerCase second = setting.name) : Provides setting (key, v) v

/-- A layer gives a value for a setting. -/
def Gives (setting : Setting) (layer : Entries ConfigValue) (v : ConfigValue) : Prop :=
  ∃ entry ∈ layer, setting.Provides entry v

end Setting

/-- A truth value, a number or a string. -/
def ConfigValue.IsScalar : ConfigValue → Prop
  | .bool _ | .integer _ | .float _ | .string _ => True
  | _ => False

/-- A layer has tables under the names of the sections, if anything, and scalar values for the settings,
    each of them given once. -/
structure WellFormed (layer : Entries ConfigValue) : Prop where
  tables : ∀ (setting : Setting) key value first, (key, value) ∈ layer →
    KeyPath.ofKey key = [.name first] →
    lowerCase first = setting.table → ∃ entries, value = .table entries
  not_arrays : ∀ (setting : Setting) key value first i rest, (key, value) ∈ layer →
    KeyPath.ofKey key = .name first :: .index i :: rest → lowerCase first ≠ setting.table
  ends : ∀ (setting : Setting) key value first second rest, (key, value) ∈ layer →
    KeyPath.ofKey key = .name first :: .name second :: rest → lowerCase first = setting.table →
      lowerCase second = setting.name → rest = []
  scalar : ∀ (setting : Setting) v, setting.Gives layer v → v.IsScalar
  once : ∀ (setting : Setting) v w, setting.Gives layer v → setting.Gives layer w → v = w

/-- The path of a key begins with a name. -/
theorem KeyPath.exists_ofKey_eq (key : String) :
    ∃ first rest, KeyPath.ofKey key = .name first :: rest := by
  rw [KeyPath.ofKey]
  cases hname : KeyPath.name key.toList with
  | none => exact ⟨key, [], rfl⟩
  | some found =>
    obtain ⟨step, rest⟩ := found
    obtain ⟨first, rfl⟩ : ∃ first, step = .name first := by
      rw [KeyPath.name] at hname
      split at hname
      · cases hname
      · exact ⟨_, (Prod.mk.inj (Option.some.inj hname)).1.symm⟩
    dsimp only
    split
    · exact ⟨first, _, rfl⟩
    · exact ⟨key, [], rfl⟩

namespace ConfigValue

variable {setting : Setting} {base value : ConfigValue} {first : String} {rest : KeyPath}
    {v : ConfigValue}

/-- A scalar value replaces the one that is there. -/
theorem IsScalar.overlay_eq (h : v.IsScalar) (base : ConfigValue) : base.overlay v = v := by
  cases v with
  | table entries => exact h.elim
  | _ =>
    rw [overlay]
    exact fun _ => ConfigValue.noConfusion

/-! ### Entries over a table -/

/-- Entries are laid over a table one after the other. -/
theorem overlayEntries_eq_foldl (base entries : Entries ConfigValue) :
    overlayEntries base entries = entries.foldl (fun base entry =>
      Entries.set (lowerCase entry.1)
        (((base.lookup (lowerCase entry.1)).getD (.table [])).overlay entry.2) base) base := by
  induction entries generalizing base with
  | nil => rw [overlayEntries, List.foldl_nil]
  | cons entry rest ih =>
    rcases entry with ⟨name, value⟩
    rw [overlayEntries, ih, List.foldl_cons]

/-- A table that is laid over a table leaves the scalar value that it has under a name, or else what was
    there. -/
theorem updates_overlayEntries (name : String) (base entries : Entries ConfigValue)
    (hscalar : ∀ key v, (key, v) ∈ entries → lowerCase key = name → v.IsScalar) :
    Updates (LastGives (fun entry v => lowerCase entry.1 = name ∧ entry.2 = v) entries) (base.lookup name)
      ((overlayEntries base entries).lookup name) := by
  rw [overlayEntries_eq_foldl]
  refine (foldl_last (fun _ => True) (fun base : Entries ConfigValue => base.lookup name)
    (fun base _ entry hmem => ⟨trivial, ?_, ?_⟩) trivial).2
  · rintro v ⟨rfl, rfl⟩
    rw [Entries.lookup_set_self, (hscalar entry.1 entry.2 hmem rfl).overlay_eq]
  · intro hnone
    exact Entries.lookup_set_of_ne _ _ fun hname => hnone entry.2 ⟨hname.symm, rfl⟩

/-! ### An entry over a configuration -/

/-- The sections are tables, if they are there. -/
def Sectioned (config : ConfigValue) : Prop :=
  ∀ setting : Setting, ∀ v, config.entries.lookup setting.table = some v → ∃ entries, v = .table entries

/-- What is put at a path goes into the part under the first name. -/
theorem lookup_put_self (value : ConfigValue) (first : String) (rest : KeyPath) (base : ConfigValue) :
    (put value (.name first :: rest) base).entries.lookup (lowerCase first) =
      some (put value rest ((base.entries.lookup (lowerCase first)).getD (.table []))) := by
  rw [put]
  exact Entries.lookup_set_self _ _ _

/-- Other parts stay as they are. -/
theorem lookup_put_of_ne {table : String} (h : lowerCase first ≠ table) (value : ConfigValue)
    (rest : KeyPath)
    (base : ConfigValue) :
    (put value (.name first :: rest) base).entries.lookup table = base.entries.lookup table := by
  rw [put]
  exact Entries.lookup_set_of_ne _ _ h.symm

theorem overlay_table (base entries : Entries ConfigValue) :
    (ConfigValue.table base).overlay (.table entries) = .table (overlayEntries base entries) := by
  cases entries with
  | nil => rw [overlay, List.isEmpty_nil, if_pos rfl, overlayEntries]
  | cons entry rest =>
    rw [overlay]
    rfl

/-- The part of a sectioned configuration is a table, perhaps a new one. -/
theorem Sectioned.getD_eq (h : base.Sectioned) (setting : Setting) :
    (base.entries.lookup setting.table).getD (.table []) = .table (base.part setting.table) := by
  rw [part]
  cases hpart : base.entries.lookup setting.table with
  | none => rfl
  | some v =>
    obtain ⟨entries, rfl⟩ := h setting v hpart
    rfl

section Put

variable {layer : Entries ConfigValue} {key : String}

/-- An entry whose key leads to another section gives nothing for a setting. -/
theorem section_of_provides (hpath : KeyPath.ofKey key = .name first :: rest)
    (h : setting.Provides (key, value) v) : lowerCase first = setting.table := by
  cases h with
  | inTable path section_eq =>
    obtain ⟨hfirst, -⟩ := List.cons.inj (hpath.symm.trans path)
    rwa [KeyStep.name.inj hfirst]
  | atPath path section_eq =>
    obtain ⟨hfirst, -⟩ := List.cons.inj (hpath.symm.trans path)
    rwa [KeyStep.name.inj hfirst]

/-- A table in the place of a section gives the settings that it has entries for. -/
theorem provides_table_iff {entries : Entries ConfigValue} (hpath : KeyPath.ofKey key = [.name first])
    (hsection : lowerCase first = setting.table) : setting.Provides (key, .table entries) v ↔
      ∃ entry ∈ entries, lowerCase entry.1 = setting.name ∧ entry.2 = v := by
  constructor
  · intro h
    cases h with
    | inTable _ _ mem name_eq => exact ⟨_, mem, name_eq, rfl⟩
    | atPath path =>
      rw [hpath] at path
      cases path
  · rintro ⟨⟨name, v⟩, hmem, hname, rfl⟩
    exact .inTable hpath hsection hmem hname

/-- A table under the name of a section, in lower case, gives the settings of the section that it has
    entries for. -/
theorem provides_section_iff {entries : Entries ConfigValue} (hpath : KeyPath.ofKey key = [.name key])
    (hlower : lowerCase key = key) : setting.Provides (key, .table entries) v ↔
      key = setting.table ∧ ∃ entry ∈ entries, lowerCase entry.1 = setting.name ∧ entry.2 = v := by
  constructor
  · intro h
    have hsection := section_of_provides hpath h
    exact ⟨hlower.symm.trans hsection, (provides_table_iff hpath hsection).1 h⟩
  · rintro ⟨hsection, hentry⟩
    exact (provides_table_iff hpath (hlower.trans hsection)).2 hentry

/-- A key with a path gives the setting at its end. -/
theorem provides_path_iff {second : String}
    (hpath : KeyPath.ofKey key = .name first :: .name second :: rest)
    (hsection : lowerCase first = setting.table) : setting.Provides (key, value) v ↔
      rest = [] ∧ lowerCase second = setting.name ∧ value = v := by
  constructor
  · intro h
    cases h with
    | inTable path =>
      rw [hpath] at path
      cases path
    | atPath path _ name_eq =>
      rw [hpath] at path
      cases path
      exact ⟨rfl, name_eq, rfl⟩
  · rintro ⟨rfl, hname, rfl⟩
    exact .atPath hpath hsection hname

/-- An entry that goes into a section leaves it a table, with what it gives for a setting
    of the section. -/
theorem exists_table_put (hwell : WellFormed layer) (hmem : (key, value) ∈ layer)
    (hpath : KeyPath.ofKey key = .name first :: rest) (hsection : lowerCase first = setting.table)
    (old : Entries ConfigValue) : ∃ new, put value rest (.table old) = .table new ∧
      Updates (setting.Provides (key, value)) (old.lookup setting.name) (new.lookup setting.name) := by
  cases rest with
  | nil =>
    obtain ⟨entries, rfl⟩ := hwell.tables setting key value first hmem hpath hsection
    refine ⟨overlayEntries old entries, overlay_table old entries, ?_⟩
    have hprovides : ∀ v, setting.Provides (key, .table entries) v ↔
        ∃ entry ∈ entries, lowerCase entry.1 = setting.name ∧ entry.2 = v :=
      fun v => provides_table_iff hpath hsection
    obtain ⟨hgiven, hkept⟩ := updates_overlayEntries setting.name old entries fun name v hentry hname =>
      hwell.scalar setting v ⟨_, hmem, (hprovides v).2 ⟨_, hentry, hname, rfl⟩⟩
    refine ⟨fun v hv => hgiven v ?_, fun hnone => hkept fun v hv => ?_⟩
    · obtain ⟨entry, hentry, hgives⟩ := (hprovides v).1 hv
      exact lastGives_of_once hentry hgives fun other hother w hw =>
        hwell.once setting w v ⟨_, hmem, (hprovides w).2 ⟨other, hother, hw⟩⟩ ⟨_, hmem, hv⟩
    · exact hnone v ((hprovides v).2 hv.exists_mem)
  | cons step rest =>
    cases step with
    | index i => exact absurd hsection (hwell.not_arrays setting key value first i rest hmem hpath)
    | name second =>
      have hprovides : ∀ v, setting.Provides (key, value) v ↔
          rest = [] ∧ lowerCase second = setting.name ∧ value = v :=
        fun v => provides_path_iff hpath hsection
      rw [put]
      refine ⟨_, rfl, fun v hv => ?_, fun hnone => ?_⟩
      · obtain ⟨rfl, hname, rfl⟩ := (hprovides v).1 hv
        have hscalar := hwell.scalar setting value ⟨_, hmem, hv⟩
        rw [← hname, Entries.lookup_set_self, put, hscalar.overlay_eq]
      · refine Entries.lookup_set_of_ne _ _ fun hname =>
          hnone value ((hprovides value).2 ⟨?_, hname.symm, rfl⟩)
        exact hwell.ends setting key value first second rest hmem hpath hsection hname.symm

/-- An entry of a layer leaves the sections tables and what it gives for the settings. -/
theorem updates_put (hwell : WellFormed layer) (hmem : (key, value) ∈ layer) (hbase : base.Sectioned) :
    (put value (KeyPath.ofKey key) base).Sectioned ∧
      ∀ setting : Setting, Updates (setting.Provides (key, value))
        (base.entry? setting.table setting.name)
        (ConfigValue.entry? (put value (KeyPath.ofKey key) base) setting.table setting.name) := by
  obtain ⟨first, rest, hpath⟩ := KeyPath.exists_ofKey_eq key
  rw [hpath]
  refine ⟨fun setting v hv => ?_, fun setting => ?_⟩
  · by_cases hsection : lowerCase first = setting.table
    · obtain ⟨new, hput, -⟩ := exists_table_put hwell hmem hpath hsection (base.part setting.table)
      rw [← hsection, lookup_put_self, hsection, hbase.getD_eq, hput] at hv
      exact ⟨new, (Option.some.inj hv).symm⟩
    · rw [lookup_put_of_ne hsection] at hv
      exact hbase setting v hv
  · by_cases hsection : lowerCase first = setting.table
    · obtain ⟨new, hput, hupdates⟩ := exists_table_put hwell hmem hpath hsection (base.part setting.table)
      have hnew : ConfigValue.entry? (put value (.name first :: rest) base) setting.table setting.name =
          new.lookup setting.name := by
        rw [ConfigValue.entry?, ← hsection, lookup_put_self, hsection, hbase.getD_eq, hput]
        rfl
      rw [hnew, ← lookup_part]
      exact hupdates
    · have hsame : ConfigValue.entry? (put value (.name first :: rest) base) setting.table setting.name =
          base.entry? setting.table setting.name := by
        rw [ConfigValue.entry?, lookup_put_of_ne hsection, ConfigValue.entry?]
      exact ⟨fun v hv => absurd (section_of_provides hpath hv) hsection, fun _ => hsame⟩

/-- A layer leaves the sections tables and what it gives for the settings. -/
theorem updates_layer (hwell : WellFormed layer) (hbase : base.Sectioned) :
    (base.layer layer).Sectioned ∧
      ∀ setting : Setting, Updates (setting.Gives layer) (base.entry? setting.table setting.name)
        (ConfigValue.entry? (base.layer layer) setting.table setting.name) := by
  have hfold : ∀ setting : Setting, (base.layer layer).Sectioned ∧
      Updates (LastGives setting.Provides layer) (base.entry? setting.table setting.name)
        (ConfigValue.entry? (base.layer layer) setting.table setting.name) := fun setting =>
    foldl_last Sectioned (fun config => config.entry? setting.table setting.name)
      (fun config hconfig entry hmem =>
        ⟨(updates_put hwell hmem hconfig).1, (updates_put hwell hmem hconfig).2 setting⟩) hbase
  refine ⟨(hfold .format).1, fun setting => ⟨fun v hv => ?_, fun hnone => ?_⟩⟩
  · obtain ⟨entry, hmem, hprovides⟩ := hv
    exact (hfold setting).2.given v (lastGives_of_once hmem hprovides fun other hother w hw =>
      hwell.once setting w v ⟨other, hother, hw⟩ ⟨entry, hmem, hprovides⟩)
  · exact (hfold setting).2.kept fun v hv => hnone v hv.exists_mem

end Put

end ConfigValue

end Conform
