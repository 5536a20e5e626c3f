/-
Module: Conform.Proofs.Command.Loaded
Purpose: A run in two parts: what is read, and what follows from it. Everything that the command looks at
  is loaded first; the outputs are then a function of what was loaded.
Main exports: Command.loaded, Command.eq_ok_of_texts?, Command.outputs, Command.checked_eq,
  Command.run_eq, Command.run_of_loaded
-/
import Conform.Command.Run
import Conform.Proofs.Json.Text
import Conform.Storage.Tree

namespace Conform

namespace Command

variable {m : Type → Type} [Monad m] [Storage m]

/-- The settings of a run with the schema and the instance, or why they do not load. -/
def loaded (input : m ByteArray) (environment : Environment) (arguments : Arguments) :
    m (Except Failure (Settings × Json × Json)) := do
  match ← Settings.load arguments.config environment with
  | .error e => return .error (.configuration e)
  | .ok config =>
    match ← readSchema arguments.schema (settings arguments config).descriptor with
    | .error e => return .error (.schema arguments.schema e)
    | .ok schema =>
      match ← (Source.ofArgument arguments.subject).read input with
      | .error e => return .error (.subject (Source.ofArgument arguments.subject).label e)
      | .ok value => return .ok (settings arguments config, schema, value)

/-- The settings of a run with the compact texts of the schema and the instance, if they load. -/
def texts? : Except Failure (Settings × Json × Json) → Option (Settings × String × String)
  | .error _ => none
  | .ok (settings, schema, value) => some (settings, schema.compact, value.compact)

/-- The texts tell what was loaded. -/
theorem eq_ok_of_texts? {load : Except Failure (Settings × Json × Json)} {settings : Settings}
    {schema value : Json} (h : texts? load = some (settings, schema.compact, value.compact)) :
    load = .ok (settings, schema, value) := by
  cases load with
  | error failure => cases h
  | ok found =>
    obtain ⟨hsettings, htexts⟩ := Prod.mk.inj (Option.some.inj h)
    obtain ⟨hschema, hvalue⟩ := Prod.mk.inj htexts
    have hfound : found = (settings, schema, value) :=
      Prod.ext hsettings (Prod.ext (Json.compact_injective hschema) (Json.compact_injective hvalue))
    rw [hfound]

/-- The settings and the report, from what was loaded. -/
def judged : Except Failure (Settings × Json × Json) → Except Failure (Settings × Report)
  | .error failure => .error failure
  | .ok (settings, schema, value) =>
    match check schema value with
    | .error e => .error (.reference e)
    | .ok report => .ok (settings, report)

/-- The outputs of a run, from what was loaded. -/
def outputs (time : String) (arguments : Arguments) (load : Except Failure (Settings × Json × Json)) :
    Outputs :=
  match judged load with
  | .error failure => failed failure
  | .ok (settings, report) =>
    reported settings report time arguments.schema (Source.ofArgument arguments.subject).label

variable [LawfulMonad m] {input : m ByteArray} {environment : Environment} {arguments : Arguments}

/-- Nothing is read after the documents are loaded. -/
theorem checked_eq :
    checked input environment arguments = judged <$> loaded input environment arguments := by
  rw [checked, loaded, map_bind]
  refine bind_congr fun config => ?_
  cases config with
  | error e => rw [map_pure]; rfl
  | ok config =>
    simp only [map_bind]
    refine bind_congr fun schema => ?_
    cases schema with
    | error e => rw [map_pure]; rfl
    | ok schema =>
      simp only [map_bind]
      refine bind_congr fun value => ?_
      cases value with
      | error e => rw [map_pure]; rfl
      | ok value =>
        rw [map_pure, judged]
        dsimp only
        cases check schema value <;> rfl

/-- A run for a command line that is understood shows what follows from what it loads. -/
theorem run_eq {time : String} {line : List String} (h : parseArguments line = .run arguments) :
    run input environment time line = outputs time arguments <$> loaded input environment arguments := by
  rw [run, h]
  dsimp only
  rw [checked_eq, bind_map_left, map_eq_pure_bind]
  refine bind_congr fun load => ?_
  rw [outputs]
  cases judged load with
  | error failure => rfl
  | ok made => rfl

/-- A run over files in memory shows what follows from what it loads from them. -/
theorem run_of_loaded {input : StateM Tree ByteArray} {time : String}
    {line : List String} {tree after : Tree}
    {load : Except Failure (Settings × Json × Json)} (h : parseArguments line = .run arguments)
    (hloaded : (loaded input environment arguments).run tree = (load, after)) :
    (run input environment time line).run tree = (outputs time arguments load, after) := by
  rw [run_eq h, StateT.run_map, hloaded]
  rfl

end Command

end Conform
