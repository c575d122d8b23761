import StepRelay.Trace

/-!
# Configuration of a supervisor
-/

namespace StepRelay

/-- The settings of a supervisor. -/
structure Config where
  /-- Script log entries that are kept for each step. -/
  scriptLogCapacity : Nat := 1000
  /-- Finished invocations that are kept on record. -/
  archiveCapacity : Nat := 256
  /-- Whether a constant beats a published value of the same name. -/
  constantsOverridePublished : Bool := true
  deriving DecidableEq, Inhabited

/-- Why settings are refused. -/
inductive ConfigError where
  | invalidField (field reason : String)
  deriving DecidableEq

def ConfigError.message : ConfigError → String
  | invalidField field reason => s!"Invalid value for '{field}': {reason}"

namespace Config

/-- Both capacities are positive. -/
def Valid (config : Config) : Prop := 1 ≤ config.scriptLogCapacity ∧ 1 ≤ config.archiveCapacity

instance (config : Config) : Decidable config.Valid := inferInstanceAs (Decidable (_ ∧ _))

/-- The line that tells of accepted settings. -/
def validatedLine (config : Config) : TraceLine where
  level := .debug
  target := "stepwire_engine::config::validation"
  message := "Validated bridge configuration"
  fields := [("script_log_capacity", toString config.scriptLogCapacity),
    ("archive_capacity", toString config.archiveCapacity)]

/-- Refuses settings that a supervisor cannot run with, the script log capacity first; else gives
the line to trace. -/
def validate (config : Config) : Except ConfigError TraceLine :=
  if config.scriptLogCapacity = 0 then
    .error (.invalidField "scriptLogCapacity" "must be greater than zero")
  else if config.archiveCapacity = 0 then
    .error (.invalidField "archiveCapacity" "must be greater than zero")
  else .ok config.validatedLine

theorem validate_eq_ok_iff (config : Config) :
    config.validate = .ok config.validatedLine ↔ config.Valid := by
  unfold validate Valid
  by_cases hs : config.scriptLogCapacity = 0
  · simp [hs]
  · by_cases ha : config.archiveCapacity = 0
    · simp [hs, ha]
    · simp [hs, ha]
      omega

end Config

end StepRelay
