import StepRelay.Cell
import StepRelay.Value.Error

/-!
# What can go wrong in a step
-/

namespace StepRelay

/-- An error of a step. All but an ambiguity end the step. -/
inductive StepError where
  /-- The name is taken by a cell of the other kind that a script can write. -/
  | kindConflict (step : StepId) (name : String) (existing requested : CellKind)
  | unknownInput (step : StepId) (name : String)
  | readOnlyInput (step : StepId) (name : String)
  /-- A published output replaced one that its step had not observed. -/
  | ambiguity (name : String) (step previousStep : StepId)
  | scriptFailure (step : StepId) (message : String)
  /-- An output cannot be written as text. -/
  | serialization (step : StepId) (name : String) (source : ValueError)
  | cancelled (step : StepId)
  deriving DecidableEq

namespace StepError

def message : StepError → String
  | kindConflict step name existing requested =>
    s!"step '{step.id}': '{name}' is already a {existing.name} cell and cannot be written as {requested.name}"
  | unknownInput step name =>
    s!"step '{step.id}': input '{name}' was neither declared, supplied, nor published"
  | readOnlyInput step name =>
    s!"step '{step.id}': inputs are read-only, '{name}' cannot be written"
  | ambiguity name step previousStep =>
    s!"'{name}' published by step '{step.id}' overrides a concurrent publish from step '{previousStep.id}'"
  | scriptFailure step message => s!"step '{step.id}': script failed: {message}"
  | serialization step name source =>
    s!"step '{step.id}': value '{name}' cannot be serialized: {source.message}"
  | cancelled step => s!"step '{step.id}' was cancelled"

/-- The step that the error is attributed to. -/
def step : StepError → StepId
  | kindConflict step .. | unknownInput step _ | readOnlyInput step _ | ambiguity _ step _
  | scriptFailure step _ | serialization step .. | cancelled step => step

/-- Whether the error ends its step. -/
def isFatal : StepError → Bool
  | ambiguity .. => false
  | _ => true

end StepError

/-- How a script ends that does not return: with an error of the bridge, or with one of its own. -/
inductive ScriptError where
  | bridge (error : StepError)
  | thrown (message : String)
  deriving DecidableEq

namespace ScriptError

def message : ScriptError → String
  | bridge error => error.message
  | thrown message => message

/-- The error that is reported for the step whose script ended so. -/
def toStepError (error : ScriptError) (step : StepId) : StepError :=
  match error with
  | bridge error => error
  | thrown message => .scriptFailure step message

end ScriptError

end StepRelay
