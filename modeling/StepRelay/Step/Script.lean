import StepRelay.Log.Entry
import StepRelay.Step.Invocation

/-!
# Scripts

A script is whatever code a host runs as the body of a step. All that the library knows of it is the
calls it makes and how it ends, so a `Script` is a tree: at an inner node a call, with one subtree
for each answer the call may get; at a leaf the way the script ends.
-/

namespace StepRelay

/-- How a script ends. -/
inductive Outcome where
  | returned
  /-- With an error, of its own or one that a call had answered. -/
  | failed (error : ScriptError)
  /-- With a panic, whose payload may be a text. -/
  | panicked (message : Option String)
  deriving DecidableEq

/-- The error that is reported for the step whose script ended so; none if it returned. -/
def Outcome.error? (step : StepId) : Outcome → Option StepError
  | returned => none
  | failed error => some (error.toStepError step)
  | panicked (some message) => some (.scriptFailure step s!"script panicked: {message}")
  | panicked none => some (.scriptFailure step "script panicked")

/-- What a script can do. -/
inductive Call where
  | inputs
  | set (name : String) (value : Value)
  | setOutput (name : String) (value : Value)
  | state
  | log (level : LogLevel) (message : String)
  /-- Work of its own, between two calls to the library. -/
  | pause

/-- What a call answers. -/
def Call.Answer : Call → Type
  | inputs => Inputs
  | set .. => Except StepError Unit
  | setOutput .. => Except StepError Unit
  | state => OrderedMap Value
  | log .. => Unit
  | pause => Unit

/-- The body of a step. -/
inductive Script where
  | ends (outcome : Outcome)
  | call (call : Call) (next : call.Answer → Script)

/-- A call and its answer. -/
structure Exchange where
  call : Call
  answer : call.Answer

end StepRelay
