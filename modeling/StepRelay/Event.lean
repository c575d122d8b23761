import StepRelay.Cell

/-!
# The life of an invocation

An invocation is pending, then running, then committed or failed. The supervisor announces what
happens to it as events.
-/

namespace StepRelay

/-- Where an invocation stands. -/
inductive Phase where
  /-- Inputs resolved, script not yet called. -/
  | pending
  | running
  /-- Outputs published. -/
  | committed
  /-- Ended without publishing anything. -/
  | failed
  deriving DecidableEq

def Phase.name : Phase → String
  | pending => "pending"
  | running => "running"
  | committed => "committed"
  | failed => "failed"

/-- Whether the invocation is over. -/
def Phase.isTerminal : Phase → Bool
  | committed | failed => true
  | pending | running => false

/-- What the supervisor announces. -/
inductive Event where
  /-- Inputs were resolved at a version of the table. -/
  | began (step : StepId) (inputs : List String) (tableVersion : LogicalTime)
  /-- Outputs were published, which made a version of the table. -/
  | committed (step : StepId) (outputs : List String) (tableVersion : LogicalTime)
  | failed (step : StepId) (error : String)
  /-- A published output replaced one that its step had not observed. -/
  | overridden (name : String) (step previousStep : StepId)
  deriving DecidableEq

/-- The step that an event is about. -/
def Event.step : Event → StepId
  | began step _ _ | committed step _ _ | failed step _ | overridden _ step _ => step

end StepRelay
