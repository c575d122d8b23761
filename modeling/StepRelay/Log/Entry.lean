import StepRelay.Cell

/-!
# Log entries of scripts
-/

namespace StepRelay

/-- The severity that a script gave to a log call. -/
inductive LogLevel where
  | debug
  | info
  | warn
  | error
  deriving DecidableEq

def LogLevel.name : LogLevel → String
  | debug => "debug"
  | info => "info"
  | warn => "warn"
  | error => "error"

/-- One log call. The message is kept as the script wrote it. -/
structure LogEntry where
  step : StepId
  level : LogLevel
  message : String
  deriving DecidableEq

end StepRelay
