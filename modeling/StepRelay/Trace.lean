import StepRelay.Log.Entry

/-!
# Trace lines

What the library tells an operator about its own work, apart from events and results.
-/

namespace StepRelay

/-- One line: where it comes from, what it says, and named details in order. -/
structure TraceLine where
  level : LogLevel
  target : String
  message : String
  fields : List (String × String)
  deriving DecidableEq

end StepRelay
