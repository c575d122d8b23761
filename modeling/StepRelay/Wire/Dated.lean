import StepRelay.Json.Record
import StepRelay.Wire.Cell

/-!
# Dated data on the wire

On the wire a log entry and an event carry the instant at which they were made.
-/

namespace StepRelay

/-- Something that was made at an instant. -/
structure Dated (α : Type) where
  date : Timestamp
  body : α
  deriving DecidableEq

def Timestamp.wireText (t : Timestamp) : List Char := Json.stringText (.ofList t.text)

end StepRelay
