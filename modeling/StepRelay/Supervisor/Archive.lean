import StepRelay.Event
import StepRelay.Step.Error

/-!
# The archive of finished invocations

The archive keeps the newest records, at least one. A push tells which steps have lost their last
record by it.
-/

namespace StepRelay

/-- A finished invocation. -/
structure Record where
  step : StepId
  phase : Phase
  inputs : OrderedMap Value
  state : OrderedMap Value
  /-- What the invocation wrote; published only if it committed. -/
  outputs : OrderedMap Value
  failure : Option StepError

def Record.isCommitted (record : Record) : Bool := record.phase == .committed

/-- Finished invocations, oldest first. -/
structure Archive where
  capacity : Nat
  records : List Record := []

namespace Archive

/-- How many records the archive keeps. -/
def room (archive : Archive) : Nat := max archive.capacity 1

/-- Adds a record, drops the oldest ones beyond the capacity, and names the steps that had a record
and have none left. -/
def push (archive : Archive) (record : Record) : Archive × List StepId :=
  let excess := archive.records.length + 1 - archive.room
  let records := archive.records.drop excess ++ [record]
  -- a step that still has a record here keeps its logs
  let evicted := ((archive.records.take excess).map Record.step).filter fun step =>
    !records.any fun kept => kept.step == step
  ({ archive with records }, evicted.eraseReps)

/-- The newest record of a step. -/
def latest? (archive : Archive) (step : StepId) : Option Record :=
  archive.records.reverse.find? fun record => record.step == step

end Archive

end StepRelay
