import StepRelay.Log.Entry

/-!
# Bounded log buffers

A ring keeps its newest entries. `StepLogs` keeps one ring for each step that has logged anything
since it was last cleared.
-/

namespace StepRelay

/-- The newest entries, oldest first; a ring of capacity zero keeps none. -/
structure LogRing where
  capacity : Nat
  entries : List LogEntry := []

namespace LogRing

def push (ring : LogRing) (entry : LogEntry) : LogRing :=
  if ring.capacity = 0 then ring
  else if ring.capacity ≤ ring.entries.length then
    { ring with entries := ring.entries.drop 1 ++ [entry] }
  else { ring with entries := ring.entries ++ [entry] }

/-- The newest entries, at most `count`, oldest first. -/
def recent (ring : LogRing) (count : Nat) : List LogEntry :=
  ring.entries.drop (ring.entries.length - count)

end LogRing

/-- A ring of the same capacity for each step. -/
structure StepLogs where
  capacity : Nat
  rings : OrderedMap LogRing := ∅

namespace StepLogs

/-- The entries kept for a step, oldest first. -/
def entries (logs : StepLogs) (step : StepId) : List LogEntry :=
  match logs.rings.get? step.id with
  | some ring => ring.entries
  | none => []

/-- The newest entries kept for a step, at most `count`, oldest first. -/
def recent (logs : StepLogs) (step : StepId) (count : Nat) : List LogEntry :=
  match logs.rings.get? step.id with
  | some ring => ring.recent count
  | none => []

/-- Keeps an entry for its step. -/
def record (logs : StepLogs) (entry : LogEntry) : StepLogs :=
  let ring := (logs.rings.get? entry.step.id).getD { capacity := logs.capacity }
  { logs with rings := logs.rings.insert entry.step.id (ring.push entry) }

/-- Forgets the entries of a step. -/
def clear (logs : StepLogs) (step : StepId) : StepLogs :=
  { logs with rings := logs.rings.erase step.id }

end StepLogs

end StepRelay
