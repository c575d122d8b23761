import StepRelay.Value.Basic

/-!
# Named value slots

A `Cell` is a value under a name together with the step that wrote it and the logical time of the
write. Its kind is fixed when it is made; overwriting replaces the value and the time.
-/

namespace StepRelay

/-- Identifies one step of a run. Several invocations may share an id. -/
structure StepId where
  id : String
  deriving DecidableEq, Inhabited

/-- A time of the run's logical clock; zero is before the first write. -/
abbrev LogicalTime := Nat

/-- The part that a cell plays in one invocation. -/
inductive CellKind where
  /-- Resolved when the step begins; never written. -/
  | input
  /-- Local to the invocation. -/
  | state
  /-- Published when the step commits. -/
  | output
  deriving DecidableEq

def CellKind.name : CellKind → String
  | input => "input"
  | state => "state"
  | output => "output"

/-- A named value with its provenance. -/
structure Cell where
  name : String
  value : Value
  origin : StepId
  kind : CellKind
  writtenAt : LogicalTime

namespace Cell

/-- Replaces the value and the time; name, kind and origin stay. -/
def overwrite (cell : Cell) (value : Value) (writtenAt : LogicalTime) : Cell :=
  { cell with value, writtenAt }

/-- The same cell in another part, as when a published output is handed on as an input. -/
def relabel (cell : Cell) (kind : CellKind) : Cell := { cell with kind }

/-- Equality as steps observe it: values by `Value.equals`. -/
def equals (a b : Cell) : Bool :=
  a.name == b.name && a.value.equals b.value && a.origin == b.origin && a.kind == b.kind &&
    a.writtenAt == b.writtenAt

/-- The cells by name. A repeated name keeps its first place and its last cell. -/
def byName (cells : List Cell) : OrderedMap Cell :=
  .ofPairs (cells.map fun cell => (cell.name, cell))

/-- The values by name, in the order of the cells. -/
def valuesByName (cells : List Cell) : OrderedMap Value :=
  .ofPairs (cells.map fun cell => (cell.name, cell.value))

end Cell

end StepRelay
