import StepRelay.Clock
import StepRelay.Step.Error

/-!
# The cells of one invocation

A store holds the inputs that were resolved when the invocation began, its state and its outputs. A
name is in the state or among the outputs, never both; within one kind the last write counts. An
input's name may be written as either, which leaves the input as it is.
-/

namespace StepRelay

/-- The cells of one invocation, by kind and name. -/
structure StepStore where
  step : StepId
  inputs : OrderedMap Cell
  state : OrderedMap Cell := ∅
  outputs : OrderedMap Cell := ∅

namespace StepStore

/-- A store with the given inputs. -/
def ofInputs (step : StepId) (inputs : List Cell) : StepStore :=
  { step, inputs := Cell.byName inputs }

/-- The cells of a kind, in the order of their first write. -/
def cells (store : StepStore) : CellKind → OrderedMap Cell
  | .input => store.inputs
  | .state => store.state
  | .output => store.outputs

/-- The values of a kind, in the order of their first write. -/
def values (store : StepStore) (kind : CellKind) : OrderedMap Value :=
  (store.cells kind).map Cell.value

/-- The kind under which a name is held; what was written hides an input. -/
def kindOf (store : StepStore) (name : String) : Option CellKind :=
  [CellKind.state, .output, .input].find? fun kind => (store.cells kind).contains name

/-- The cells of one kind after a write at a time. -/
def put (cells : OrderedMap Cell) (step : StepId) (name : String) (value : Value) (kind : CellKind)
    (time : LogicalTime) : OrderedMap Cell :=
  match cells.get? name with
  | some cell => cells.insert name (cell.overwrite value time)
  | none => cells.insert name ⟨name, value, step, kind, time⟩

/-- Writes a state or output cell, which takes one tick. Refused, without a tick, if the name is
held by the other of the two kinds, or for an input. -/
def write (store : StepStore) (clock : Clock) (name : String) (value : Value) (kind : CellKind) :
    Except StepError (StepStore × Clock) :=
  match kind with
  | .input => .error (.readOnlyInput store.step name)
  | .state =>
    if store.outputs.contains name then
      .error (.kindConflict store.step name .output .state)
    else
      let time := clock.tick.now
      .ok ({ store with state := put store.state store.step name value .state time }, clock.tick)
  | .output =>
    if store.state.contains name then
      .error (.kindConflict store.step name .state .output)
    else
      let time := clock.tick.now
      .ok ({ store with outputs := put store.outputs store.step name value .output time },
        clock.tick)

end StepStore

end StepRelay
