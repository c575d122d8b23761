import StepRelay.Event
import StepRelay.Step.Store
import StepRelay.Value.Tree

/-!
# One invocation of a step

An invocation has a frozen snapshot of its inputs, the cells that it writes, and a phase. An output
that has no text is refused, and the first such refusal decides the fate of the invocation even if
the script goes on.
-/

namespace StepRelay

/-- The values that an invocation sees as inputs, the same for its whole life. -/
structure Inputs where
  step : StepId
  values : OrderedMap Value

namespace Inputs

def get? (inputs : Inputs) (name : String) : Option Value := inputs.values.get? name

/-- The value of an input that the script cannot do without. -/
def require (inputs : Inputs) (name : String) : Except StepError Value :=
  match inputs.get? name with
  | some value => .ok value
  | none => .error (.unknownInput inputs.step name)

def contains (inputs : Inputs) (name : String) : Bool := inputs.values.contains name

def names (inputs : Inputs) : List String := inputs.values.keys

def size (inputs : Inputs) : Nat := inputs.values.size

end Inputs

/-- One invocation of a step, from the resolution of its inputs to its end. -/
structure Invocation where
  store : StepStore
  inputs : Inputs
  /-- The version of the table at which the inputs were resolved. -/
  observed : LogicalTime
  phase : Phase := .pending
  /-- The first refusal of an output that has no text. -/
  fatal : Option StepError := none

namespace Invocation

/-- A fresh invocation with the given input cells. -/
def start (step : StepId) (cells : List Cell) (observed : LogicalTime) : Invocation where
  store := .ofInputs step cells
  inputs := ⟨step, Cell.valuesByName cells⟩
  observed

def step (invocation : Invocation) : StepId := invocation.store.step

/-- The state written so far. -/
def state (invocation : Invocation) : OrderedMap Value := invocation.store.values .state

/-- The outputs written so far. -/
def outputs (invocation : Invocation) : OrderedMap Value := invocation.store.values .output

/-- A pending invocation runs from now on. -/
def markRunning (invocation : Invocation) : Invocation :=
  if invocation.phase = .pending then { invocation with phase := .running } else invocation

/-- What a write leaves behind: its outcome, the invocation and the clock. -/
structure Written where
  outcome : Except StepError Unit
  invocation : Invocation
  clock : Clock

/-- Writes to the store; a refused write changes nothing. -/
def write (invocation : Invocation) (clock : Clock) (name : String) (value : Value)
    (kind : CellKind) : Written :=
  match invocation.store.write clock name value kind with
  | .ok (store, clock) => ⟨.ok (), { invocation with store }, clock⟩
  | .error error => ⟨.error error, invocation, clock⟩

/-- Writes a state value. -/
def set (invocation : Invocation) (clock : Clock) (name : String) (value : Value) : Written :=
  invocation.markRunning.write clock name value .state

/-- Writes an output. A name that holds state is refused before the value is looked at; a value
without text is refused and remembered. -/
def setOutput (invocation : Invocation) (clock : Clock) (name : String) (value : Value) : Written :=
  let invocation := invocation.markRunning
  if invocation.store.kindOf name = some .state then invocation.write clock name value .output
  else
    match value.toJson with
    | .error source =>
      let error := StepError.serialization invocation.step name source
      -- only the first refusal is kept
      ⟨.error error, { invocation with fatal := invocation.fatal.or (some error) }, clock⟩
    | .ok _ => invocation.write clock name value .output

end Invocation

end StepRelay
