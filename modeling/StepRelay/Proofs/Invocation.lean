import StepRelay.Proofs.OrderedMap
import StepRelay.Step.Invocation

/-!
# What an invocation holds after its writes

`set_cases` and `setOutput_cases` say all that a write can do. From them, `Invocation.Reflects`
ties an invocation to the writes that were asked of it, whoever asked: its state and its outputs are
the accepted writes of the two kinds, and its fatal error is the first refusal.
-/

namespace StepRelay

namespace StepStore

/-! ## Cells that fit where they stand

A cell knows its name, its kind and its origin, and a store puts it under a name, among the cells of
a kind. Every put keeps the two in step.
-/

/-- Each cell stands under its own name, was written by `step` and has the one kind. -/
def CellsFit (cells : OrderedMap Cell) (step : StepId) (kind : CellKind) : Prop :=
  ∀ name cell, cells.get? name = some cell →
    cell.name = name ∧ cell.origin = step ∧ cell.kind = kind

/-- Where there are no cells, all fit. -/
theorem cellsFit_empty (step : StepId) (kind : CellKind) : CellsFit ∅ step kind := by
  intro name cell h
  simp at h

/-- Among fitting cells an overwritten cell is the same as a new one. -/
theorem put_eq_insert {cells : OrderedMap Cell} {step : StepId} {kind : CellKind}
    (h : CellsFit cells step kind) (name : String) (value : Value) (time : LogicalTime) :
    put cells step name value kind time = cells.insert name ⟨name, value, step, kind, time⟩ := by
  unfold put
  cases hcell : cells.get? name with
  | none => rfl
  | some cell =>
    -- name, origin and kind are written anew, to what they were
    obtain ⟨hname, horigin, hkind⟩ := h name cell hcell
    simp [Cell.overwrite, hname, horigin, hkind]

/-- **A write keeps the cells fitting**: the cell that it makes or overwrites is its own. -/
theorem CellsFit.put {cells : OrderedMap Cell} {step : StepId} {kind : CellKind}
    (h : CellsFit cells step kind) (name : String) (value : Value) (time : LogicalTime) :
    CellsFit (put cells step name value kind time) step kind := by
  intro other cell hcell
  rw [put_eq_insert h, OrderedMap.get?_insert] at hcell
  split at hcell
  · next hname =>
    cases hcell
    exact ⟨hname, rfl, rfl⟩
  · exact h other cell hcell

/-- What is written to a store fits where it stands. -/
structure Tidy (store : StepStore) : Prop where
  state : CellsFit store.state store.step .state
  outputs : CellsFit store.outputs store.step .output

/-- A store that holds inputs only has nothing written to it yet. -/
theorem tidy_ofInputs (step : StepId) (inputs : List Cell) : (ofInputs step inputs).Tidy :=
  ⟨cellsFit_empty step .state, cellsFit_empty step .output⟩

/-- What was written as state hides everything else under its name. -/
theorem kindOf_eq_state_iff (store : StepStore) (name : String) :
    store.kindOf name = some .state ↔ store.state.contains name = true := by
  cases hs : store.state.contains name <;>
    cases ho : store.outputs.contains name <;>
      cases hi : store.inputs.contains name <;> simp [kindOf, cells, hs, ho, hi]

end StepStore

namespace Invocation

/-! ## What a write can do

The two inversion lemmas list all outcomes of a write, with the invocation and the clock that each
leaves. Nothing below opens `set` or `setOutput` again.
-/

@[simp] theorem step_eq (invocation : Invocation) : invocation.step = invocation.store.step := rfl

@[simp] theorem state_eq (invocation : Invocation) :
    invocation.state = invocation.store.state.map Cell.value := rfl

@[simp] theorem outputs_eq (invocation : Invocation) :
    invocation.outputs = invocation.store.outputs.map Cell.value := rfl

@[simp] theorem markRunning_store (invocation : Invocation) :
    invocation.markRunning.store = invocation.store := by
  unfold markRunning
  split <;> rfl

@[simp] theorem markRunning_inputs (invocation : Invocation) :
    invocation.markRunning.inputs = invocation.inputs := by
  unfold markRunning
  split <;> rfl

@[simp] theorem markRunning_observed (invocation : Invocation) :
    invocation.markRunning.observed = invocation.observed := by
  unfold markRunning
  split <;> rfl

@[simp] theorem markRunning_fatal (invocation : Invocation) :
    invocation.markRunning.fatal = invocation.fatal := by
  unfold markRunning
  split <;> rfl

/-- A state write is accepted unless the name is an output. -/
theorem set_cases (invocation : Invocation) (clock : Clock) (name : String) (value : Value) :
    (invocation.store.outputs.contains name = false ∧
      invocation.set clock name value =
        ⟨.ok (), { invocation.markRunning with
          store := { invocation.store with
            state := StepStore.put invocation.store.state invocation.step name value .state
              clock.tick.now } }, clock.tick⟩) ∨
    (invocation.store.outputs.contains name = true ∧
      invocation.set clock name value =
        ⟨.error (.kindConflict invocation.step name .output .state), invocation.markRunning,
          clock⟩) := by
  cases h : invocation.store.outputs.contains name with
  | false => exact .inl ⟨rfl, by simp [set, write, StepStore.write, step, h]⟩
  | true => exact .inr ⟨rfl, by simp [set, write, StepStore.write, step, h]⟩

/-- An output write is refused if the name is state, whatever the value, then if the value has no
text, and is accepted otherwise. -/
theorem setOutput_cases (invocation : Invocation) (clock : Clock) (name : String)
    (value : Value) :
    (invocation.store.state.contains name = false ∧ (∃ json, value.toJson = .ok json) ∧
      invocation.setOutput clock name value =
        ⟨.ok (), { invocation.markRunning with
          store := { invocation.store with
            outputs := StepStore.put invocation.store.outputs invocation.step name value .output
              clock.tick.now } }, clock.tick⟩) ∨
    (invocation.store.state.contains name = true ∧
      invocation.setOutput clock name value =
        ⟨.error (.kindConflict invocation.step name .state .output), invocation.markRunning,
          clock⟩) ∨
    (invocation.store.state.contains name = false ∧ ∃ source, value.toJson = .error source ∧
      invocation.setOutput clock name value =
        ⟨.error (.serialization invocation.step name source),
          { invocation.markRunning with
            fatal := invocation.fatal.or (some (.serialization invocation.step name source)) },
          clock⟩) := by
  -- the kinds are checked first, then the value's tree
  cases h : invocation.store.state.contains name with
  | true =>
    refine .inr (.inl ⟨rfl, ?_⟩)
    simp [setOutput, StepStore.kindOf_eq_state_iff, write, StepStore.write, step, h]
  | false =>
    cases hjson : value.toJson with
    | ok json =>
      refine .inl ⟨rfl, ⟨json, rfl⟩, ?_⟩
      simp [setOutput, StepStore.kindOf_eq_state_iff, write, StepStore.write, step, h, hjson]
    | error source =>
      refine .inr (.inr ⟨rfl, source, rfl, ?_⟩)
      simp [setOutput, StepStore.kindOf_eq_state_iff, step, h, hjson]

/-- The later one is the same invocation: what its begin has fixed stays. -/
structure Continues (earlier later : Invocation) : Prop where
  step : later.store.step = earlier.store.step
  inputs : later.inputs = earlier.inputs
  observed : later.observed = earlier.observed

theorem Continues.refl (invocation : Invocation) : invocation.Continues invocation :=
  ⟨rfl, rfl, rfl⟩

theorem Continues.trans {a b c : Invocation} (hab : a.Continues b) (hbc : b.Continues c) :
    a.Continues c :=
  ⟨hbc.step.trans hab.step, hbc.inputs.trans hab.inputs, hbc.observed.trans hab.observed⟩

/-- Marking an invocation as running changes its phase only. -/
theorem continues_markRunning (invocation : Invocation) :
    invocation.Continues invocation.markRunning := by
  constructor <;> simp

/-- A state write, accepted or refused, is a write of the same invocation. -/
theorem continues_set (invocation : Invocation) (clock : Clock) (name : String) (value : Value) :
    invocation.Continues (invocation.set clock name value).invocation := by
  rcases set_cases invocation clock name value with ⟨-, h⟩ | ⟨-, h⟩
  · rw [h]
    constructor <;> simp
  · rw [h]
    exact continues_markRunning invocation

theorem continues_setOutput (invocation : Invocation) (clock : Clock) (name : String)
    (value : Value) :
    invocation.Continues (invocation.setOutput clock name value).invocation := by
  rcases setOutput_cases invocation clock name value with
    ⟨-, -, h⟩ | ⟨-, h⟩ | ⟨-, source, -, h⟩
  · rw [h]
    constructor <;> simp
  · rw [h]
    exact continues_markRunning invocation
  · rw [h]
    constructor <;> simp

end Invocation

/-! ## Writes and what becomes of them

An attempt is a write with its outcome, and a list of attempts is all that need be known of a run to
say what the invocation holds. `Reflects` ties the two: it holds at the start, and each write keeps
it, with itself as one attempt more.
-/

/-- A write that was asked of an invocation, and its outcome. -/
structure Attempt where
  kind : CellKind
  name : String
  value : Value
  outcome : Except StepError Unit

namespace Attempt

/-- What an attempt adds to the cells of a kind. -/
def accepted? (kind : CellKind) (attempt : Attempt) : Option (String × Value) :=
  match attempt.outcome with
  | .ok () => if attempt.kind = kind then some (attempt.name, attempt.value) else none
  | .error _ => none

/-- The accepted writes of a kind, in order. -/
def accepted (kind : CellKind) (attempts : List Attempt) : Entries Value :=
  attempts.filterMap (accepted? kind)

/-- The error of an output that was refused because it has no text. -/
def refusal? (attempt : Attempt) : Option StepError :=
  match attempt.kind, attempt.outcome with
  | .output, .error (.serialization step name source) => some (.serialization step name source)
  | _, _ => none

/-- The first such error. -/
def firstRefusal? (attempts : List Attempt) : Option StepError := attempts.findSome? refusal?

/-- One more attempt comes last among those accepted, if it is accepted. -/
theorem accepted_concat (kind : CellKind) (attempts : List Attempt) (attempt : Attempt) :
    accepted kind (attempts ++ [attempt]) =
      accepted kind attempts ++ (attempt.accepted? kind).toList := by
  cases h : attempt.accepted? kind <;> simp [accepted, h]

/-- One more refusal is the first only if there was none. -/
theorem firstRefusal?_concat (attempts : List Attempt) (attempt : Attempt) :
    firstRefusal? (attempts ++ [attempt]) = (firstRefusal? attempts).or attempt.refusal? := by
  simp [firstRefusal?, List.findSome?_append]

end Attempt

namespace Invocation

/-- An invocation holds what the writes asked of it came to. -/
structure Reflects (invocation : Invocation) (attempts : List Attempt) : Prop where
  tidy : invocation.store.Tidy
  state : invocation.state = .ofPairs (Attempt.accepted .state attempts)
  outputs : invocation.outputs = .ofPairs (Attempt.accepted .output attempts)
  fatal : invocation.fatal = Attempt.firstRefusal? attempts

/-- **At the start** nothing was written, and nothing was refused. -/
theorem reflects_start (step : StepId) (cells : List Cell) (observed : LogicalTime) :
    (start step cells observed).Reflects [] :=
  ⟨StepStore.tidy_ofInputs step cells, rfl, rfl, rfl⟩

/-- The phase has no part in what an invocation holds. -/
theorem Reflects.markRunning {invocation : Invocation} {attempts : List Attempt}
    (h : invocation.Reflects attempts) : invocation.markRunning.Reflects attempts := by
  obtain ⟨htidy, hstate, houtputs, hfatal⟩ := h
  constructor <;> simpa [Invocation.state, Invocation.outputs]

/-- The values of a kind after one more write. -/
theorem map_put {cells : OrderedMap Cell} {step : StepId} {kind : CellKind}
    (h : StepStore.CellsFit cells step kind) (name : String) (value : Value) (time : LogicalTime) :
    (StepStore.put cells step name value kind time).map Cell.value =
      (cells.map Cell.value).insert name value := by
  rw [StepStore.put_eq_insert h, OrderedMap.map_insert]

/-- A write that is refused for its kind leaves nothing behind. -/
theorem Reflects.kindConflict {invocation : Invocation} {attempts : List Attempt}
    (h : invocation.Reflects attempts) (kind : CellKind) (name : String) (value : Value)
    (step : StepId) (existing requested : CellKind) :
    invocation.markRunning.Reflects (attempts ++
      [⟨kind, name, value, .error (.kindConflict step name existing requested)⟩]) := by
  -- neither of the two lists grows
  have hrun := h.markRunning
  refine ⟨hrun.tidy, ?_, ?_, ?_⟩
  · simpa [Attempt.accepted_concat, Attempt.accepted?] using hrun.state
  · simpa [Attempt.accepted_concat, Attempt.accepted?] using hrun.outputs
  · -- such an error does not end the invocation
    cases kind <;> simpa [Attempt.firstRefusal?_concat, Attempt.refusal?] using h.fatal

/-- A state write is one more attempt. -/
theorem Reflects.set {invocation : Invocation} {attempts : List Attempt}
    (h : invocation.Reflects attempts) (clock : Clock) (name : String) (value : Value) :
    (invocation.set clock name value).invocation.Reflects
      (attempts ++ [⟨.state, name, value, (invocation.set clock name value).outcome⟩]) := by
  rcases set_cases invocation clock name value with ⟨-, hset⟩ | ⟨-, hset⟩
  · rw [hset]
    refine ⟨⟨h.tidy.state.put name value _, h.tidy.outputs⟩, ?_, ?_, ?_⟩
    · -- the state gains the value, in the place where the list of accepted writes gains it
      have hput := map_put h.tidy.state name value clock.tick.now
      simpa [Attempt.accepted_concat, Attempt.accepted?, OrderedMap.ofPairs_concat, ← h.state]
        using hput
    · simpa [Attempt.accepted_concat, Attempt.accepted?] using h.outputs
    · simpa [Attempt.firstRefusal?_concat, Attempt.refusal?] using h.fatal
  · rw [hset]
    -- refused, since the name is an output
    exact h.kindConflict ..

/-- An output write is one more attempt; the first refusal stays. -/
theorem Reflects.setOutput {invocation : Invocation} {attempts : List Attempt}
    (h : invocation.Reflects attempts) (clock : Clock) (name : String) (value : Value) :
    (invocation.setOutput clock name value).invocation.Reflects
      (attempts ++ [⟨.output, name, value, (invocation.setOutput clock name value).outcome⟩]) := by
  rcases setOutput_cases invocation clock name value with
    ⟨-, -, hset⟩ | ⟨-, hset⟩ | ⟨-, source, -, hset⟩
  · rw [hset]
    refine ⟨⟨h.tidy.state, h.tidy.outputs.put name value _⟩, ?_, ?_, ?_⟩
    · simpa [Attempt.accepted_concat, Attempt.accepted?] using h.state
    · -- the outputs gain the value, as the state does in `Reflects.set`
      have hput := map_put h.tidy.outputs name value clock.tick.now
      simpa [Attempt.accepted_concat, Attempt.accepted?, OrderedMap.ofPairs_concat, ← h.outputs]
        using hput
    · simpa [Attempt.firstRefusal?_concat, Attempt.refusal?] using h.fatal
  · rw [hset]
    -- refused, since the name is state
    exact h.kindConflict ..
  · rw [hset]
    -- the values stay, and the error becomes the fatal one unless there is one already
    have hrun := h.markRunning
    refine ⟨hrun.tidy, ?_, ?_, ?_⟩
    · simpa [Attempt.accepted_concat, Attempt.accepted?] using hrun.state
    · simpa [Attempt.accepted_concat, Attempt.accepted?] using hrun.outputs
    · simp [Attempt.firstRefusal?_concat, Attempt.refusal?, h.fatal]

end Invocation

end StepRelay
