import StepRelay.Proofs.Run

/-!
# What times do not reach

All invocations of a run share one clock, and nothing but the times of cells comes from it.
`timeless` forgets these times. Each operation commutes with it: on states that are the same up to
times it does the same, and answers the same, up to times.
-/

namespace StepRelay

/-! ## Forgetting times

Only cells carry times; everything that holds cells forgets theirs. The versions of the table are
counts of publishes and stay.
-/

/-- A cell without its time. -/
def Cell.timeless (cell : Cell) : Cell := { cell with writtenAt := 0 }

/-- A published cell without its time. Its version is no reading of the clock. -/
def Published.timeless (published : Published) : Published :=
  { published with cell := published.cell.timeless }

/-- A table without the times of its cells. -/
def Table.timeless (table : Table) : Table :=
  { table with cells := table.cells.map Published.timeless }

/-- A store without the times of its cells. -/
def StepStore.timeless (store : StepStore) : StepStore where
  step := store.step
  inputs := store.inputs.map Cell.timeless
  state := store.state.map Cell.timeless
  outputs := store.outputs.map Cell.timeless

/-- An invocation without the times in its store. -/
def Invocation.timeless (invocation : Invocation) : Invocation :=
  { invocation with store := invocation.store.timeless }

/-- A running script without the times in its invocation. -/
def Running.timeless (running : Running) : Running :=
  { running with invocation := running.invocation.timeless }

/-- An execution without the times of the script that it left running. -/
def Supervisor.Execution.timeless (execution : Supervisor.Execution) : Supervisor.Execution :=
  { execution with detached := execution.detached.map Running.timeless }

/-- Only begun invocations and detached scripts have times in them. -/
def Reply.timeless : Reply → Reply
  | .begun invocation => .begun invocation.timeless
  | .executed execution => .executed execution.timeless
  | reply => reply

namespace OrderedMap

variable {α β γ : Type}

theorem map_map (f : α → β) (g : β → γ) (m : OrderedMap α) : (m.map f).map g = m.map (g ∘ f) := by
  apply OrderedMap.ext
  simp [OrderedMap.map, Entries.mapItems, Function.comp_def]

/-- The values of a mapped map are the mapped values. -/
theorem values_map (f : α → β) (m : OrderedMap α) : (m.map f).values = m.values.map f := by
  simp [values, OrderedMap.map, Entries.mapItems, Function.comp_def]

/-- Mapping the items of a map that pairs were put into is putting in mapped pairs. -/
theorem map_insertAll (f : α → β) (m : OrderedMap α) (pairs : Entries α) :
    (m.insertAll pairs).map f = (m.map f).insertAll (pairs.mapItems f) := by
  -- on the pairs, for any map they are put into
  induction pairs generalizing m with
  | nil => rfl
  | cons pair rest ih =>
    rw [insertAll_cons, ih, map_insert]
    rfl

end OrderedMap

/-- Forgetting times twice is no more than forgetting them once. -/
@[simp] theorem map_timeless_timeless (cells : OrderedMap Cell) :
    (cells.map Cell.timeless).map Cell.timeless = cells.map Cell.timeless :=
  OrderedMap.map_map ..

/-- A cell without its time still has its value. -/
@[simp] theorem map_value_timeless (cells : OrderedMap Cell) :
    (cells.map Cell.timeless).map Cell.value = cells.map Cell.value :=
  OrderedMap.map_map ..

/-! ## Writes

A write asks the store about names and kinds, never about times, and the time of the cell it puts is
the next tick of the clock.
-/

/-- A put into cells without times is any put of the same value, its time forgotten. -/
theorem StepStore.map_put_timeless (cells : OrderedMap Cell) (step : StepId) (name : String)
    (value : Value) (kind : CellKind) (time : LogicalTime) :
    (put cells step name value kind time).map Cell.timeless =
      put (cells.map Cell.timeless) step name value kind 0 := by
  unfold put
  rw [OrderedMap.get?_map]
  -- a new cell is appended and an old one replaced; both are inserts
  cases cells.get? name <;> exact OrderedMap.map_insert ..

namespace Invocation

/-- That an invocation runs has nothing to do with times. -/
theorem timeless_markRunning (invocation : Invocation) :
    invocation.timeless.markRunning = invocation.markRunning.timeless := by
  unfold markRunning
  split
  · next h => rw [if_pos (show invocation.phase = .pending from h)]; rfl
  · next h => rw [if_neg (show ¬ invocation.phase = .pending from h)]

/-- A write that takes a tick if it is accepted, and in which nothing but the time of the new cell
comes from the clock or from the times of other cells. -/
structure Uniform (write : Invocation → Clock → Written) : Prop where
  outcome : ∀ invocation clock other,
    (write invocation.timeless other).outcome = (write invocation clock).outcome
  invocation : ∀ invocation clock other,
    (write invocation.timeless other).invocation.timeless =
      (write invocation clock).invocation.timeless
  clock : ∀ invocation clock,
    (write invocation clock).clock = match (write invocation clock).outcome with
      | .ok _ => clock.tick
      | .error _ => clock

/-- What `set` does, case by case: a name among the outputs is refused, and any other one is put
under the next tick. -/
theorem set_eq (invocation : Invocation) (clock : Clock) (name : String) (value : Value) :
    invocation.set clock name value =
      if invocation.store.outputs.contains name then
        ⟨.error (.kindConflict invocation.step name .output .state), invocation.markRunning, clock⟩
      else
        ⟨.ok (), { invocation.markRunning with
          store := { invocation.store with
            state := StepStore.put invocation.store.state invocation.step name value .state
              clock.tick.now } }, clock.tick⟩ := by
  -- the cases of a write, brought into one expression that can be compared with itself
  rcases invocation.set_cases clock name value with ⟨hfree, hset⟩ | ⟨htaken, hset⟩
  · rw [hset, hfree, if_neg Bool.false_ne_true]
  · rw [hset, if_pos htaken]

/-- What `setOutput` does, case by case: a name among the state is refused, a value without a tree
is refused and makes the invocation fail, and any other value is put under the next tick. -/
theorem setOutput_eq (invocation : Invocation) (clock : Clock) (name : String) (value : Value) :
    invocation.setOutput clock name value =
      if invocation.store.state.contains name then
        ⟨.error (.kindConflict invocation.step name .state .output), invocation.markRunning, clock⟩
      else match value.toJson with
        | .ok _ => ⟨.ok (), { invocation.markRunning with
            store := { invocation.store with
              outputs := StepStore.put invocation.store.outputs invocation.step name value .output
                clock.tick.now } }, clock.tick⟩
        | .error source => ⟨.error (.serialization invocation.step name source),
            { invocation.markRunning with
              fatal := invocation.fatal.or (some (.serialization invocation.step name source)) },
            clock⟩ := by
  rcases invocation.setOutput_cases clock name value with
    ⟨hfree, ⟨json, hjson⟩, hset⟩ | ⟨htaken, hset⟩ | ⟨hfree, source, hjson, hset⟩
  · rw [hset, hfree, if_neg Bool.false_ne_true, hjson]
  · rw [hset, if_pos htaken]
  · rw [hset, hfree, if_neg Bool.false_ne_true, hjson]

theorem uniform_set (name : String) (value : Value) :
    Uniform fun invocation clock => invocation.set clock name value := by
  -- the decision is on a name, which forgetting times keeps
  have htimeless (invocation : Invocation) : invocation.timeless.store.outputs.contains name =
      invocation.store.outputs.contains name := OrderedMap.contains_map ..
  constructor
  · intro invocation clock other
    simp only [set_eq, htimeless]
    split <;> rfl
  · intro invocation clock other
    simp only [set_eq, htimeless, timeless_markRunning]
    split <;> simp [timeless, StepStore.timeless, StepStore.map_put_timeless]
  · intro invocation clock
    simp only [set_eq]
    split <;> rfl

/-- Setting an output is a uniform write. -/
theorem uniform_setOutput (name : String) (value : Value) :
    Uniform fun invocation clock => invocation.setOutput clock name value := by
  -- both decisions, on a name and on a value, are without times
  have htimeless (invocation : Invocation) : invocation.timeless.store.state.contains name =
      invocation.store.state.contains name := OrderedMap.contains_map ..
  constructor
  · intro invocation clock other
    simp only [setOutput_eq, htimeless]
    split
    · rfl
    · -- an accepted value is put, a refused one only recorded as fatal
      cases value.toJson <;> rfl
  · intro invocation clock other
    simp only [setOutput_eq, htimeless, timeless_markRunning]
    split
    · simp [timeless, StepStore.timeless]
    · cases value.toJson <;>
        simp [timeless, StepStore.timeless, StepStore.map_put_timeless]
  · intro invocation clock
    simp only [setOutput_eq]
    split
    · rfl
    · cases value.toJson <;> rfl

end Invocation

/-! ## The table

A resolution copies cells and a publish replaces them. What it compares are origins and versions.
-/

namespace Table

/-- A resolution of the timeless table is the resolution without times. -/
theorem resolve_timeless (table : Table) (declared : List String) :
    (table.timeless.resolve declared).cells =
      (table.resolve declared).cells.map Cell.timeless := by
  simp only [resolve, timeless, OrderedMap.get?_map, List.map_filterMap]
  apply List.filterMap_congr
  intro name _
  cases table.cells.get? name <;> rfl

/-- Times have no say in the conflicts of a publish. -/
theorem land_timeless (step : StepId) (observed version : LogicalTime)
    (landed : OrderedMap Published) (cells : List Cell) :
    (land step observed version (landed.map Published.timeless) (cells.map Cell.timeless)).2 =
      (land step observed version landed cells).2 := by
  induction cells generalizing landed with
  | nil => rfl
  | cons cell rest ih =>
    -- the table goes on as the timeless one, so the induction applies
    have hinsert : (landed.map Published.timeless).insert cell.name ⟨cell.timeless, version⟩ =
        (landed.insert cell.name ⟨cell, version⟩).map Published.timeless := by
      rw [OrderedMap.map_insert]
      rfl
    have hname : cell.timeless.name = cell.name := rfl
    simp only [land, List.map_cons, hname, hinsert, OrderedMap.get?_map]
    cases landed.get? cell.name with
    | none => exact ih _
    | some old =>
      -- whether a cell was observed depends on its origin and on its version
      have hold : old.timeless.isUnobserved step observed = old.isUnobserved step observed := rfl
      have horigin : old.timeless.cell.origin = old.cell.origin := rfl
      simp only [Option.map_some, hold, horigin]
      split
      · exact congrArg (Conflict.mk cell.name old.cell.origin :: ·) (ih _)
      · exact ih _

/-- A publish of timeless cells leaves the timeless table, and reports what the publish of the cells
themselves does. -/
theorem publish_timeless (table : Table) (step : StepId) (cells : List Cell)
    (observed : LogicalTime) :
    (table.timeless.publish step (cells.map Cell.timeless) observed).1 =
        (table.publish step cells observed).1.timeless ∧
      (table.timeless.publish step (cells.map Cell.timeless) observed).2 =
        (table.publish step cells observed).2 := by
  constructor
  · have hcells : (table.timeless.publish step (cells.map Cell.timeless) observed).1.cells =
        (table.publish step cells observed).1.cells.map Published.timeless := by
      -- the version that the new cells get is the same on both sides
      rw [publish_cells, publish_cells, OrderedMap.map_insertAll]
      simp [timeless, Entries.mapItems, Function.comp_def, Published.timeless, Cell.timeless]
    exact congrArg (Table.mk · (table.version + 1)) hcells
  · have hland := land_timeless step observed (table.version + 1) table.cells cells
    exact congrArg (PublishReport.mk (table.version + 1)) hland

end Table

/-! ## Beginning

A step begins with the cells of a resolution and with those of its constants. The second recursion,
`layConstants`, takes a tick for each constant that it lays, so it moves the clock by the same
number wherever the clock stands.
-/

/-- Cells are stored under their names, with or without times. -/
theorem byName_timeless (cells : List Cell) :
    Cell.byName (cells.map Cell.timeless) = (Cell.byName cells).map Cell.timeless := by
  rw [Cell.byName, Cell.byName, OrderedMap.map_ofPairs]
  simp [Entries.mapItems, Function.comp_def, Cell.timeless]

/-- An invocation that starts with timeless cells is timeless. -/
theorem Invocation.start_timeless (step : StepId) (cells : List Cell) (observed : LogicalTime) :
    (start step (cells.map Cell.timeless) observed) = (start step cells observed).timeless := by
  have hvalues : Cell.valuesByName (cells.map Cell.timeless) = Cell.valuesByName cells := by
    simp [Cell.valuesByName, Function.comp_def, Cell.timeless]
  simp only [start, timeless, StepStore.timeless, StepStore.ofInputs, byName_timeless, hvalues]
  rfl

namespace Supervisor

/-- Constants are laid the same, up to times, at any two readings of the clock. -/
theorem layConstants_timeless (override : Bool) (step : StepId) (cells : OrderedMap Cell)
    (clock other : Clock) (constants : Entries Value) :
    (layConstants override step (cells.map Cell.timeless) other constants).1.map Cell.timeless =
      (layConstants override step cells clock constants).1.map Cell.timeless := by
  induction constants generalizing cells clock other with
  | nil => simp [layConstants]
  | cons constant rest ih =>
    obtain ⟨name, value⟩ := constant
    simp only [layConstants, OrderedMap.contains_map]
    split
    · -- a name that is taken is passed over, and takes no tick
      exact ih cells clock other
    · -- a constant is laid with two different times, both of which are forgotten; the third run of
      -- the recursion, over cells that are timeless already, connects the two
      have hlaid := ih (cells.insert name ⟨name, value, step, .input, clock.tick.now⟩) clock.tick
        other.tick
      have hrest := ih
        ((cells.map Cell.timeless).insert name ⟨name, value, step, .input, other.tick.now⟩)
        other.tick other.tick
      rw [← hlaid, ← hrest, OrderedMap.map_insert, OrderedMap.map_insert, map_timeless_timeless]
      rfl

/-- Laying constants takes as many ticks from one reading of the clock as from another. -/
theorem layConstants_ticks (override : Bool) (step : StepId) {cells others : OrderedMap Cell}
    (h : cells.map Cell.timeless = others.map Cell.timeless) {clock other : Clock}
    (hclock : other.now ≤ clock.now) (constants : Entries Value) :
    (layConstants override step others other constants).2.now ≤
      (layConstants override step cells clock constants).2.now := by
  induction constants generalizing cells others clock other with
  | nil => exact hclock
  | cons constant rest ih =>
    obtain ⟨name, value⟩ := constant
    -- both lay the constant or neither does
    have hheld : others.contains name = cells.contains name := by
      rw [← OrderedMap.contains_map Cell.timeless others, ← h, OrderedMap.contains_map]
    simp only [layConstants, hheld]
    split
    · exact ih h hclock
    · refine ih ?_ (Nat.succ_le_succ hclock)
      rw [OrderedMap.map_insert, OrderedMap.map_insert, h]
      rfl

end Supervisor

end StepRelay
