import StepRelay.Proofs.Isolation

/-!
# The inputs that a step begins with

Inputs come from two ordered collections: the declared names that the table has something for
(`Table.found`), and the constants of the request, of which those that count (`Supervisor.laid`) are
laid over what was found. `layConstants_eq` says what laying does to the cells and to the clock, and
`begin_resolves` what the invocation, its store and the event of its begin then show.

## The argument

* A resolution put in order by name has the found names, each with the table's cell
  (`Named.keys_resolve`, `Named.get?_resolve`).
* Laying constants is inserting a list of stamped cells (`layConstants_eq`), as many as the ticks
  that are taken.
* Looking up a name in the result asks the constants that count first (`get?_inputCells`), which
  gives cells, values, times and the order of the names.
-/

namespace StepRelay

/-- The declared names that a table has something for, each at its first mention. -/
def Table.found (table : Table) (declared : List String) : List String :=
  (declared.filter fun name => (table.cell? name).isSome).eraseDups

/-- Entries that are kept by their names are found as before, and the others are not. -/
theorem Entries.get?_filter {α : Type} (p : String → Bool) (entries : Entries α) (key : String) :
    Entries.get? (entries.filter fun pair => p pair.1) key =
      if p key then entries.get? key else none := by
  induction entries with
  | nil => simp [get?]
  | cons pair rest ih =>
    obtain ⟨name, item⟩ := pair
    rw [List.filter_cons, get?]
    -- an entry of another name is passed over in both
    by_cases hname : name = key
    · subst hname
      cases hp : p name with
      | true => simp [get?]
      | false => simpa [hp] using ih
    · cases hp : p name with
      | true => simpa [get?, hname] using ih
      | false => simpa [hname] using ih

/-! ## What a resolution finds

A resolution may ask for a name more than once, or for one that is not there. What it gives is put
into a map by name, which mentions each found name once.
-/

namespace Table

/-- The cells of every table stand under their own names. -/
theorem named_replay (history : List PublishCall) : (replay history).Named := by
  induction history using List.reverseRecOn with
  | nil => exact fun _ _ h => nomatch h
  | append_singleton history call ih =>
    rw [replay_concat]
    exact ih.publish call.step call.cells call.observed

/-- What a look-up by name finds is of that name. -/
theorem Named.cell? {table : Table} (h : table.Named) {name : String} {cell : Cell}
    (hcell : table.cell? name = some cell) : cell.name = name := by
  obtain ⟨published, hpublished, rfl⟩ := Option.map_eq_some_iff.1 hcell
  exact h name published hpublished

/-- A name is found if it was declared and something is there. -/
theorem mem_found_iff (table : Table) (declared : List String) (name : String) :
    name ∈ table.found declared ↔ name ∈ declared ∧ ∃ cell, table.cell? name = some cell := by
  rw [found, List.mem_eraseDups, List.mem_filter, Option.isSome_iff_exists]

/-- The cells that a resolution gives, put in order of their names, have the names that were found:
each at its first mention. -/
theorem Named.keys_resolve {table : Table} (h : table.Named) (declared : List String) :
    (Cell.byName (table.resolve declared).cells).keys = table.found declared := by
  rw [Cell.byName, OrderedMap.keys_ofPairs, Entries.keys, List.map_map, found, resolve_cells,
    List.map_filterMap]
  congr 1
  induction declared with
  | nil => rfl
  | cons name rest ih =>
    rw [List.filterMap_cons, List.filter_cons, ih]
    -- a name that has nothing is dropped, one that has a cell gives its name
    cases hcell : table.cell? name with
    | none => rfl
    | some cell =>
      have hname := h.cell? hcell
      simp [Cell.relabel, hname]

/-- Under a name that was found stands the table's own cell, relabelled as an input. -/
theorem Named.get?_resolve {table : Table} (h : table.Named) (declared : List String)
    (name : String) :
    (Cell.byName (table.resolve declared).cells).get? name =
      if name ∈ table.found declared then (table.cell? name).map (Cell.relabel · .input)
      else none := by
  split
  · next hname =>
    rw [← h.keys_resolve] at hname
    obtain ⟨cell, hcell⟩ := OrderedMap.exists_get?_of_mem_keys hname
    rw [hcell]
    -- whatever stands there was resolved under some name, and that is its own
    have hmem : cell ∈ (table.resolve declared).cells := by
      rw [Cell.byName, OrderedMap.get?_ofPairs,
        Entries.last?_map Cell.name (fun cell : Cell => cell),
        List.findRev?_eq_find?_reverse] at hcell
      obtain ⟨found, hfound, rfl⟩ := Option.map_eq_some_iff.1 hcell
      exact List.mem_reverse.1 (List.mem_of_find?_eq_some hfound)
    have hcellname := Supervisor.cellsNamed_byName _ name cell hcell
    rw [resolve_cells, List.mem_filterMap] at hmem
    obtain ⟨other, -, hother⟩ := hmem
    obtain ⟨published, hpublished, rfl⟩ := Option.map_eq_some_iff.1 hother
    have hsame : other = name := (h.cell? hpublished).symm.trans hcellname
    rw [← hsame, hpublished, Option.map_some]
  · next hname =>
    rw [← h.keys_resolve] at hname
    exact (OrderedMap.get?_eq_none_iff _ _).2 hname

end Table

namespace Supervisor

/-! ## Laying constants

A constant that is laid takes a tick and becomes a cell of the step itself. The recursion over the
constants is replaced by two lists here: the constants that count, and their cells.
-/

/-- The cells that constants become when they are laid one after the other. -/
def stamp (step : StepId) : LogicalTime → Entries Value → Entries Cell
  | _, [] => []
  | time, (name, value) :: rest =>
    (name, ⟨name, value, step, .input, time + 1⟩) :: stamp step (time + 1) rest

/-- Constants keep their names when they become cells. -/
theorem keys_stamp (step : StepId) (time : LogicalTime) (constants : Entries Value) :
    (stamp step time constants).keys = constants.keys := by
  induction constants generalizing time with
  | nil => rfl
  | cons constant rest ih =>
    rw [stamp, Entries.keys_cons, ih, Entries.keys_cons]

theorem mapItems_stamp (step : StepId) (time : LogicalTime) (constants : Entries Value) :
    (stamp step time constants).mapItems Cell.value = constants := by
  induction constants generalizing time with
  | nil => rfl
  | cons constant rest ih => exact congrArg (constant :: ·) (ih (time + 1))

/-- The `i`-th of them is written at the `i`-th tick. -/
theorem getElem?_stamp (step : StepId) (time : LogicalTime) (constants : Entries Value) (i : Nat) :
    (stamp step time constants)[i]? = constants[i]?.map fun constant =>
      (constant.1, ⟨constant.1, constant.2, step, .input, time + i + 1⟩) := by
  induction constants generalizing time i with
  | nil => rfl
  | cons constant rest ih =>
    cases i with
    | zero => rfl
    | succ i =>
      have htime : time + 1 + i = time + (i + 1) := Nat.add_right_comm time 1 i
      rw [stamp, List.getElem?_cons_succ, List.getElem?_cons_succ, ih, htime]

/-- The constants that are laid take one tick each; a constant that is skipped takes none. -/
theorem layConstants_eq (override : Bool) (step : StepId) {constants : Entries Value}
    (h : constants.keys.Nodup) (cells : OrderedMap Cell) (clock : Clock) :
    let laid := constants.filter fun constant => override || !cells.contains constant.1
    layConstants override step cells clock constants =
      (cells.insertAll (stamp step clock.now laid), ⟨clock.now + laid.length⟩) := by
  induction constants generalizing cells clock with
  | nil => rfl
  | cons constant rest ih =>
    obtain ⟨name, value⟩ := constant
    rw [Entries.keys_cons, List.nodup_cons] at h
    simp only [layConstants, List.filter_cons]
    by_cases hskip : cells.contains name ∧ ¬ override
    · -- skipped: it spends no tick and leaves the cells alone
      rw [if_pos hskip]
      have hfalse : (override || !cells.contains name) = false := by simp [hskip.1, hskip.2]
      rw [hfalse]
      exact ih h.2 cells clock
    · -- laid at the next tick
      rw [if_neg hskip]
      have htrue : (override || !cells.contains name) = true := by
        rw [Bool.or_eq_true, Bool.not_eq_true']
        by_cases hoverride : override = true
        · exact .inl hoverride
        · exact .inr (Bool.eq_false_iff.2 fun hheld => hskip ⟨hheld, hoverride⟩)
      rw [htrue]
      -- no later constant is of this name, so laying this one hides none of them
      have hrest : (rest.filter fun constant => override ||
            !(cells.insert name ⟨name, value, step, .input, clock.tick.now⟩).contains constant.1) =
          rest.filter fun constant => override || !cells.contains constant.1 := by
        apply List.filter_congr
        intro constant hconstant
        have hne : name ≠ constant.1 := by
          rintro rfl
          exact h.1 (List.mem_map_of_mem hconstant)
        simp [OrderedMap.contains, Entries.contains, OrderedMap.insert, Entries.get?_insert, hne]
      rw [ih h.2, hrest]
      simp only [if_true, stamp, OrderedMap.insertAll_cons, Clock.now_tick, List.length_cons,
        Nat.add_assoc, Nat.add_comm 1]

/-- The constants that become inputs: all of them if they override what is published, else those
whose names were not found. -/
def laid (s : Supervisor) (request : StepRequest) : Entries Value :=
  request.constants.entries.filter fun constant =>
    s.config.constantsOverridePublished || !(s.table.found request.declared).contains constant.1

/-- The names of the constants that count. -/
theorem keys_laid (s : Supervisor) (request : StepRequest) :
    (s.laid request).keys = request.constants.keys.filter fun name =>
      s.config.constantsOverridePublished || !(s.table.found request.declared).contains name := by
  rw [laid, Entries.keys, OrderedMap.keys, Entries.keys, List.filter_map]
  rfl

/-- A request gives no constant twice, so none is laid twice. -/
theorem nodup_laid (s : Supervisor) (request : StepRequest) : (s.laid request).keys.Nodup := by
  rw [keys_laid]
  exact request.constants.nodup.filter _

/-- A constant counts unless its name was found and what is published has priority. -/
theorem get?_laid (s : Supervisor) (request : StepRequest) (name : String) :
    (s.laid request).get? name =
      if s.config.constantsOverridePublished = false ∧ name ∈ s.table.found request.declared then
        none
      else request.constants.get? name := by
  have hfilter := Entries.get?_filter (fun name => s.config.constantsOverridePublished ||
    !(s.table.found request.declared).contains name) request.constants.entries name
  rw [laid, hfilter]
  by_cases hname : name ∈ s.table.found request.declared <;>
    cases s.config.constantsOverridePublished <;> simp [hname, OrderedMap.get?]

/-! ## The step as it begins

Store and snapshot show the cells of the resolution with those of the constants laid over them. What
can be asked of them is answered by name.
-/

/-- The cells that a step begins with. -/
def inputCells (s : Supervisor) (request : StepRequest) : OrderedMap Cell :=
  (layConstants s.config.constantsOverridePublished request.step
    (Cell.byName (s.table.resolve request.declared).cells) s.clock request.constants.entries).1

/-- Each of them stands under its own name. -/
theorem cellsNamed_inputCells (s : Supervisor) (request : StepRequest) :
    CellsNamed (s.inputCells request) :=
  (layConstants_values (cellsNamed_byName _) _ _ _ _).1

/-- A begin is announced with the names of its inputs and the version that it observes. -/
theorem begin_events (s : Supervisor) (request : StepRequest) :
    (s.begin request).1.events =
      s.events ++ [.began request.step (s.inputCells request).keys s.table.version] := by
  simp only [begin, emit, traceLine]
  rw [foldl_keeps Supervisor.events]
  · rfl
  · exact fun _ _ => rfl

/-- Nothing but laying constants moves the clock. -/
theorem begin_clock_eq (s : Supervisor) (request : StepRequest) :
    (s.begin request).1.clock = (layConstants s.config.constantsOverridePublished request.step
      (Cell.byName (s.table.resolve request.declared).cells) s.clock
      request.constants.entries).2 := by
  simp only [begin, emit, traceLine]
  rw [foldl_keeps Supervisor.clock]
  exact fun _ _ => rfl

/-- The store and the snapshot of the inputs are both made of those cells. -/
theorem begin_invocation (s : Supervisor) (request : StepRequest) :
    (s.begin request).2.store.inputs = s.inputCells request ∧
      (s.begin request).2.inputs.values = (s.inputCells request).map Cell.value := by
  have hnamed := s.cellsNamed_inputCells request
  refine ⟨?_, valuesByName_values hnamed⟩
  have hstore : (s.begin request).2.store.inputs =
      Cell.byName (s.inputCells request).values := rfl
  rw [hstore, Cell.byName, OrderedMap.map_values_eq_entries hnamed, OrderedMap.ofPairs_entries]

section Resolved

variable {s : Supervisor} (named : s.table.Named) (request : StepRequest)

include named

/-- The constants that count are laid over what was found. -/
theorem layConstants_resolved :
    layConstants s.config.constantsOverridePublished request.step
        (Cell.byName (s.table.resolve request.declared).cells) s.clock request.constants.entries =
      ((Cell.byName (s.table.resolve request.declared).cells).insertAll
          (stamp request.step s.clock.now (s.laid request)),
        ⟨s.clock.now + (s.laid request).length⟩) := by
  have hheld : ∀ name, (Cell.byName (s.table.resolve request.declared).cells).contains name =
      (s.table.found request.declared).contains name := by
    intro name
    rw [Bool.eq_iff_iff, OrderedMap.contains_iff, named.keys_resolve, List.contains_iff_mem]
  have hlay := layConstants_eq s.config.constantsOverridePublished request.step
    request.constants.nodup (Cell.byName (s.table.resolve request.declared).cells) s.clock
  simp only [hheld] at hlay
  exact hlay

/-- One tick is spent for each constant that counts. -/
theorem begin_clock :
    (s.begin request).1.clock.now = s.clock.now + (s.laid request).length := by
  rw [begin_clock_eq, layConstants_resolved named]

/-- **The names of the inputs**: those that were found in the order of first mention, and behind
them the other constants. A constant whose name was found is laid over it or skipped, and adds no
name in either case. -/
theorem keys_inputCells :
    (s.inputCells request).keys = s.table.found request.declared ++
      request.constants.keys.filter fun name => name ∉ s.table.found request.declared := by
  have hbase := named.keys_resolve request.declared
  rw [inputCells, layConstants_resolved named, OrderedMap.keys_insertAll hbase, keys_stamp,
    List.eraseDups_append, ← Table.found]
  congr 1
  -- of the laid constants those remain that were not found, and no two of them have one name
  have hrest : (s.laid request).keys.removeAll
        (request.declared.filter fun name => (s.table.cell? name).isSome) =
      request.constants.keys.filter fun name => name ∉ s.table.found request.declared := by
    rw [List.removeAll, keys_laid, List.filter_filter]
    apply List.filter_congr
    intro name _
    by_cases hname : name ∈ s.table.found request.declared
    · have hmem := hname
      rw [Table.found, List.mem_eraseDups] at hmem
      simp [hname, hmem]
    · have hmem := hname
      rw [Table.found, List.mem_eraseDups] at hmem
      simp [hname, hmem]
  rw [hrest]
  exact eraseDups_of_nodup (request.constants.nodup.filter _)

/-- A name has the cell of its constant, if that was laid, else the one that was found. -/
theorem get?_inputCells (name : String) :
    (s.inputCells request).get? name =
      (Entries.get? (stamp request.step s.clock.now (s.laid request)) name).or
        (if name ∈ s.table.found request.declared then
          (s.table.cell? name).map (Cell.relabel · .input) else none) := by
  have hnodup : (stamp request.step s.clock.now (s.laid request)).keys.Nodup := by
    rw [keys_stamp]
    exact nodup_laid ..
  rw [inputCells, layConstants_resolved named, OrderedMap.get?_insertAll,
    Entries.last?_eq_get? hnodup, named.get?_resolve]

/-- A constant that is laid becomes a cell of the step itself, stamped by its place among the
laid. -/
theorem get?_inputCells_of_laid {i : Nat} {name : String} {value : Value}
    (h : (s.laid request)[i]? = some (name, value)) :
    (s.inputCells request).get? name =
      some ⟨name, value, request.step, .input, s.clock.now + i + 1⟩ := by
  have hstamped := getElem?_stamp request.step s.clock.now (s.laid request) i
  rw [h, Option.map_some] at hstamped
  have hnodup : (stamp request.step s.clock.now (s.laid request)).keys.Nodup := by
    rw [keys_stamp]
    exact nodup_laid ..
  have hget := Entries.get?_of_mem hnodup (List.mem_of_getElem? hstamped)
  rw [get?_inputCells named, hget, Option.some_or]

/-- What no constant is laid over stays as it was found. -/
theorem get?_inputCells_of_found {name : String} (hfound : name ∈ s.table.found request.declared)
    (hlaid : name ∉ (s.laid request).keys) :
    ∃ cell, s.table.cell? name = some cell ∧
      (s.inputCells request).get? name = some { cell with kind := .input } := by
  obtain ⟨-, cell, hcell⟩ := (Table.mem_found_iff ..).1 hfound
  rw [← keys_stamp request.step s.clock.now, ← Entries.get?_eq_none_iff] at hlaid
  refine ⟨cell, hcell, ?_⟩
  rw [get?_inputCells named, hlaid, if_pos hfound, hcell]
  rfl

/-- **The value of an input** is the constant's, unless the name was found and constants do not
override. -/
theorem begin_get? (name : String) :
    (s.begin request).2.inputs.get? name =
      if name ∈ s.table.found request.declared ∧
          (s.config.constantsOverridePublished = false ∨ request.constants.get? name = none) then
        s.table.value? name
      else request.constants.get? name := by
  have hlaid := Entries.get?_mapItems Cell.value
    (stamp request.step s.clock.now (s.laid request)) name
  rw [mapItems_stamp, get?_laid] at hlaid
  rw [Inputs.get?, (s.begin_invocation request).2, OrderedMap.get?_map, get?_inputCells named,
    Option.map_or, ← hlaid]
  by_cases hfound : name ∈ s.table.found request.declared
  · have hvalue : ((s.table.cell? name).map (Cell.relabel · .input)).map Cell.value =
        s.table.value? name := by
      rw [Option.map_map]
      rfl
    rw [if_pos hfound, hvalue]
    -- the name was found: the setting decides, if there is a constant at all
    cases s.config.constantsOverridePublished with
    | false => simp [hfound]
    | true => cases request.constants.get? name <;> simp [hfound]
  · -- only a constant can have it
    simp [hfound]

end Resolved

/-- **A step begins with what was published under its declared names, and with its constants.** In
every state of the supervisor, whatever has been published by then, and for every request:

* the inputs are the declared names that the table has something for, in the order of first mention,
  and behind them the other constants in their own order;
* the value of a name that is both found and constant is the constant's if constants override what
  is published, else the published one; that of every other name is the only one there is;
* each input is a cell of kind `input` under its name: as it was published, with its origin and its
  time, or, for the constant laid as the `i`-th, from the step itself at the `i`-th tick, and no
  further tick is spent;
* the event, the snapshot and the store have the same names in the same order, and the invocation
  has observed the version of the table. -/
theorem begin_resolves (s : Supervisor) (history : List PublishCall) (request : StepRequest) :
    let table := Table.replay history
    let begun := { s with table }.begin request
    let override := s.config.constantsOverridePublished
    let found := table.found request.declared
    let laid : Entries Value := request.constants.entries.filter fun constant =>
      override || !found.contains constant.1
    let names := found ++ request.constants.keys.filter fun name => name ∉ found
    begun.2.inputs.names = names ∧
    begun.2.store.inputs.keys = names ∧
    begun.1.events = s.events ++ [.began request.step names table.version] ∧
    begun.2.observed = table.version ∧
    (∀ name, begun.2.inputs.get? name =
      if name ∈ found ∧ (override = false ∨ request.constants.get? name = none) then
        table.value? name
      else request.constants.get? name) ∧
    (∀ name, begun.2.inputs.get? name = (begun.2.store.inputs.get? name).map Cell.value) ∧
    (∀ name, name ∈ found → name ∉ laid.keys → ∃ cell, table.cell? name = some cell ∧
      begun.2.store.inputs.get? name = some { cell with kind := .input }) ∧
    (∀ i name value, laid[i]? = some (name, value) → begun.2.store.inputs.get? name =
      some ⟨name, value, request.step, .input, s.clock.now + i + 1⟩) ∧
    begun.1.clock.now = s.clock.now + laid.length := by
  intro table begun override found laid names
  -- the table of a history holds each cell under its own name, which the look-ups need
  have hnamed : ({ s with table } : Supervisor).table.Named := Table.named_replay history
  -- store and snapshot are made of the same cells, so one list of keys serves both
  obtain ⟨hstore, hsnapshot⟩ := begin_invocation { s with table } request
  have hkeys := keys_inputCells hnamed request
  refine ⟨?_, ?_, ?_, rfl, begin_get? hnamed request, ?_, ?_, ?_, begin_clock hnamed request⟩
  · rw [Inputs.names, hsnapshot, OrderedMap.keys_map]
    exact hkeys
  · rw [hstore]
    exact hkeys
  · have hevents := begin_events { s with table } request
    rw [hkeys] at hevents
    exact hevents
  · intro name
    rw [Inputs.get?, hsnapshot, OrderedMap.get?_map, hstore]
  · -- a found name without a constant laid over it keeps its published cell
    intro name hfound hlaid
    rw [hstore]
    exact get?_inputCells_of_found hnamed request hfound hlaid
  · -- a constant that was laid is a cell of its own, timed by its place among them
    intro i name value h
    rw [hstore]
    exact get?_inputCells_of_laid hnamed request h

end Supervisor

end StepRelay
