import Mathlib.Data.List.Induction
import Mathlib.Data.List.Basic
import StepRelay.Proofs.OrderedMap
import StepRelay.Table

/-!
# The table and its publish history

A table only keeps the latest cell of each name, so what it answers has to be read off its history.
`Table.replay` makes every publish of a history in turn; `replay_refines` says what the table then
answers, in terms of the cells given in the whole history. `land_fst` and `land_snd` describe one
publish: the cells it leaves and the conflicts it reports.
-/

namespace StepRelay

/-- What one publish is called with. -/
structure PublishCall where
  step : StepId
  cells : List Cell
  observed : LogicalTime

/-- The cells given in a history of publishes, in order. -/
def PublishCall.given (history : List PublishCall) : List Cell := history.flatMap cells

namespace Table

/-- The table that a history of publishes leaves behind. -/
def replay (history : List PublishCall) : Table :=
  history.foldl (fun table call => (table.publish call.step call.cells call.observed).1) {}

/-! ## One publish

Landing walks through the given cells and does two things at once: it replaces cells and it collects
conflicts. They are separated here. A conflict is judged against what the name held before the
publish, provided that no name is given twice.
-/

/-- The table is filled cell by cell, each under its own name and at the same version. -/
theorem land_fst (step : StepId) (observed version : LogicalTime) (landed : OrderedMap Published)
    (cells : List Cell) :
    (land step observed version landed cells).1 =
      landed.insertAll (cells.map fun cell => (cell.name, ⟨cell, version⟩)) := by
  -- on the cells, for any table they land in
  induction cells generalizing landed with
  | nil => rfl
  | cons cell rest ih =>
    rw [List.map_cons, OrderedMap.insertAll_cons, ← ih]
    -- whatever is reported, the cells are those of the recursive call
    simp only [land]
    split
    · split <;> rfl
    · rfl

/-- What replacing the cell under `name` reports, as long as this publish has not written it. -/
def conflict? (landed : OrderedMap Published) (step : StepId) (observed : LogicalTime)
    (name : String) : Option Conflict :=
  (landed.get? name).bind fun old =>
    if old.isUnobserved step observed then some ⟨name, old.cell.origin⟩ else none

/-- Landing a cell has no say in the conflicts of other names. -/
theorem conflict?_insert_of_ne {landed : OrderedMap Published} {name other : String}
    (h : name ≠ other) (item : Published) (step : StepId) (observed : LogicalTime) :
    conflict? (landed.insert name item) step observed other =
      conflict? landed step observed other := by
  simp [conflict?, OrderedMap.get?_insert, h]

/-- Cells of distinct names are each compared with what stood there before the publish. -/
theorem land_snd {cells : List Cell} (h : (cells.map Cell.name).Nodup) (step : StepId)
    (observed version : LogicalTime) (landed : OrderedMap Published) :
    (land step observed version landed cells).2 =
      (cells.map Cell.name).filterMap (conflict? landed step observed) := by
  induction cells generalizing landed with
  | nil => rfl
  | cons cell rest ih =>
    rw [List.map_cons, List.nodup_cons] at h
    -- the first cell hides nothing from the later ones, whose names differ from its own
    have hrest : (rest.map Cell.name).filterMap
          (conflict? (landed.insert cell.name ⟨cell, version⟩) step observed) =
        (rest.map Cell.name).filterMap (conflict? landed step observed) := by
      apply List.filterMap_congr
      intro other hother
      have hne : cell.name ≠ other := by
        rintro rfl
        exact h.1 hother
      exact conflict?_insert_of_ne hne _ step observed
    have hland := ih h.2 (landed.insert cell.name ⟨cell, version⟩)
    rw [hrest] at hland
    simp only [land, List.map_cons, List.filterMap_cons, ← hland]
    -- for the first cell itself, the comparison is with what the table has under its name
    cases hget : landed.get? cell.name with
    | none => simp [conflict?, hget]
    | some old =>
      by_cases hold : old.isUnobserved step observed = true <;> simp [conflict?, hget, hold]

/-- A publish counts the version up by one. -/
@[simp] theorem publish_version (table : Table) (step : StepId) (cells : List Cell)
    (observed : LogicalTime) :
    (table.publish step cells observed).1.version = table.version + 1 := rfl

/-- A publish lands the given cells, all at its own version. -/
theorem publish_cells (table : Table) (step : StepId) (cells : List Cell)
    (observed : LogicalTime) :
    (table.publish step cells observed).1.cells =
      table.cells.insertAll (cells.map fun cell => (cell.name, ⟨cell, table.version + 1⟩)) :=
  land_fst step observed (table.version + 1) table.cells cells

/-- A name holds the last cell that the publish gives for it, else the cell from before. -/
theorem publish_cell? (table : Table) (step : StepId) (cells : List Cell) (observed : LogicalTime)
    (name : String) :
    (table.publish step cells observed).1.cell? name =
      (cells.findRev? fun cell => cell.name == name).or (table.cell? name) := by
  rw [cell?, cell?, publish_cells, OrderedMap.get?_insertAll,
    Entries.last?_map Cell.name (fun cell => (⟨cell, table.version + 1⟩ : Published))]
  cases cells.findRev? (fun cell => cell.name == name) <;> rfl

/-- New names follow those that are there, in the order of their first mention. -/
theorem publish_names {table : Table} {mentioned : List String}
    (h : table.names = mentioned.eraseDups) (step : StepId) (cells : List Cell)
    (observed : LogicalTime) :
    (table.publish step cells observed).1.names =
      (mentioned ++ cells.map Cell.name).eraseDups := by
  have hkeys := OrderedMap.keys_insertAll h
    (cells.map fun cell => (cell.name, (⟨cell, table.version + 1⟩ : Published)))
  rw [names, publish_cells, hkeys]
  simp [Entries.keys, Function.comp_def]

/-! ## Publishing a map of cells

A step publishes the cells of a map, each under its own key, so no name comes twice. -/

section Map

variable {outputs : OrderedMap Cell}
  (named : ∀ name cell, outputs.get? name = some cell → cell.name = name)

include named

/-- The cells of a map carry the names they are stored under. -/
theorem map_name_values : outputs.values.map Cell.name = outputs.keys := by
  rw [OrderedMap.keys, Entries.keys, ← OrderedMap.map_values_eq_entries named, List.map_map]
  rfl

/-- A published name holds the new cell, every other name keeps its own. -/
theorem publish_get? (table : Table) (step : StepId) (observed : LogicalTime) (name : String) :
    (table.publish step outputs.values observed).1.cells.get? name =
      ((outputs.get? name).map (⟨·, table.version + 1⟩)).or (table.cells.get? name) := by
  have hpairs : (outputs.values.map fun cell =>
        (cell.name, (⟨cell, table.version + 1⟩ : Published))) =
      outputs.entries.mapItems (⟨·, table.version + 1⟩) := by
    rw [Entries.mapItems, ← OrderedMap.map_values_eq_entries named, List.map_map]
    rfl
  have hnodup : (outputs.entries.mapItems fun cell =>
      (⟨cell, table.version + 1⟩ : Published)).keys.Nodup := by
    rw [Entries.keys_mapItems]
    exact outputs.nodup
  -- distinct keys: the last entry of a name is its only one
  rw [publish_cells, OrderedMap.get?_insertAll, hpairs, Entries.last?_eq_get? hnodup,
    Entries.get?_mapItems]
  rfl

/-- The conflicts of publishing a map are those of its keys, each against the table from before. -/
theorem publish_conflicts (table : Table) (step : StepId) (observed : LogicalTime) :
    (table.publish step outputs.values observed).2.conflicts =
      outputs.keys.filterMap (conflict? table.cells step observed) := by
  have hkeys := map_name_values named
  have hnodup : (outputs.values.map Cell.name).Nodup := hkeys ▸ outputs.nodup
  rw [← hkeys]
  exact land_snd hnodup step observed (table.version + 1) table.cells

end Map

/-! ## A whole history

The induction is on the history from its end, since the newest publish is the one that decides what
a name holds.
-/

/-- A history that is one publish longer makes that publish last. -/
@[simp] theorem replay_concat (history : List PublishCall) (call : PublishCall) :
    replay (history ++ [call]) =
      ((replay history).publish call.step call.cells call.observed).1 := by
  simp [replay]

/-- The cells of one more publish come behind those given before. -/
theorem given_concat (history : List PublishCall) (call : PublishCall) :
    PublishCall.given (history ++ [call]) = PublishCall.given history ++ call.cells := by
  simp [PublishCall.given]

theorem replay_version (history : List PublishCall) :
    (replay history).version = history.length := by
  induction history using List.reverseRecOn with
  | nil => rfl
  | append_singleton history call ih => simp [ih]

/-- The published names are those of the cells given, in the order of their first mention. -/
theorem replay_names (history : List PublishCall) :
    (replay history).names = ((PublishCall.given history).map Cell.name).eraseDups := by
  induction history using List.reverseRecOn with
  | nil => rfl
  | append_singleton history call ih =>
    rw [replay_concat, publish_names ih, given_concat, List.map_append]

/-- A name holds the last cell that the history gives for it. -/
theorem replay_cell? (history : List PublishCall) (name : String) :
    (replay history).cell? name =
      (PublishCall.given history).findRev? fun cell => cell.name == name := by
  induction history using List.reverseRecOn with
  | nil => rfl
  | append_singleton history call ih =>
    rw [replay_concat, publish_cell?, ih, given_concat]
    -- searching from behind meets the newest publish first
    simp only [List.findRev?_eq_find?_reverse, List.reverse_append, List.find?_append]

/-- A resolution answers each requested name that the table has, in the order of the request. -/
theorem resolve_cells (table : Table) (requested : List String) :
    (table.resolve requested).cells =
      requested.filterMap fun name => (table.cell? name).map (Cell.relabel · .input) := by
  simp [resolve, cell?, Option.map_map, Function.comp_def]

/-- A resolution after a history answers with the last cells given, and with the number of
publishes. -/
theorem replay_resolve (history : List PublishCall) (requested : List String) :
    (replay history).resolve requested =
      { cells := requested.filterMap fun name =>
          ((PublishCall.given history).findRev? fun cell => cell.name == name).map
            fun cell => { cell with kind := .input }
        version := history.length } := by
  have hcells := resolve_cells (replay history) requested
  simp only [replay_cell?] at hcells
  exact congrArg₂ Resolution.mk hcells (replay_version history)

/-- A cell of a resolution answers the request for its own name. -/
theorem mem_resolve_iff {history : List PublishCall} {requested : List String} {cell : Cell}
    (h : cell.name ∈ requested) :
    cell ∈ ((replay history).resolve requested).cells ↔
      ((replay history).cell? cell.name).map (Cell.relabel · .input) = some cell := by
  rw [resolve_cells, List.mem_filterMap]
  constructor
  · rintro ⟨name, -, hcell⟩
    obtain ⟨given, hgiven, rfl⟩ := Option.map_eq_some_iff.1 hcell
    -- the look-up compares names, so what it finds is called as it was asked for
    have hname : given.name = name := by
      rw [replay_cell?, List.findRev?_eq_find?_reverse] at hgiven
      simpa using List.find?_some hgiven
    subst hname
    exact hcell
  · -- conversely, the request for its own name is the one it answers
    intro hcell
    exact ⟨cell.name, h, hcell⟩

/-- Prefixes of one history that leave the same version leave the same table. -/
theorem replay_take_eq {history : List PublishCall} {i j : Nat}
    (h : (replay (history.take i)).version = (replay (history.take j)).version) :
    replay (history.take i) = replay (history.take j) := by
  -- equal versions mean equally many publishes, of the same history
  rw [replay_version, replay_version, List.length_take, List.length_take] at h
  rw [List.take_eq_take_iff.2 h]

/-- **The table refines its publish history.** It counts the publishes; it names what was ever
published, once each, in the order of first appearance; each name holds the last cell given for it;
and a resolution answers the requested names in their order with these cells, as inputs. So two
resolutions of one run that report the same version hold the same cells for the same names. -/
theorem replay_refines (history : List PublishCall) :
    (replay history).version = history.length ∧
    (replay history).names = ((PublishCall.given history).map Cell.name).eraseDups ∧
    (∀ name, (replay history).cell? name =
      (PublishCall.given history).findRev? fun cell => cell.name == name) ∧
    (∀ requested, (replay history).resolve requested =
      { cells := requested.filterMap fun name =>
          ((PublishCall.given history).findRev? fun cell => cell.name == name).map
            fun cell => { cell with kind := .input }
        version := history.length }) ∧
    (∀ i j requested others,
      ((replay (history.take i)).resolve requested).version =
          ((replay (history.take j)).resolve others).version →
        (replay (history.take i)).resolve requested =
            (replay (history.take j)).resolve requested ∧
        ∀ cell : Cell, cell.name ∈ requested → cell.name ∈ others →
          (cell ∈ ((replay (history.take i)).resolve requested).cells ↔
            cell ∈ ((replay (history.take j)).resolve others).cells)) := by
  refine ⟨replay_version history, replay_names history, replay_cell? history,
    replay_resolve history, ?_⟩
  intro i j requested others hversion
  -- the same version of one history is the same table
  have htable : replay (history.take i) = replay (history.take j) := replay_take_eq hversion
  refine ⟨by rw [htable], ?_⟩
  intro cell hrequested hothers
  rw [mem_resolve_iff hrequested, mem_resolve_iff hothers, htable]

end Table

end StepRelay
