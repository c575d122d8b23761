import StepRelay.Proofs.Invocation
import StepRelay.Proofs.Table
import StepRelay.Supervisor.Execution

/-!
# What the supervisor's operations do to the table and the archive

Telling others leaves both alone, and so does beginning a step or serving a script's call. A failure
archives one record. A commit either fails or publishes: `commit_cases` says which, and
`Publication.Lands` is what a publication does to the table.
-/

namespace StepRelay

/-- What a publication does to the table it lands in. -/
structure Publication.Lands (publication : Publication) (before after : Table) : Prop where
  version : after.version = before.version + 1
  stamped : publication.tableVersion = after.version
  /-- A published name holds the new value, from the publishing step. -/
  written : ∀ name value, publication.values.get? name = some value →
    ∃ cell, after.cells.get? name = some ⟨cell, after.version⟩ ∧
      cell.value = value ∧ cell.origin = publication.step
  /-- Every other name keeps its cell. -/
  kept : ∀ name, name ∉ publication.values.keys → after.cells.get? name = before.cells.get? name

section Written

variable {publication : Publication} {before after : Table} {written : Entries Value}
  (h : publication.Lands before after) (hvalues : publication.values = .ofPairs written)

include h hvalues

/-- Each name holds the value last written under it. -/
theorem Publication.Lands.cell?_of_last {name : String} {value : Value}
    (hvalue : written.last? name = some value) :
    ∃ cell, after.cell? name = some cell ∧ cell.value = value ∧
      cell.origin = publication.step := by
  rw [← OrderedMap.get?_ofPairs, ← hvalues] at hvalue
  obtain ⟨cell, hcell, hcellvalue, horigin⟩ := h.written name value hvalue
  refine ⟨cell, ?_, hcellvalue, horigin⟩
  rw [Table.cell?, hcell, Option.map_some]

/-- A name that was not written keeps its cell. -/
theorem Publication.Lands.get?_of_not_written {name : String} (hname : name ∉ written.keys) :
    after.cells.get? name = before.cells.get? name := by
  apply h.kept
  rwa [hvalues, OrderedMap.keys_ofPairs, List.mem_eraseDups]

end Written

/-- The end of an invocation, by its result: a publication lands, an error leaves the table
alone. -/
def Settles (before : Table) : Except StepError Publication → Table → Prop
  | .ok publication, after => publication.Lands before after
  | .error _, after => after = before

/-- The report that a conflict of a commit becomes. -/
def Conflict.ambiguity (step : StepId) (conflict : Conflict) : StepError :=
  .ambiguity conflict.name step conflict.previousStep

/-- A push adds one record behind the newest of the old ones. -/
theorem Archive.push_records (archive : Archive) (record : Record) :
    ∃ evicted kept, archive.records = evicted ++ kept ∧
      (archive.push record).1.records = kept ++ [record] :=
  ⟨_, _, (List.take_append_drop _ archive.records).symm, rfl⟩

namespace Supervisor

/-! ## Telling others

Events, trace lines and buffered lines are for readers outside: none of them changes a table or an
archive. Archiving a record also drops the log buffers of evicted steps, in a loop; `foldl_keeps`
carries the facts through such loops.
-/

@[simp] theorem emit_table (s : Supervisor) (event : Event) : (s.emit event).table = s.table := rfl

@[simp] theorem emit_archive (s : Supervisor) (event : Event) :
    (s.emit event).archive = s.archive := rfl

@[simp] theorem traceLine_table (s : Supervisor) (level : LogLevel) (message : String)
    (fields : List (String × String)) : (s.traceLine level message fields).table = s.table := rfl

@[simp] theorem traceLine_archive (s : Supervisor) (level : LogLevel) (message : String)
    (fields : List (String × String)) :
    (s.traceLine level message fields).archive = s.archive := rfl

@[simp] theorem log_table (s : Supervisor) (step : StepId) (level : LogLevel) (message : String) :
    (s.log step level message).table = s.table := by
  unfold log
  dsimp only
  split <;> rfl

@[simp] theorem log_archive (s : Supervisor) (step : StepId) (level : LogLevel)
    (message : String) : (s.log step level message).archive = s.archive := by
  unfold log
  dsimp only
  split <;> rfl

/-- A loop keeps what each of its rounds keeps. -/
theorem foldl_keeps {α β : Type} (part : Supervisor → β) (round : Supervisor → α → Supervisor)
    (h : ∀ s item, part (round s item) = part s) (items : List α) (s : Supervisor) :
    part (items.foldl round s) = part s := by
  induction items generalizing s with
  | nil => rfl
  | cons item rest ih => rw [List.foldl_cons, ih, h]

@[simp] theorem archiveRecord_table (s : Supervisor) (record : Record) :
    (s.archiveRecord record).table = s.table := by
  simp only [archiveRecord]
  -- the loop over the evicted steps drops log buffers only
  rw [foldl_keeps Supervisor.table]
  exact fun _ _ => rfl

/-- Archiving a record is one push; the log buffers are another part of the state. -/
@[simp] theorem archiveRecord_archive (s : Supervisor) (record : Record) :
    (s.archiveRecord record).archive = (s.archive.push record).1 := by
  simp only [archiveRecord]
  rw [foldl_keeps Supervisor.archive]
  exact fun _ _ => rfl

/-! ## Beginning

Beginning a step reads the table and writes nothing back. The ticks of the constants move only the
clock.
-/

/-- Beginning a step publishes nothing. -/
@[simp] theorem begin_table (s : Supervisor) (request : StepRequest) :
    (s.begin request).1.table = s.table := by
  simp only [begin, emit_table, traceLine_table]
  -- the loop announces the inputs, event by event
  rw [foldl_keeps Supervisor.table]
  exact fun _ _ => rfl

/-- Beginning a step archives nothing. -/
@[simp] theorem begin_archive (s : Supervisor) (request : StepRequest) :
    (s.begin request).1.archive = s.archive := by
  simp only [begin, emit_archive, traceLine_archive]
  rw [foldl_keeps Supervisor.archive]
  exact fun _ _ => rfl

/-- A step that has just begun reflects that no call was made. -/
theorem begin_reflects (s : Supervisor) (request : StepRequest) :
    (s.begin request).2.Reflects [] :=
  Invocation.reflects_start ..

/-! ## Failing

Every failure goes through `recordFailure`: one record of the phase *failed*, no publish.
-/

/-- Reporting a failure publishes nothing. -/
@[simp] theorem recordFailure_table (s : Supervisor) (step : StepId)
    (inputs state outputs : OrderedMap Value) (error : StepError) :
    (s.recordFailure step inputs state outputs error).table = s.table := by
  simp [recordFailure]

/-- Reporting a failure archives one failed record, with the error in it. -/
@[simp] theorem recordFailure_archive (s : Supervisor) (step : StepId)
    (inputs state outputs : OrderedMap Value) (error : StepError) :
    (s.recordFailure step inputs state outputs error).archive =
      (s.archive.push
        { step, phase := .failed, inputs, state, outputs, failure := some error }).1 := by
  simp [recordFailure]

/-- A step that fails publishes nothing. -/
@[simp] theorem fail_table (s : Supervisor) (invocation : Invocation) (error : StepError) :
    (s.fail invocation error).table = s.table :=
  recordFailure_table ..

/-- A step that fails archives one record, which tells what the step had read and written. -/
theorem fail_archive (s : Supervisor) (invocation : Invocation) (error : StepError) :
    (s.fail invocation error).archive =
      (s.archive.push {
        step := invocation.step
        phase := .failed
        inputs := invocation.inputs.values
        state := invocation.state
        outputs := invocation.outputs
        failure := some error }).1 :=
  recordFailure_archive ..

/-- The record of a failure tells what had been written by then. -/
theorem fail_archive_of_reflects {begun invocation : Invocation} {attempts : List Attempt}
    (hcontinues : begun.Continues invocation) (hreflects : invocation.Reflects attempts)
    (s : Supervisor) (error : StepError) :
    (s.fail invocation error).archive =
      (s.archive.push {
        step := begun.step
        phase := .failed
        inputs := begun.inputs.values
        state := .ofPairs (Attempt.accepted .state attempts)
        outputs := .ofPairs (Attempt.accepted .output attempts)
        failure := some error }).1 := by
  have hstep : invocation.step = begun.step := hcontinues.step
  rw [fail_archive, hstep, hcontinues.inputs, hreflects.state, hreflects.outputs]

/-! ## Committing

A fatal error turns a commit into a failure. Otherwise the output cells are published and one record
of the phase *committed* is archived; `commit_cases` says which of the two happened and is what the
later proofs cite.
-/

/-- A commit after a fatal error is the failure with that error. -/
theorem commit_of_fatal {invocation : Invocation} {error : StepError}
    (h : invocation.fatal = some error) (s : Supervisor) :
    s.commit invocation = (s.fail invocation error, .error error) := by
  simp [commit, h]

/-- The table that a commit without a fatal error leaves. -/
theorem commit_table {invocation : Invocation} (h : invocation.fatal = none) (s : Supervisor) :
    (s.commit invocation).1.table =
      (s.table.publish invocation.step invocation.store.outputs.values
        invocation.observed).1 := by
  simp only [commit, h, archiveRecord_table, emit_table, traceLine_table]
  -- the loop reports the ambiguities, event by event
  rw [foldl_keeps Supervisor.table]
  exact fun _ _ => rfl

/-- The record of an invocation that is committed. -/
def committedRecord (invocation : Invocation) : Record where
  step := invocation.step
  phase := .committed
  inputs := invocation.inputs.values
  state := invocation.state
  outputs := invocation.outputs
  failure := none

/-- A commit without a fatal error archives one committed record. -/
theorem commit_archive {invocation : Invocation} (h : invocation.fatal = none) (s : Supervisor) :
    (s.commit invocation).1.archive = (s.archive.push (committedRecord invocation)).1 := by
  simp only [commit, h, archiveRecord_archive, emit_archive, traceLine_archive]
  rw [foldl_keeps Supervisor.archive]
  · rfl
  · exact fun _ _ => rfl

/-- What a commit without a fatal error answers. -/
theorem commit_of_not_fatal {invocation : Invocation} (htidy : invocation.store.Tidy)
    (h : invocation.fatal = none) (s : Supervisor) :
    (s.commit invocation).2 = .ok {
      step := invocation.step
      tableVersion := s.table.version + 1
      values := invocation.outputs
      ambiguities :=
        (invocation.outputs.keys.filterMap
          (Table.conflict? s.table.cells invocation.step invocation.observed)).map
          (Conflict.ambiguity invocation.step) } := by
  have hconflicts := Table.publish_conflicts
    (fun name cell hcell => (htidy.outputs name cell hcell).1)
    s.table invocation.step invocation.observed
  have hkeys : invocation.outputs.keys = invocation.store.outputs.keys := by simp
  -- the conflicts of the publish, one for each output name, become the ambiguities of the answer
  rw [hkeys, ← hconflicts]
  simp only [commit, h]
  rfl

/-- A commit fails with the fatal error, if there is one, and else lands the outputs. -/
theorem commit_cases (s : Supervisor) {invocation : Invocation} (htidy : invocation.store.Tidy) :
    (∃ error, invocation.fatal = some error ∧
      s.commit invocation = (s.fail invocation error, .error error)) ∨
    (invocation.fatal = none ∧ ∃ publication, (s.commit invocation).2 = .ok publication ∧
      publication.step = invocation.step ∧ publication.values = invocation.outputs ∧
      publication.ambiguities =
        (invocation.outputs.keys.filterMap
          (Table.conflict? s.table.cells invocation.step invocation.observed)).map
          (Conflict.ambiguity invocation.step) ∧
      publication.Lands s.table (s.commit invocation).1.table) := by
  cases hfatal : invocation.fatal with
  | some error => exact .inl ⟨error, rfl, commit_of_fatal hfatal s⟩
  | none =>
    refine .inr ⟨rfl, _, commit_of_not_fatal htidy hfatal s, rfl, rfl, rfl, ?_⟩
    -- what the table answers for each name after the publish decides both remaining fields
    have hget := Table.publish_get? (fun name cell hcell => (htidy.outputs name cell hcell).1)
      s.table invocation.step invocation.observed
    rw [← commit_table hfatal s] at hget
    have hversion : (s.commit invocation).1.table.version = s.table.version + 1 := by
      rw [commit_table hfatal, Table.publish_version]
    refine ⟨hversion, hversion.symm, ?_, ?_⟩
    · -- a published value is that of an output cell, which the step itself has written
      intro name value hvalue
      rw [Invocation.outputs_eq, OrderedMap.get?_map, Option.map_eq_some_iff] at hvalue
      obtain ⟨cell, hcell, rfl⟩ := hvalue
      refine ⟨cell, ?_, rfl, (htidy.outputs name cell hcell).2.1⟩
      rw [hget, hcell, hversion]
      rfl
    · -- no output cell has this name, so the table answers with its old cell
      intro name hname
      rw [Invocation.outputs_eq, OrderedMap.keys_map, ← OrderedMap.get?_eq_none_iff] at hname
      rw [hget, hname]
      rfl

/-- What a commit that succeeded has published. -/
theorem commit_ok {s : Supervisor} {invocation : Invocation} (htidy : invocation.store.Tidy)
    {publication : Publication} (h : (s.commit invocation).2 = .ok publication) :
    publication.step = invocation.step ∧ publication.values = invocation.outputs ∧
      publication.ambiguities =
        (invocation.outputs.keys.filterMap
          (Table.conflict? s.table.cells invocation.step invocation.observed)).map
          (Conflict.ambiguity invocation.step) ∧
      publication.Lands s.table (s.commit invocation).1.table := by
  rcases commit_cases s htidy with ⟨error, -, hcommit⟩ | ⟨-, other, hok, hcommit⟩
  · -- a failure is not a success
    rw [hcommit] at h
    cases h
  · rw [hok, Except.ok.injEq] at h
    subst h
    exact hcommit

/-- A commit settles the table: what it publishes lands, and an error leaves the table alone. -/
theorem commit_settles (s : Supervisor) {invocation : Invocation}
    (htidy : invocation.store.Tidy) :
    Settles s.table (s.commit invocation).2 (s.commit invocation).1.table := by
  rcases commit_cases s htidy with ⟨error, -, hcommit⟩ | ⟨-, publication, hok, -, -, -, hlands⟩
  · rw [hcommit]
    exact fail_table s invocation error
  · rw [hok]
    exact hlands

end Supervisor

end StepRelay
