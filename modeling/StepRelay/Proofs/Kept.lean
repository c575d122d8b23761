import StepRelay.Proofs.Run

/-!
# What every operation keeps

The configuration of a supervisor never changes, and the cells of its table stand under their own
names (`Table.Named`; the type of a table does not say it). `Supervisor.Follows` states both of two
states of a supervisor, `follows_act` of one action and `follows_run` of a run.
-/

namespace StepRelay

namespace Table

/-- Every published cell stands under its own name. -/
def Named (table : Table) : Prop :=
  ∀ name published, table.cells.get? name = some published → published.cell.name = name

/-- **Publishing keeps the names**: each cell is put under its own. -/
theorem Named.publish {table : Table} (h : table.Named) (step : StepId) (cells : List Cell)
    (observed : LogicalTime) : (table.publish step cells observed).1.Named := by
  intro name published hpublished
  rw [publish_cells, OrderedMap.get?_insertAll,
    Entries.last?_map Cell.name (fun cell => (⟨cell, table.version + 1⟩ : Published))]
    at hpublished
  cases hfound : cells.findRev? (fun cell => cell.name == name) with
  -- none of the cells has the name, so the old cell stays
  | none =>
    rw [hfound, Option.map_none, Option.none_or] at hpublished
    exact h name published hpublished
  -- the last cell of the name, which was found by it
  | some cell =>
    rw [hfound, Option.map_some, Option.some_or, Option.some.injEq] at hpublished
    rw [List.findRev?_eq_find?_reverse] at hfound
    rw [← hpublished]
    simpa using List.find?_some hfound

end Table

namespace Supervisor

/-! ## Operations

Whatever is not a publish leaves table and configuration as they are, so all but one of these lemmas
only have to say so. Scripts and executions are put together of them.
-/

/-- What every operation keeps. -/
structure Follows (before after : Supervisor) : Prop where
  config : after.config = before.config
  named : before.table.Named → after.table.Named

theorem Follows.refl (s : Supervisor) : s.Follows s := ⟨rfl, id⟩

theorem Follows.trans {a b c : Supervisor} (hab : a.Follows b) (hbc : b.Follows c) :
    a.Follows c :=
  ⟨hbc.config.trans hab.config, hbc.named ∘ hab.named⟩

/-- Whatever leaves the configuration and the table as they are keeps both. -/
theorem follows_of_table_eq {before after : Supervisor} (hconfig : after.config = before.config)
    (htable : after.table = before.table) : before.Follows after :=
  ⟨hconfig, fun hnamed => htable ▸ hnamed⟩

theorem follows_log (s : Supervisor) (step : StepId) (level : LogLevel) (message : String) :
    s.Follows (s.log step level message) := by
  refine follows_of_table_eq ?_ (s.log_table step level message)
  unfold log
  dsimp only
  split <;> rfl

theorem follows_archiveRecord (s : Supervisor) (record : Record) :
    s.Follows (s.archiveRecord record) := by
  refine follows_of_table_eq ?_ (s.archiveRecord_table record)
  simp only [archiveRecord]
  rw [foldl_keeps Supervisor.config]
  exact fun _ _ => rfl

/-- A begin resolves names and lays constants over them; it publishes nothing. -/
theorem follows_begin (s : Supervisor) (request : StepRequest) :
    s.Follows (s.begin request).1 := by
  refine follows_of_table_eq ?_ (s.begin_table request)
  simp only [begin, emit, traceLine]
  rw [foldl_keeps Supervisor.config]
  exact fun _ _ => rfl

theorem follows_recordFailure (s : Supervisor) (step : StepId)
    (inputs state outputs : OrderedMap Value) (error : StepError) :
    s.Follows (s.recordFailure step inputs state outputs error) := by
  refine Follows.trans ?_ (follows_archiveRecord ..)
  exact follows_of_table_eq rfl rfl

/-- **A commit is the one operation that changes the table**, and it publishes. -/
theorem follows_commit (s : Supervisor) (invocation : Invocation) :
    s.Follows (s.commit invocation).1 := by
  cases hfatal : invocation.fatal with
  | some error =>
    rw [commit_of_fatal hfatal]
    exact follows_recordFailure ..
  | none =>
    refine ⟨?_, ?_⟩
    · -- announcing and archiving leave the configuration alone
      simp only [commit, hfatal]
      rw [(follows_archiveRecord _ _).config]
      simp only [emit, traceLine]
      rw [foldl_keeps Supervisor.config]
      exact fun _ _ => rfl
    · rw [commit_table hfatal]
      exact fun hnamed => hnamed.publish _ _ _

theorem follows_settle (s : Supervisor) (invocation : Invocation) (outcome : Outcome) :
    s.Follows (s.settle invocation outcome).1 := by
  unfold settle
  split
  · exact s.follows_commit invocation
  · exact follows_recordFailure ..

/-- A call of a script writes, reads or logs. -/
theorem follows_perform (s : Supervisor) (invocation : Invocation) (call : Call) :
    s.Follows (s.perform invocation call).1 := by
  cases call with
  | log level message => exact s.follows_log invocation.step level message
  | inputs | set | setOutput | state | pause => exact follows_of_table_eq rfl rfl

theorem follows_runScript (script : Script) (s : Supervisor) (invocation : Invocation)
    (transcript : List Exchange) :
    s.Follows (runScript script s invocation transcript).1 := by
  induction script generalizing s invocation transcript with
  | ends outcome => exact .refl s
  | call call next ih => exact (s.follows_perform invocation call).trans (ih _ _ _ _)

theorem follows_next? {s s' : Supervisor} {running running' : Running}
    (h : s.next? running = some (s', running')) : s.Follows s' := by
  obtain ⟨invocation, script, transcript⟩ := running
  cases script with
  | ends outcome => simp [next?] at h
  | call call next =>
    simp only [next?, Option.some.injEq, Prod.mk.injEq] at h
    exact h.1 ▸ s.follows_perform invocation call

theorem follows_advance (calls : Nat) (s : Supervisor) (running : Running) :
    s.Follows (advance calls s running).1 := by
  induction calls generalizing s running with
  | zero => exact .refl s
  | succ calls ih =>
    rw [advance]
    cases hnext : s.next? running with
    | none => exact .refl s
    | some after => exact (follows_next? hnext).trans (ih after.1 after.2)

/-- **An execution** begins, runs its script and settles. -/
theorem follows_execute (s : Supervisor) (request : StepRequest) (script : Script) :
    s.Follows (s.execute request script).1 :=
  ((s.follows_begin request).trans (follows_runScript ..)).trans (follows_settle ..)

/-- **A cancelled one** may fail before its script has ended. -/
theorem follows_executeAsync (s : Supervisor) (request : StepRequest) (script : Script)
    (cancellation : Cancellation) :
    s.Follows (s.executeAsync request script cancellation).1 := by
  refine (s.follows_begin request).trans ?_
  cases cancellation with
  | beforeStart => exact follows_recordFailure ..
  | never => exact (follows_runScript ..).trans (follows_settle ..)
  | afterCalls calls =>
    have hadvance := follows_advance calls (s.begin request).1
      ⟨(s.begin request).2.markRunning, script, []⟩
    simp only [executeAsync]
    split
    · -- cancelled, or ended before the cancellation
      next ran running heq =>
      rw [heq] at hadvance
      exact hadvance.trans (follows_recordFailure ..)
    · next ran running heq =>
      rw [heq] at hadvance
      exact (hadvance.trans (follows_runScript ..)).trans (follows_settle ..)

end Supervisor

/-! ## Actions and runs

An action is one operation, or none if nothing is found under its label or index.
-/

namespace Session

/-- **Every action** keeps the configuration and the names. -/
theorem follows_act (session : Session) (action : Action) :
    session.supervisor.Follows (session.act action).1.supervisor := by
  -- a write leaves the table alone, an action on nothing leaves everything alone, and the rest is
  -- one operation of the supervisor each
  cases action with
  | begin label request => exact session.supervisor.follows_begin request
  | set label name value | setOutput label name value =>
    simp only [act]
    split <;> exact Supervisor.follows_of_table_eq rfl rfl
  | commit label =>
    simp only [act]
    split
    · exact .refl _
    · exact session.supervisor.follows_commit _
  | fail label error =>
    simp only [act]
    split
    · exact .refl _
    · exact Supervisor.follows_recordFailure ..
  | log step level message => exact session.supervisor.follows_log step level message
  | execute request script => exact session.supervisor.follows_execute request script
  | executeAsync request script cancellation =>
    exact session.supervisor.follows_executeAsync request script cancellation
  | resume index =>
    simp only [act]
    split
    · exact .refl _
    · split
      · exact .refl _
      · next hnext => exact Supervisor.follows_next? hnext
  | finish index =>
    simp only [act]
    split
    · exact .refl _
    · exact Supervisor.follows_runScript ..

theorem follows_run (session : Session) (actions : List Action) :
    session.supervisor.Follows (session.run actions).supervisor := by
  induction actions generalizing session with
  | nil => exact .refl _
  | cons action rest ih => exact (session.follows_act action).trans (ih (session.act action).1)

end Session

end StepRelay
