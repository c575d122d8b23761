import StepRelay.Proofs.Cancellation
import StepRelay.Proofs.InFlight

/-!
# What the events tell

Events are announced while the table, the archive and the caller's answer are made, each at a place
of its own. `Tells` says once what an action can do to the table and the events together: nothing,
begin an invocation, end one, or both. Whoever ends an invocation announces its result as
`Announces` has it. From the two follow what a listener can know of the table (`Told`), and how many
invocations are in flight.
-/

namespace StepRelay

/-! ## Listening

A listener can only fold over what it is told. `CommitNotice` is what it keeps of a commit: the
step, the version, and the names of the outputs.
-/

/-- A commit as it is announced. -/
structure CommitNotice where
  step : StepId
  outputs : List String
  version : LogicalTime

namespace Event

/-- The commit that an event announces. -/
def commit? : Event → Option CommitNotice
  | .committed step outputs version => some ⟨step, outputs, version⟩
  | .began .. | .failed .. | .overridden .. => none

/-- Whether an event announces that an invocation begins. -/
def isBegan : Event → Bool
  | .began .. => true
  | .committed .. | .failed .. | .overridden .. => false

/-- Whether an event announces the end of an invocation. -/
def isTerminal : Event → Bool
  | .committed .. | .failed .. => true
  | .began .. | .overridden .. => false

/-- The commits announced, in order. -/
def commits (events : List Event) : List CommitNotice := events.filterMap commit?

theorem commits_append (events more : List Event) :
    commits (events ++ more) = commits events ++ commits more :=
  List.filterMap_append

end Event

/-- What is announced of a conflict. -/
def Conflict.event (step : StepId) (conflict : Conflict) : Event :=
  .overridden conflict.name step conflict.previousStep

/-- What is announced when an invocation of a step ends: for each ambiguity that is reported, the
override, and then the commit; or the failure alone. -/
inductive Announces (step : StepId) : Except StepError Publication → List Event → Prop where
  | committed (publication : Publication) (own : publication.step = step)
      (conflicts : List Conflict)
      (reported : publication.ambiguities = conflicts.map (Conflict.ambiguity step)) :
      Announces step (.ok publication) (conflicts.map (Conflict.event step) ++
        [.committed step publication.values.keys publication.tableVersion])
  | failed (error : StepError) : Announces step (.error error) [.failed step error.message]

/-- The names that the end of an invocation publishes. -/
def publishedNames : Except StepError Publication → List String
  | .ok publication => publication.values.keys
  | .error _ => []

namespace Supervisor

/-! ## Calls announce nothing

Writing, logging and reading leave the events as they are; so what is announced is announced where
an invocation begins and where it ends.
-/

/-- Archiving a record and clearing the logs of those it evicts announces nothing. -/
theorem archiveRecord_events (s : Supervisor) (record : Record) :
    (s.archiveRecord record).events = s.events := by
  simp only [archiveRecord]
  rw [foldl_keeps Supervisor.events]
  exact fun _ _ => rfl

theorem perform_events (s : Supervisor) (invocation : Invocation) (call : Call) :
    (s.perform invocation call).1.events = s.events :=
  (touches_perform s invocation call).keeps.2.2

theorem runScript_events (script : Script) (s : Supervisor) (invocation : Invocation)
    (transcript : List Exchange) :
    (runScript script s invocation transcript).1.events = s.events := by
  induction script generalizing s invocation transcript with
  | ends outcome => rfl
  | call call next ih => exact (ih _ _ _ _).trans (perform_events s invocation call)

theorem next?_events {s s' : Supervisor} {running running' : Running}
    (h : s.next? running = some (s', running')) : s'.events = s.events :=
  (touches_next? h).1.keeps.2.2

/-- And neither does one that is followed for a number of calls only. -/
theorem advance_events (calls : Nat) (s : Supervisor) (running : Running) :
    (advance calls s running).1.events = s.events := by
  induction calls generalizing s running with
  | zero => rfl
  | succ calls ih =>
    rw [advance]
    cases hnext : s.next? running with
    | none => rfl
    -- one call is made, and the rest from where it leads
    | some after => exact (ih after.1 after.2).trans (next?_events hnext)

/-! ## Ends

There are two ways to end an invocation, a commit and a failure, and everything else that ends one
goes through them. `Ended` is what both have in common; it is proved for the two here, and then for
a script that runs to its end, for `execute` and for `executeAsync`.
-/

/-- An invocation of a step has ended with a result. -/
structure Ended (step : StepId) (before : Supervisor) (result : Except StepError Publication)
    (after : Supervisor) : Prop where
  settles : Settles before.table result after.table
  names : ∀ mentioned : List String, before.table.names = mentioned.eraseDups →
    after.table.names = (mentioned ++ publishedNames result).eraseDups
  told : ∃ announced, after.events = before.events ++ announced ∧ Announces step result announced

/-- Only the table and the events count for what was there before. -/
theorem Ended.of_eq {step : StepId} {s before after : Supervisor}
    {result : Except StepError Publication} (h : Ended step before result after)
    (htable : before.table = s.table) (hevents : before.events = s.events) :
    Ended step s result after := by
  obtain ⟨hsettles, hnames, htold⟩ := h
  -- the three parts mention the table and the events of `before` only
  rw [htable] at hsettles hnames
  rw [hevents] at htold
  exact ⟨hsettles, hnames, htold⟩

/-- **A failure is announced once**, with the message of its error. -/
theorem recordFailure_events (s : Supervisor) (step : StepId)
    (inputs state outputs : OrderedMap Value) (error : StepError) :
    (s.recordFailure step inputs state outputs error).events =
      s.events ++ [.failed step error.message] := by
  rw [recordFailure, archiveRecord_events]
  rfl

theorem fail_events (s : Supervisor) (invocation : Invocation) (error : StepError) :
    (s.fail invocation error).events = s.events ++ [.failed invocation.step error.message] :=
  recordFailure_events ..

/-- A failed invocation leaves the table, publishes no names, and announces itself. -/
theorem ended_recordFailure (s : Supervisor) (step : StepId)
    (inputs state outputs : OrderedMap Value) (error : StepError) :
    Ended step s (.error error) (s.recordFailure step inputs state outputs error) := by
  have htable := s.recordFailure_table step inputs state outputs error
  have hevents := s.recordFailure_events step inputs state outputs error
  refine ⟨htable, ?_, [.failed step error.message], hevents, .failed error⟩
  intro mentioned hmentioned
  rw [htable, hmentioned, publishedNames, List.append_nil]

theorem ended_fail (s : Supervisor) (invocation : Invocation) (error : StepError) :
    Ended invocation.step s (.error error) (s.fail invocation error) :=
  ended_recordFailure ..

/-- The conflicts of a commit are announced one by one, in their order. -/
theorem announceConflicts_events (step : StepId) (version : LogicalTime)
    (conflicts : List Conflict) (s : Supervisor) :
    (conflicts.foldl (announceConflict step version) s).events =
      s.events ++ conflicts.map (Conflict.event step) := by
  induction conflicts generalizing s with
  | nil => exact (List.append_nil _).symm
  | cons conflict rest ih =>
    rw [List.foldl_cons, ih, List.map_cons, List.append_cons]
    rfl

/-- **A commit is announced behind its overrides.** -/
theorem commit_events {invocation : Invocation} (h : invocation.fatal = none) (s : Supervisor) :
    let report := (s.table.publish invocation.step invocation.store.outputs.values
      invocation.observed).2
    (s.commit invocation).1.events =
      s.events ++ (report.conflicts.map (Conflict.event invocation.step) ++
        [.committed invocation.step invocation.outputs.keys report.version]) := by
  simp only [commit, h, archiveRecord_events, emit, traceLine]
  rw [announceConflicts_events, List.append_assoc]

/-- **A commit ends its invocation**, whether it publishes or finds that the invocation has failed
for good. -/
theorem ended_commit (s : Supervisor) {invocation : Invocation}
    (htidy : invocation.store.Tidy) :
    Ended invocation.step s (s.commit invocation).2 (s.commit invocation).1 := by
  cases hfatal : invocation.fatal with
  -- an output was refused for good: the commit fails instead
  | some error =>
    rw [commit_of_fatal hfatal]
    exact s.ended_fail invocation error
  | none =>
    -- every output stands under its own name, so its name is its key
    have hnamed : ∀ name cell, invocation.store.outputs.get? name = some cell →
        cell.name = name := fun name cell hcell => (htidy.outputs name cell hcell).1
    have hkeys : invocation.outputs.keys = invocation.store.outputs.keys := by simp
    have hok := commit_of_not_fatal htidy hfatal s
    refine ⟨s.commit_settles htidy, ?_, _, commit_events hfatal s, ?_⟩
    · intro mentioned hmentioned
      rw [commit_table hfatal, Table.publish_names hmentioned, Table.map_name_values hnamed, hok,
        publishedNames, hkeys]
    · rw [hok, Table.publish_conflicts hnamed, ← hkeys]
      -- the conflicts that are announced are those returned as ambiguities
      refine .committed _ ?_ _ ?_
      · rfl
      · rfl

/-- So a script that has come to its end does, whatever its outcome is. -/
theorem ended_settle (s : Supervisor) {invocation : Invocation} (htidy : invocation.store.Tidy)
    (outcome : Outcome) :
    Ended invocation.step s (s.settle invocation outcome).2 (s.settle invocation outcome).1 := by
  unfold settle
  split
  · exact s.ended_commit htidy
  · exact s.ended_fail invocation _

/-- An invocation of the request was begun, and it ended with a result. -/
def Spans (request : StepRequest) (before : Supervisor) (result : Except StepError Publication)
    (after : Supervisor) : Prop :=
  Ended request.step (before.begin request).1 result after

theorem ended_join {s : Supervisor} {running : Running} (h : Reflected running) :
    let ran := runScript running.script s running.invocation running.transcript
    let settled := ran.1.settle ran.2.1 ran.2.2.2
    Ended running.invocation.step s settled.2 settled.1 := by
  intro ran settled
  have hstep : ran.2.1.step = running.invocation.step := (continues_runScript ..).step
  have htidy : ran.2.1.store.Tidy := (runScript_reflects running.script s h).tidy
  have hended := ran.1.ended_settle htidy ran.2.2.2
  rw [hstep] at hended
  exact hended.of_eq (runScript_table ..) (runScript_events ..)

/-- Executing a request begins an invocation and ends it. -/
theorem spans_execute (s : Supervisor) (request : StepRequest) (script : Script) :
    Spans request s (s.execute request script).2.result (s.execute request script).1 := by
  have hended := @ended_join (s.begin request).1 ⟨(s.begin request).2.markRunning, script, []⟩
    (begin_reflects s request).markRunning
  rw [step_markRunning_begin] at hended
  exact hended

/-- **However it is cancelled**, an execution begins one invocation and ends it: before the first
call it fails at once, later it fails or it has already come to its end. -/
theorem spans_executeAsync (s : Supervisor) (request : StepRequest) (script : Script)
    (cancellation : Cancellation) :
    Spans request s (s.executeAsync request script cancellation).2.result
      (s.executeAsync request script cancellation).1 := by
  cases cancellation with
  | never => exact s.spans_execute request script
  | beforeStart => exact (s.begin request).1.ended_fail (s.begin request).2 _
  -- the cancellation finds the script after some calls: still running, or at its end
  | afterCalls calls =>
    let start : Running := ⟨(s.begin request).2.markRunning, script, []⟩
    have hevents := advance_events calls (s.begin request).1 start
    have hstep := (makes_advance calls (s.begin request).1 start).2
    obtain ⟨htable, hreflected⟩ := advance_keeps calls (s.begin request).1 start
    rw [step_markRunning_begin] at hstep
    simp only [executeAsync]
    split
    · next ran running hadvance =>
      rw [hadvance] at htable hevents
      exact (ended_recordFailure ..).of_eq htable hevents
    · next ran running hadvance =>
      rw [hadvance] at htable hevents hreflected hstep
      have hended := @ended_join ran running (hreflected (begin_reflects s request).markRunning)
      rw [hstep] at hended
      exact hended.of_eq htable hevents

end Supervisor

/-! ## What a listener knows

A listener keeps the commits only. `Reveal` is the invariant: one commit for each version, names in
the order of first mention, and each cell from the step whose commit lists its name last.
-/

namespace Event

/-- The commit announced last that lists a name. -/
def lastListing? (events : List Event) (name : String) : Option CommitNotice :=
  (commits events).findRev? fun notice => decide (name ∈ notice.outputs)

/-- A listener can tell the version of the table, its names in order, and where each cell comes
from. -/
structure Reveal (events : List Event) (table : Table) : Prop where
  versions : (commits events).map CommitNotice.version = List.range' 1 table.version
  names : table.names = ((commits events).flatMap CommitNotice.outputs).eraseDups
  origins : ∀ name, (table.cell? name).map Cell.origin =
    (lastListing? events name).map CommitNotice.step

theorem reveal_nil : Reveal [] {} := ⟨rfl, rfl, fun _ => rfl⟩

/-- An event that is not a commit tells nothing new about the table. -/
theorem Reveal.of_silent {events more : List Event} {table : Table} (h : Reveal events table)
    (hmore : commits more = []) : Reveal (events ++ more) table := by
  have hsame : commits (events ++ more) = commits events := by
    rw [commits_append, hmore, List.append_nil]
  refine ⟨hsame ▸ h.versions, hsame ▸ h.names, fun name => ?_⟩
  rw [lastListing?, hsame]
  exact h.origins name

/-- A name is listed last by the events behind, if they list it at all. -/
theorem lastListing?_append (events more : List Event) (name : String) :
    lastListing? (events ++ more) name =
      (lastListing? more name).or (lastListing? events name) := by
  simp only [lastListing?, commits_append, List.findRev?_eq_find?_reverse, List.reverse_append,
    List.find?_append]

/-- The overrides of a commit are no commits. -/
theorem commits_overridden (step : StepId) (conflicts : List Conflict) :
    commits (conflicts.map (Conflict.event step)) = [] := by
  induction conflicts with
  | nil => rfl
  | cons conflict rest ih => exact ih

/-- Of what is announced at an end, the one commit is that of the result. -/
theorem commits_announced {step : StepId} {result : Except StepError Publication}
    {announced : List Event} (h : Announces step result announced) :
    (∃ error, result = .error error ∧ commits announced = []) ∨
    (∃ publication, result = .ok publication ∧ publication.step = step ∧
      commits announced = [⟨step, publication.values.keys, publication.tableVersion⟩]) := by
  cases h with
  | committed publication own conflicts reported =>
    refine .inr ⟨publication, rfl, own, ?_⟩
    rw [commits_append, commits_overridden]
    rfl
  | failed error => exact .inl ⟨error, rfl, rfl⟩

/-- **The table is revealed after an end if it was before it.** A failure changes neither the table
nor the commits. A commit adds one version, appends its names where they are new, and is from then
on the last that lists them. -/
theorem Reveal.ended {before after : Supervisor} {step : StepId}
    {result : Except StepError Publication} (h : Reveal before.events before.table)
    (hended : before.Ended step result after) : Reveal after.events after.table := by
  obtain ⟨hsettles, hnames, announced, hevents, hannounced⟩ := hended
  rw [hevents]
  rcases commits_announced hannounced with
    ⟨error, rfl, hcommits⟩ | ⟨publication, rfl, rfl, hcommits⟩
  · -- nothing is published
    have hsame : after.table = before.table := hsettles
    rw [hsame]
    exact h.of_silent hcommits
  · have hlands : publication.Lands before.table after.table := hsettles
    -- the new version is announced, the names are appended, the cells change hands
    refine ⟨?_, ?_, fun name => ?_⟩
    · rw [commits_append, List.map_append, h.versions, hcommits, hlands.version,
        List.range'_concat, List.map_singleton, hlands.stamped, hlands.version, Nat.one_mul,
        Nat.add_comm 1]
    · rw [commits_append, List.flatMap_append, hcommits, hnames _ h.names, List.flatMap_singleton]
      rfl
    · -- the new commit is the last one that lists its names, and lists no other
      have hlisting : lastListing? announced name = if name ∈ publication.values.keys then
          some ⟨publication.step, publication.values.keys, publication.tableVersion⟩ else none := by
        rw [lastListing?, hcommits]
        by_cases hname : name ∈ publication.values.keys <;> simp [hname]
      rw [lastListing?_append, hlisting]
      by_cases hname : name ∈ publication.values.keys
      · obtain ⟨value, hvalue⟩ := OrderedMap.exists_get?_of_mem_keys hname
        obtain ⟨cell, hcell, -, horigin⟩ := hlands.written name value hvalue
        rw [Table.cell?, hcell, if_pos hname, ← horigin]
        rfl
      · rw [if_neg hname, Option.none_or, ← h.origins name, Table.cell?, Table.cell?,
          hlands.kept name hname]

end Event

namespace Turn

/-- Whether the turn has begun an invocation. -/
def begins (turn : Turn) : Bool :=
  match turn.reply with
  | .begun _ | .executed _ => true
  | .written _ | .ended _ | .finished _ | .done | .unknown => false

end Turn

/-- What is announced when a request begins. -/
def Supervisor.beginning (s : Supervisor) (request : StepRequest) : Event :=
  .began request.step (s.begin request).2.inputs.names s.table.version

/-- **A begin announces itself**, with the names of its inputs and the version that it observes. -/
theorem Supervisor.begin_announces (s : Supervisor) (request : StepRequest) :
    (s.begin request).1.events = s.events ++ [s.beginning request] := by
  rw [begin_events, beginning, Inputs.names, (s.begin_invocation request).2, OrderedMap.keys_map]

/-- The request that an action executes from its begin to its end. -/
def Action.executes? : Action → Option StepRequest
  | .execute request _ | .executeAsync request _ _ => some request
  | .begin .. | .set .. | .setOutput .. | .commit _ | .fail .. | .log .. | .resume _
  | .finish _ => none

namespace Session

/-- What a turn announces, where `actions` have come before it and left the supervisor `before`. -/
inductive Emits (actions : List Action) (before : Supervisor) : Turn → List Event → Prop where
  | silent (turn : Turn) (begins : turn.begins = false) (ends : turn.ends = false) :
      Emits actions before turn []
  | began (label : String) (request : StepRequest) (invocation : Invocation) :
      Emits actions before ⟨.begin label request, .begun invocation⟩ [before.beginning request]
  | ended (label : String) (action : Action)
      (ends : action = .commit label ∨ ∃ error, action = .fail label error)
      (request : StepRequest) (start : Nat) (since : OpenSince actions label request start)
      (result : Except StepError Publication) (announced : List Event)
      (h : Announces request.step result announced) :
      Emits actions before ⟨action, .ended result⟩ announced
  | executed (action : Action) (request : StepRequest) (executes : action.executes? = some request)
      (execution : Supervisor.Execution) (announced : List Event)
      (h : Announces request.step execution.result announced) :
      Emits actions before ⟨action, .executed execution⟩ (before.beginning request :: announced)

/-- What a turn announces is in the events, and they still reveal the table if they did before. -/
structure Tells (actions : List Action) (before : Supervisor) (turn : Turn) (after : Supervisor) :
    Prop where
  emits : ∃ announced, after.events = before.events ++ announced ∧
    Emits actions before turn announced
  reveals : Event.Reveal before.events before.table → Event.Reveal after.events after.table

/-- A turn that neither begins nor ends an invocation and leaves table and events tells nothing. -/
theorem tells_of_silent {actions : List Action} {before after : Supervisor} {turn : Turn}
    (begins : turn.begins = false) (ends : turn.ends = false)
    (htable : after.table = before.table) (hevents : after.events = before.events) :
    Tells actions before turn after := by
  refine ⟨⟨[], ?_, .silent turn begins ends⟩, ?_⟩
  · rw [hevents, List.append_nil]
  · rw [htable, hevents]
    exact id

theorem reveal_begin {s : Supervisor} (h : Event.Reveal s.events s.table)
    (request : StepRequest) :
    Event.Reveal (s.begin request).1.events (s.begin request).1.table := by
  rw [s.begin_announces, Supervisor.begin_table]
  exact h.of_silent rfl

theorem tells_of_begin (actions : List Action) (s : Supervisor) (label : String)
    (request : StepRequest) :
    Tells actions s ⟨.begin label request, .begun (s.begin request).2⟩ (s.begin request).1 :=
  ⟨⟨_, s.begin_announces request, .began ..⟩, fun h => reveal_begin h request⟩

/-- A turn that ends an invocation tells how. -/
theorem tells_of_ended {actions : List Action} {before after : Supervisor} {label : String}
    {action : Action} (ends : action = .commit label ∨ ∃ error, action = .fail label error)
    {request : StepRequest} {start : Nat} (since : OpenSince actions label request start)
    {result : Except StepError Publication} (h : before.Ended request.step result after) :
    Tells actions before ⟨action, .ended result⟩ after := by
  refine ⟨?_, fun hreveal => hreveal.ended h⟩
  obtain ⟨announced, hevents, hannounced⟩ := h.told
  exact ⟨announced, hevents, .ended label action ends request start since result _ hannounced⟩

/-- A turn that executes a request tells the begin and then the end. -/
theorem tells_of_executed (actions : List Action) {before after : Supervisor} {action : Action}
    {request : StepRequest} (executes : action.executes? = some request)
    {execution : Supervisor.Execution}
    (h : Supervisor.Spans request before execution.result after) :
    Tells actions before ⟨action, .executed execution⟩ after := by
  refine ⟨?_, fun hreveal => (reveal_begin hreveal request).ended h⟩
  obtain ⟨announced, hevents, hannounced⟩ := h.told
  refine ⟨before.beginning request :: announced, ?_, .executed _ _ executes _ _ hannounced⟩
  rw [hevents, before.begin_announces, List.append_assoc, List.singleton_append]

/-- **What each action tells.** Commit and fail tell of an end if their context is live, and nothing
otherwise. The calls of a script that runs on after its cancellation touch neither table nor
events. -/
theorem act_tells {session : Session} (hempty : session.live = ∅) (actions : List Action)
    (action : Action) :
    let before := session.run actions
    Tells actions before.supervisor ⟨action, (before.act action).2⟩
      (before.act action).1.supervisor := by
  intro before
  cases action with
  | begin label request => exact tells_of_begin ..
  | set label name value | setOutput label name value =>
    simp only [act]
    split <;> exact tells_of_silent rfl rfl rfl rfl
  | commit label =>
    cases hlive : before.live.get? label with
    | none =>
      simp only [act, hlive]
      exact tells_of_silent rfl rfl rfl rfl
    | some invocation =>
      -- the live context was opened by a begin of this run, with the request of its step
      obtain ⟨request, start, hopened⟩ := opened_of_live hempty hlive
      have hended := before.supervisor.ended_commit hopened.reflects.tidy
      rw [show invocation.step = request.step from hopened.step] at hended
      simp only [act, hlive]
      exact tells_of_ended (.inl rfl) hopened.since hended
  | fail label error =>
    cases hlive : before.live.get? label with
    | none =>
      simp only [act, hlive]
      exact tells_of_silent rfl rfl rfl rfl
    | some invocation =>
      obtain ⟨request, start, hopened⟩ := opened_of_live hempty hlive
      have hended := before.supervisor.ended_fail invocation error
      rw [show invocation.step = request.step from hopened.step] at hended
      simp only [act, hlive]
      exact tells_of_ended (.inr ⟨error, rfl⟩) hopened.since hended
  | log step level message =>
    obtain ⟨htable, -, hevents⟩ :=
      (@Supervisor.Touches.log step before.supervisor level message).keeps
    exact tells_of_silent rfl rfl htable hevents
  | execute request script =>
    exact tells_of_executed _ rfl (before.supervisor.spans_execute request script)
  | executeAsync request script cancellation =>
    exact tells_of_executed _ rfl
      (before.supervisor.spans_executeAsync request script cancellation)
  | resume index =>
    simp only [act]
    split
    · exact tells_of_silent rfl rfl rfl rfl
    · split
      · exact tells_of_silent rfl rfl rfl rfl
      · -- one call more of a script that was cancelled
        next hnext =>
        obtain ⟨htable, -, hevents⟩ := (Supervisor.touches_next? hnext).1.keeps
        exact tells_of_silent rfl rfl htable hevents
  | finish index =>
    simp only [act]
    split
    · exact tells_of_silent rfl rfl rfl rfl
    · exact tells_of_silent rfl rfl (Supervisor.finishDetached_table ..)
        (Supervisor.runScript_events ..)

/-! ## Runs

Both results are inductions over the actions, from the last one. What one action tells (`act_tells`)
carries the invariant and the count of invocations in flight over it.
-/

/-- In a run the events reveal the table, if they did at its start. -/
theorem reveal_run {session : Session} (hempty : session.live = ∅)
    (h : Event.Reveal session.supervisor.events session.supervisor.table)
    (actions : List Action) :
    Event.Reveal (session.run actions).supervisor.events
      (session.run actions).supervisor.table := by
  induction actions using List.reverseRecOn with
  | nil => exact h
  | append_singleton actions action ih =>
    rw [run_concat]
    exact (act_tells hempty actions action).reveals ih

/-- An end is announced once, and it is no begin. -/
theorem countP_announced {step : StepId} {result : Except StepError Publication}
    {announced : List Event} (h : Announces step result announced) :
    announced.countP Event.isBegan = 0 ∧ announced.countP Event.isTerminal = 1 := by
  cases h with
  | committed publication own conflicts reported =>
    -- an override is neither a begin nor an end
    have hnone : ∀ event ∈ conflicts.map (Conflict.event step),
        ¬ event.isBegan = true ∧ ¬ event.isTerminal = true := by
      intro event hevent
      obtain ⟨conflict, -, rfl⟩ := List.mem_map.1 hevent
      exact ⟨Bool.false_ne_true, Bool.false_ne_true⟩
    rw [List.countP_append, List.countP_append,
      List.countP_eq_zero.2 fun event hevent => (hnone event hevent).1,
      List.countP_eq_zero.2 fun event hevent => (hnone event hevent).2]
    exact ⟨rfl, rfl⟩
  | failed error => exact ⟨rfl, rfl⟩

/-- What a turn announces goes along with what it does to the invocations in flight. -/
theorem ncard_inFlight_concat {session : Session} {actions : List Action} {action : Action}
    {announced : List Event}
    (h : Emits actions (session.run actions).supervisor
      ⟨action, ((session.run actions).act action).2⟩ announced) :
    (session.inFlight (actions ++ [action])).ncard + announced.countP Event.isTerminal =
      (session.inFlight actions).ncard + announced.countP Event.isBegan := by
  have hfinite := session.finite_inFlight actions
  generalize hreply : ((session.run actions).act action).2 = reply at h
  cases h with
  | silent _ begins ends =>
    -- nothing is announced, and the invocations in flight stay
    rw [inFlight_concat_of_not_ended]
    · rfl
    · rintro label request rfl
      rw [← hreply] at begins
      cases begins
    · rintro result hended
      rw [← hreply, hended] at ends
      cases ends
  | began label request invocation =>
    -- one begin is announced, and one invocation is new in flight
    have hnew : actions.length ∉ session.inFlight actions :=
      fun hmem => Nat.lt_irrefl _ (lt_length_of_mem_inFlight hmem)
    rw [inFlight_concat_begin, Set.ncard_insert_of_notMem hnew hfinite]
    rfl
  | ended label action ends request start since result announced hannounced =>
    obtain ⟨hbegan, hterminal⟩ := countP_announced hannounced
    -- one end is announced, and its invocation was in flight
    obtain ⟨hmem, hrest⟩ := inFlight_concat_ended ends hreply since
    rw [hrest, hbegan, hterminal, Set.ncard_sdiff_singleton_add_one hmem hfinite, Nat.add_zero]
  | executed action request executes execution announced hannounced =>
    obtain ⟨hbegan, hterminal⟩ := countP_announced hannounced
    rw [inFlight_concat_of_not_ended]
    · -- a begin and an end are announced, and nothing stays in flight
      rw [List.countP_cons, List.countP_cons, hbegan, hterminal]
      rfl
    · rintro label request rfl
      cases executes
    · rintro result hended
      rw [hreply] at hended
      cases hended

/-- **In a run as many begins as ends are announced, but for the invocations in flight.** -/
theorem ncard_inFlight {session : Session} (hempty : session.live = ∅)
    (hevents : session.supervisor.events = []) (actions : List Action) :
    (session.run actions).supervisor.events.countP Event.isBegan =
      (session.run actions).supervisor.events.countP Event.isTerminal +
        (session.inFlight actions).ncard := by
  induction actions using List.reverseRecOn with
  | nil =>
    -- at the start nothing has begun, and nothing has been announced
    have hnone : session.inFlight [] = ∅ :=
      Set.eq_empty_of_forall_notMem fun _ hmem => Nat.not_lt_zero _ (lt_length_of_mem_inFlight hmem)
    rw [run, List.foldl_nil, hevents, hnone, Set.ncard_empty]
    rfl
  | append_singleton actions action ih =>
    obtain ⟨announced, hannounced, hemits⟩ := (act_tells hempty actions action).emits
    -- what the turn announces is counted by kind, and changes the set accordingly
    have hcard := ncard_inFlight_concat hemits
    rw [run_concat, hannounced, List.countP_append, List.countP_append]
    omega

/-- **The events determine the table.** In every run, whatever was done in it and in whichever
order:

* the commits are announced with the versions `1, 2, 3, …`, one for each version of the table;
* the names that they list are the published names, in the order of first mention, and the commit
  that lists a name last is that of the step from which the published cell comes;
* a turn announces what its reply tells and nothing else (`Emits`): a begin announces itself; a
  successful commit one override for each ambiguity that it returns, in that order, and right behind
  them the commit; a failing end one failure; an execution its begin and its end; a write, a log
  call and everything else nothing;
* as many begins as ends are announced, but for the invocations that are in flight. -/
theorem events_determine_table (config : Config) (outlet : LogOutlet) (actions : List Action) :
    let session := new config outlet
    let ran := (session.run actions).supervisor
    let commits := Event.commits ran.events
    commits.map CommitNotice.version = List.range' 1 ran.table.version ∧
    ran.table.names = (commits.flatMap CommitNotice.outputs).eraseDups ∧
    (∀ name, (ran.table.cell? name).map Cell.origin =
      (commits.findRev? fun notice => decide (name ∈ notice.outputs)).map CommitNotice.step) ∧
    (∀ i action, actions[i]? = some action →
      let before := session.run (actions.take i)
      ∃ announced, (session.run (actions.take (i + 1))).supervisor.events =
          before.supervisor.events ++ announced ∧
        Emits (actions.take i) before.supervisor ⟨action, (before.act action).2⟩ announced) ∧
    ran.events.countP Event.isBegan =
      ran.events.countP Event.isTerminal + (session.inFlight actions).ncard := by
  intro session ran commits
  -- the commits announced so far reveal the table, by induction on the run
  obtain ⟨hversions, hnames, horigins⟩ := @reveal_run session rfl Event.reveal_nil actions
  refine ⟨hversions, hnames, horigins, ?_, ncard_inFlight rfl rfl actions⟩
  intro i action haction before
  -- the last action of a prefix is the one that announces
  rw [session.run_take_succ haction]
  exact (act_tells rfl (actions.take i) action).emits

end Session

end StepRelay
