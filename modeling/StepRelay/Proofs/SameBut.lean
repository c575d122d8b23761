import StepRelay.Proofs.Simulation
import StepRelay.Proofs.Timeless

/-!
# States that differ in times and in one log

`Supervisor.SameBut step` relates two supervisors that differ at most in the times of their clocks,
where the first clock may be ahead, and in what `step` has logged. Whatever is done to both keeps
them so, and is answered alike up to times: one lemma for each operation, which makes them a
`Simulation` and so covers scripts and executions, up to `Session.SameBut.act` for an action. What
an action writes to the log of `step` alone may be done to one of them only (`log_left`).
-/

namespace StepRelay

@[simp] theorem Invocation.timeless_state (invocation : Invocation) :
    invocation.timeless.state = invocation.state :=
  map_value_timeless invocation.store.state

@[simp] theorem Invocation.timeless_outputs (invocation : Invocation) :
    invocation.timeless.outputs = invocation.outputs :=
  map_value_timeless invocation.store.outputs

/-- Invocations that are the same up to times show the same. -/
theorem Invocation.shown_of_timeless_eq {ours theirs : Invocation}
    (h : ours.timeless = theirs.timeless) :
    ours.step = theirs.step ∧ ours.inputs = theirs.inputs ∧ ours.observed = theirs.observed ∧
      ours.fatal = theirs.fatal ∧ ours.state = theirs.state ∧ ours.outputs = theirs.outputs := by
  refine ⟨(congrArg Invocation.step h :), (congrArg Invocation.inputs h :),
    (congrArg Invocation.observed h :), (congrArg Invocation.fatal h :), ?_, ?_⟩
  · rw [← ours.timeless_state, h, theirs.timeless_state]
  · rw [← ours.timeless_outputs, h, theirs.timeless_outputs]

/-- A line that a script of a step has logged to the trace. -/
def TraceLine.isScriptLog (step : StepId) (line : TraceLine) : Bool :=
  line.target == "stepwire::script" && line.fields == [("step_id", step.id)]

namespace Supervisor

/-- All that a supervisor has, but for times and for what `step` has logged. -/
structure SameBut (step : StepId) (a b : Supervisor) : Prop where
  config : a.config = b.config
  outlet : a.outlet = b.outlet
  table : a.table.timeless = b.table.timeless
  ahead : b.clock.now ≤ a.clock.now
  archive : a.archive = b.archive
  events : a.events = b.events
  capacity : a.logs.capacity = b.logs.capacity
  logs : ∀ other, other ≠ step → a.logs.rings.get? other.id = b.logs.rings.get? other.id
  trace : a.trace.filter (!·.isScriptLog step) = b.trace.filter (!·.isScriptLog step)
  forwarded : a.forwarded.filter (·.step != step) = b.forwarded.filter (·.step != step)

/-- A supervisor is the same as itself. -/
theorem SameBut.refl (step : StepId) (s : Supervisor) : SameBut step s s := by
  constructor <;> first | rfl | exact Nat.le_refl _ | exact fun _ _ => rfl

/-- What keeps two supervisors the same does so when it is done for each item of a list. -/
theorem SameBut.foldl {α : Type} {step : StepId} {round : Supervisor → α → Supervisor}
    (hround : ∀ {a b}, SameBut step a b → ∀ item, SameBut step (round a item) (round b item))
    (items : List α) {a b : Supervisor} (h : SameBut step a b) :
    SameBut step (items.foldl round a) (items.foldl round b) := by
  induction items generalizing a b with
  | nil => exact h
  | cons item rest ih => exact ih (hround h item)

section SameBut

variable {step : StepId} {a b : Supervisor} (h : SameBut step a b)

include h

/-! ## Telling others

One lemma for each thing that an operation may do to a supervisor; the operations below are put
together of them.
-/

theorem SameBut.emit (event : Event) : SameBut step (a.emit event) (b.emit event) :=
  { h with events := congrArg (· ++ [event]) h.events }

/-- A line is traced by both, and it is of the step's script in both or in neither. -/
theorem SameBut.traceLine (level : LogLevel) (message : String) (fields : List (String × String)) :
    SameBut step (a.traceLine level message fields) (b.traceLine level message fields) := by
  refine { h with trace := ?_ }
  simp only [Supervisor.traceLine, List.filter_append, h.trace]

/-- The clocks may be set, as long as the first is not behind. -/
theorem SameBut.withClock {clock other : Clock} (hahead : other.now ≤ clock.now) :
    SameBut step { a with clock } { b with clock := other } :=
  { h with ahead := hahead }

/-- Both tables may be replaced by tables that are the same up to times. -/
theorem SameBut.withTable {table other : Table} (htable : table.timeless = other.timeless) :
    SameBut step { a with table } { b with table := other } :=
  { h with table := htable }

theorem SameBut.withLogs {logs others : StepLogs} (hcapacity : logs.capacity = others.capacity)
    (hlogs : ∀ other, other ≠ step → logs.rings.get? other.id = others.rings.get? other.id) :
    SameBut step { a with logs } { b with logs := others } :=
  { h with capacity := hcapacity, logs := hlogs }

/-- An entry goes to the ring of its own step. -/
theorem SameBut.log (who : StepId) (level : LogLevel) (message : String) :
    SameBut step (a.log who level message) (b.log who level message) := by
  have hlogs : ∀ other, other ≠ step →
      (a.logs.record ⟨who, level, message⟩).rings.get? other.id =
        (b.logs.record ⟨who, level, message⟩).rings.get? other.id := by
    intro other hother
    simp only [StepLogs.record, OrderedMap.get?_insert]
    split
    · -- the ring of the logging step gains the entry in both
      next hwho => rw [hwho, h.logs other hother, h.capacity]
    · exact h.logs other hother
  have hrecorded : SameBut step { a with logs := a.logs.record ⟨who, level, message⟩ }
      { b with logs := b.logs.record ⟨who, level, message⟩ } := h.withLogs h.capacity hlogs
  simp only [Supervisor.log, h.outlet]
  cases b.outlet with
  | trace =>
    refine { hrecorded with outlet := rfl, trace := ?_ }
    simp only [List.filter_append, h.trace]
  | listener =>
    refine { hrecorded with outlet := rfl, forwarded := ?_ }
    simp only [List.filter_append, h.forwarded]

/-- The entries of the step itself are what the two may differ in. -/
theorem SameBut.log_left (level : LogLevel) (message : String) :
    SameBut step (a.log step level message) b := by
  have hlogs : ∀ other, other ≠ step →
      (a.logs.record ⟨step, level, message⟩).rings.get? other.id = b.logs.rings.get? other.id := by
    intro other hother
    -- the entry goes to the ring of the step itself, and no other one is compared
    have hid : step.id ≠ other.id := by
      intro hid
      exact hother (congrArg StepId.mk hid).symm
    rw [StepLogs.record, OrderedMap.get?_insert, if_neg hid, h.logs other hother]
  have hrecorded : SameBut step { a with logs := a.logs.record ⟨step, level, message⟩ } b :=
    { h with capacity := h.capacity, logs := hlogs }
  unfold Supervisor.log
  dsimp only
  split
  · refine { hrecorded with trace := ?_ }
    rw [← h.trace, List.filter_append]
    simp [TraceLine.isScriptLog]
  · refine { hrecorded with forwarded := ?_ }
    rw [← h.forwarded, List.filter_append]
    simp

/-! ## Beginning

Both begin with the same inputs, up to times. Each constant takes a tick on either side.
-/

/-- **An invocation begins in both**, with inputs that are the same up to times. The constants take
as many ticks of both clocks. -/
theorem SameBut.begin (request : StepRequest) :
    SameBut step (a.begin request).1 (b.begin request).1 ∧
      (a.begin request).2.timeless = (b.begin request).2.timeless := by
  -- what is resolved is the same up to times, and so are the cells by name
  have hfound : (a.table.resolve request.declared).cells.map Cell.timeless =
      (b.table.resolve request.declared).cells.map Cell.timeless := by
    rw [← Table.resolve_timeless, h.table, Table.resolve_timeless]
  have hversion : (a.table.resolve request.declared).version =
      (b.table.resolve request.declared).version := (congrArg Table.version h.table :)
  have hnamed : (Cell.byName (a.table.resolve request.declared).cells).map Cell.timeless =
      (Cell.byName (b.table.resolve request.declared).cells).map Cell.timeless := by
    rw [← byName_timeless, hfound, byName_timeless]
  have hticks := layConstants_ticks b.config.constantsOverridePublished request.step hnamed h.ahead
    request.constants.entries
  have hlaid := layConstants_timeless b.config.constantsOverridePublished request.step
    (Cell.byName (a.table.resolve request.declared).cells) a.clock b.clock request.constants.entries
  rw [hnamed, layConstants_timeless _ _ _ b.clock] at hlaid
  simp only [Supervisor.begin, h.config]
  generalize layConstants _ _ (Cell.byName (a.table.resolve _).cells) _ _ = ours at *
  generalize layConstants _ _ (Cell.byName (b.table.resolve _).cells) _ _ = theirs at *
  -- the lines that are traced tell the names only
  have hkeys : ours.1.keys = theirs.1.keys := by
    rw [← OrderedMap.keys_map Cell.timeless ours.1, ← hlaid, OrderedMap.keys_map]
  have hcontains : (fun name => !ours.1.contains name) = fun name => !theirs.1.contains name := by
    funext name
    rw [← OrderedMap.contains_map Cell.timeless ours.1, ← hlaid, OrderedMap.contains_map]
  rw [hkeys, hcontains, hversion]
  constructor
  · have hclock : SameBut step { a with config := b.config, clock := ours.2 }
        { b with clock := theirs.2 } := { h with config := rfl, ahead := hticks }
    refine ((SameBut.foldl ?_ _ hclock).traceLine ..).emit _
    intro a b h name
    exact h.traceLine ..
  · rw [← Invocation.start_timeless, ← Invocation.start_timeless, ← OrderedMap.values_map, ← hlaid,
      OrderedMap.values_map]

/-! ## Ending

Archiving a record clears log buffers of evicted steps, the same ones on both sides.
-/

theorem SameBut.clear (who : StepId) :
    SameBut step { a with logs := a.logs.clear who } { b with logs := b.logs.clear who } := by
  refine h.withLogs h.capacity ?_
  intro other hother
  simp only [StepLogs.clear, OrderedMap.get?_erase, h.logs other hother]

/-- A record is archived by both, and evicts the same records, since the archives are equal. -/
theorem SameBut.archiveRecord (record : Record) :
    SameBut step (a.archiveRecord record) (b.archiveRecord record) := by
  simp only [Supervisor.archiveRecord, h.archive]
  refine SameBut.foldl ?_ _ { h with archive := rfl }
  intro a b h who
  exact (h.traceLine ..).clear who

/-- A failure is announced and archived by both. -/
theorem SameBut.recordFailure (who : StepId) (inputs state outputs : OrderedMap Value)
    (error : StepError) :
    SameBut step (a.recordFailure who inputs state outputs error)
      (b.recordFailure who inputs state outputs error) :=
  ((h.traceLine ..).emit _).archiveRecord _

end SameBut

section Alike

/-! ## Ending an invocation

A commit publishes cells which are the same up to times, and compares origins and versions, which
are the same.
-/

variable {step : StepId} {a b : Supervisor} (h : SameBut step a b) {ours theirs : Invocation}
  (hsame : ours.timeless = theirs.timeless)

include h hsame

/-- An invocation fails in both, and shows the same. -/
theorem SameBut.fail (error : StepError) :
    SameBut step (a.fail ours error) (b.fail theirs error) := by
  obtain ⟨hstep, hinputs, -, -, hstate, houtputs⟩ := Invocation.shown_of_timeless_eq hsame
  unfold Supervisor.fail
  rw [hstep, hinputs, hstate, houtputs]
  exact h.recordFailure ..

/-- **A commit publishes in both what is the same up to times**, and is answered equally: the answer
has no times. -/
theorem SameBut.commit : SameBut step (a.commit ours).1 (b.commit theirs).1 ∧
    (a.commit ours).2 = (b.commit theirs).2 := by
  obtain ⟨hstep, hinputs, hobserved, hfatal, hstate, houtputs⟩ :=
    Invocation.shown_of_timeless_eq hsame
  cases herror : theirs.fatal with
  | some error =>
    rw [commit_of_fatal herror, commit_of_fatal (hfatal.trans herror)]
    exact ⟨h.fail hsame error, rfl⟩
  | none =>
    -- the outputs that land are the same up to times
    have hcells : ours.store.outputs.values.map Cell.timeless =
        theirs.store.outputs.values.map Cell.timeless := by
      rw [← OrderedMap.values_map, ← OrderedMap.values_map]
      exact congrArg (fun invocation => invocation.store.outputs.values) hsame
    have hours := a.table.publish_timeless theirs.step ours.store.outputs.values theirs.observed
    have htheirs := b.table.publish_timeless theirs.step theirs.store.outputs.values theirs.observed
    rw [h.table, hcells] at hours
    have htable := hours.1.symm.trans htheirs.1
    have hreport := hours.2.symm.trans htheirs.2
    simp only [Supervisor.commit, hfatal, herror, hstep, hinputs, hobserved, hstate, houtputs,
      hreport]
    refine ⟨?_, trivial⟩
    refine SameBut.archiveRecord ?_ _
    refine ((SameBut.foldl ?_ _ (h.withTable htable)).traceLine ..).emit _
    intro a b h conflict
    exact (h.traceLine ..).emit _

/-! ## Calls of a script

A write takes a tick on both sides or on neither, a log line goes to the ring of its own step, and
what is read is the same on both sides.
-/

/-- A write takes a tick of both clocks or of neither. -/
theorem SameBut.write {write : Invocation → Clock → Invocation.Written}
    (hwrite : Invocation.Uniform write) :
    SameBut step { a with clock := (write ours a.clock).clock }
        { b with clock := (write theirs b.clock).clock } ∧
      (write ours a.clock).invocation.timeless = (write theirs b.clock).invocation.timeless ∧
      (write ours a.clock).outcome = (write theirs b.clock).outcome := by
  have houtcome : (write ours a.clock).outcome = (write theirs b.clock).outcome := by
    rw [← hwrite.outcome ours a.clock b.clock, hsame, hwrite.outcome]
  have hinvocation : (write ours a.clock).invocation.timeless =
      (write theirs b.clock).invocation.timeless := by
    rw [← hwrite.invocation ours a.clock b.clock, hsame, hwrite.invocation]
  refine ⟨h.withClock ?_, hinvocation, houtcome⟩
  rw [hwrite.clock, hwrite.clock, houtcome]
  -- accepted: a tick of both
  cases (write theirs b.clock).outcome with
  | ok _ => exact Nat.succ_le_succ h.ahead
  | error _ => exact h.ahead

/-- **A call of a script** is answered by both alike. -/
theorem SameBut.perform (call : Call) :
    SameBut step (a.perform ours call).1 (b.perform theirs call).1 ∧
      (a.perform ours call).2.1.timeless = (b.perform theirs call).2.1.timeless ∧
      (a.perform ours call).2.2 = (b.perform theirs call).2.2 := by
  obtain ⟨hstep, hinputs, -, -, hstate, -⟩ := Invocation.shown_of_timeless_eq hsame
  cases call with
  | inputs => exact ⟨h, hsame, hinputs⟩
  | set name value => exact h.write hsame (Invocation.uniform_set name value)
  | setOutput name value => exact h.write hsame (Invocation.uniform_setOutput name value)
  | state => exact ⟨h, hsame, hstate⟩
  | log level message =>
    simp only [Supervisor.perform, hstep]
    exact ⟨h.log .., hsame, rfl⟩
  | pause => exact ⟨h, hsame, rfl⟩

end Alike

end Supervisor

/-! ## Running scripts

With all single operations kept, the relation is a simulation, and scripts, executions and sessions
come for free.
-/

/-- What is done to two such supervisors by single operations is done by scripts as well. -/
def Simulation.sameBut (step : StepId) : Simulation where
  states := Supervisor.SameBut step
  invocations x y := x.timeless = y.timeless
  step hxy := (Invocation.shown_of_timeless_eq hxy).1
  inputs hxy := (Invocation.shown_of_timeless_eq hxy).2.1
  markRunning hxy := by
    rw [← Invocation.timeless_markRunning, hxy, Invocation.timeless_markRunning]
  begin h request := h.begin request
  perform h hxy call := h.perform hxy call
  fail h hxy error := h.fail hxy error
  commit h hxy := h.commit hxy
  cancel h inputs := h.recordFailure ..
  log h who level message := h.log who level message

/-- Scripts are related if they are the same up to times. -/
theorem runnings_sameBut_iff (step : StepId) (x y : Running) :
    (Simulation.sameBut step).Runnings x y ↔ x.timeless = y.timeless := by
  rw [Running.timeless, Running.timeless, Running.mk.injEq]
  exact ⟨fun h => ⟨h.invocation, h.script, h.transcript⟩, fun h => ⟨h.1, h.2.1, h.2.2⟩⟩

/-- Related executions are the same up to times. -/
theorem timeless_eq_of_executions {step : StepId} {x y : Supervisor.Execution}
    (h : (Simulation.sameBut step).Executions x y) : x.timeless = y.timeless := by
  have hdetached : x.detached.map Running.timeless = y.detached.map Running.timeless := by
    rcases rel_cases h.detached with ⟨hx, hy⟩ | ⟨ours, theirs, hx, hy, hsame⟩
    · rw [hx, hy]
    · rw [hx, hy, Option.map_some, Option.map_some, (runnings_sameBut_iff ..).1 hsame]
  rw [Supervisor.Execution.timeless, Supervisor.Execution.timeless, h.result, h.transcript,
    hdetached]

/-! ## Actions

`Simulation.sameBut` has the invocations and the scripts of a session related one by one. Taken
together they are equal up to times, which is how sessions are compared elsewhere.
-/

namespace Session

/-- The supervisors differ at most in times and in one log, and the sessions beside them in
times. -/
structure SameBut (step : StepId) (a b : Session) : Prop where
  supervisor : a.supervisor.SameBut step b.supervisor
  live : a.live.map Invocation.timeless = b.live.map Invocation.timeless
  detached : a.detached.map Running.timeless = b.detached.map Running.timeless

theorem SameBut.refl (step : StepId) (session : Session) : SameBut step session session :=
  ⟨.refl step session.supervisor, rfl, rfl⟩

/-- A function makes two maps the same exactly if it does so with their items, key by key. -/
theorem rel_entries_iff {α β : Type} (f : α → β) (ours theirs : OrderedMap α) :
    Entries.Rel (fun x y => f x = f y) ours.entries theirs.entries ↔ ours.map f = theirs.map f := by
  rw [OrderedMap.ext_iff]
  show _ ↔ ours.entries.mapItems f = theirs.entries.mapItems f
  rw [Entries.mapItems, Entries.mapItems, ← List.forall₂_eq_eq_eq, List.forall₂_map_left_iff,
    List.forall₂_map_right_iff]
  simp only [Entries.Rel, Prod.mk.injEq]

/-- The sessions that the simulation relates are the same but for times and one log. -/
theorem sessions_sameBut_iff (step : StepId) (a b : Session) :
    (Simulation.sameBut step).Sessions a b ↔ SameBut step a b := by
  have hrunnings : (Simulation.sameBut step).Runnings = fun x y => x.timeless = y.timeless := by
    funext x y
    exact propext (runnings_sameBut_iff step x y)
  -- related one by one, or equal as lists once the times are forgotten
  have hdetached : List.Forall₂ (Simulation.sameBut step).Runnings a.detached b.detached ↔
      a.detached.map Running.timeless = b.detached.map Running.timeless := by
    rw [← List.forall₂_eq_eq_eq, List.forall₂_map_left_iff, List.forall₂_map_right_iff, hrunnings]
  constructor
  · intro h
    exact ⟨h.supervisor, (rel_entries_iff ..).1 h.live, hdetached.1 h.detached⟩
  · intro h
    exact ⟨h.supervisor, (rel_entries_iff ..).2 h.live, hdetached.2 h.detached⟩

/-- Replies that show the same are the same up to times. -/
theorem timeless_eq_of_replies {step : StepId} {x y : Reply}
    (h : (Simulation.sameBut step).Replies x y) : x.timeless = y.timeless := by
  cases h with
  | begun h => exact congrArg Reply.begun h
  | executed h => exact congrArg Reply.executed (timeless_eq_of_executions h)
  | same => rfl

/-- **Whatever is done to two alike sessions keeps them alike** and is answered alike. -/
theorem SameBut.act {step : StepId} {a b : Session} (h : SameBut step a b) (action : Action) :
    SameBut step (a.act action).1 (b.act action).1 ∧
      (a.act action).2.timeless = (b.act action).2.timeless := by
  obtain ⟨hsessions, hreplies⟩ := ((sessions_sameBut_iff ..).2 h).act action
  exact ⟨(sessions_sameBut_iff ..).1 hsessions, timeless_eq_of_replies hreplies⟩

end Session

end StepRelay
