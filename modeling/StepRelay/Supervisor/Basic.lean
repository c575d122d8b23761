import StepRelay.Config.Basic
import StepRelay.Log.Ring
import StepRelay.Step.Invocation
import StepRelay.Supervisor.Archive
import StepRelay.Table
import StepRelay.Text.Quoted

/-!
# The supervisor of a run

A supervisor owns the table, the clock, the script logs and the archive of one run. Invocations are
handed out by `begin` and come back through `commit` or `fail`; only a commit changes the table.
What the supervisor tells others (events, trace lines, log entries for an attached listener) is kept
in the order in which it was told.
-/

namespace StepRelay

/-- Where script logs go besides their buffer. -/
inductive LogOutlet where
  | trace
  | listener
  deriving DecidableEq

/-- The state of one run. -/
structure Supervisor where
  config : Config
  outlet : LogOutlet := .trace
  table : Table := {}
  clock : Clock := {}
  logs : StepLogs
  archive : Archive
  /-- The events announced so far. -/
  events : List Event := []
  /-- The lines traced so far. -/
  trace : List TraceLine := []
  /-- The log entries handed to the listener so far. -/
  forwarded : List LogEntry := []

/-- What the scheduler supplies to start a step. -/
structure StepRequest where
  step : StepId
  /-- Names to take from the table. -/
  declared : List String := []
  /-- Inputs of the scheduler's own. -/
  constants : OrderedMap Value := ∅

/-- What a commit has published. -/
structure Publication where
  step : StepId
  tableVersion : LogicalTime
  /-- In the order of their first write. -/
  values : OrderedMap Value
  /-- One ambiguity for each output that replaced one that the step had not observed. -/
  ambiguities : List StepError

namespace Supervisor

/-- A supervisor with an empty table. -/
def new (config : Config) (outlet : LogOutlet := .trace) : Supervisor where
  config
  outlet
  logs := { capacity := config.scriptLogCapacity }
  archive := { capacity := config.archiveCapacity }

instance : Inhabited Supervisor := ⟨new {}⟩

/-! ### Telling others

Events, trace lines and log entries are appended to what has been told before. Nothing is ever taken
back.
-/

/-- Announces an event. -/
def emit (s : Supervisor) (event : Event) : Supervisor := { s with events := s.events ++ [event] }

/-- A line about the supervisor's own work. -/
def traceLine (s : Supervisor) (level : LogLevel) (message : String)
    (fields : List (String × String)) : Supervisor :=
  let line : TraceLine := { level, target := "stepwire_engine::supervisor", message, fields }
  { s with trace := s.trace ++ [line] }

/-- Takes a log call of a step: into the step's buffer, and to the trace or the listener. -/
def log (s : Supervisor) (step : StepId) (level : LogLevel) (message : String) : Supervisor :=
  let entry : LogEntry := { step, level, message }
  let s := { s with logs := s.logs.record entry }
  match s.outlet with
  | .trace =>
    let line : TraceLine :=
      { level, target := "stepwire::script", message, fields := [("step_id", step.id)] }
    { s with trace := s.trace ++ [line] }
  | .listener => { s with forwarded := s.forwarded ++ [entry] }

/-! ### Questions

What can be asked of a supervisor without changing it.
-/

/-- The log entries of a step that are still buffered. -/
def scriptLogs (s : Supervisor) (step : StepId) : List LogEntry := s.logs.entries step

/-- The newest record of a step. -/
def record? (s : Supervisor) (step : StepId) : Option Record := s.archive.latest? step

/-! ### Beginning

A begin reads the table once, so all inputs that are found there are of one version, which the
invocation remembers for its commit.
-/

/-- Lays constants over resolved cells. A name that is resolved keeps its place, and its cell too
unless `override` is set; every constant that is laid takes one tick. -/
def layConstants (override : Bool) (step : StepId) :
    OrderedMap Cell → Clock → Entries Value → OrderedMap Cell × Clock
  | cells, clock, [] => (cells, clock)
  | cells, clock, (name, value) :: rest =>
    if cells.contains name ∧ ¬ override then layConstants override step cells clock rest
    else
      let cell : Cell := ⟨name, value, step, .input, clock.tick.now⟩
      layConstants override step (cells.insert name cell) clock.tick rest

/-- Resolves the inputs of a step and hands out a fresh invocation. A declared name that is nowhere
is left out, with a line in the trace. -/
def begin (s : Supervisor) (request : StepRequest) : Supervisor × Invocation :=
  let resolution := s.table.resolve request.declared
  let (cells, clock) := layConstants s.config.constantsOverridePublished request.step
    (Cell.byName resolution.cells) s.clock request.constants.entries
  let s := { s with clock }
  -- a constant makes up for a name that is not published
  let missing := request.declared.filter fun name => !cells.contains name
  let s := missing.foldl (fun s name =>
    s.traceLine .debug "declared input has not been published"
      [("step_id", request.step.id), ("name", name)]) s
  let s := s.traceLine .debug "step inputs resolved"
    [("step_id", request.step.id), ("inputs", Text.quotedList cells.keys),
      ("version", toString resolution.version)]
  let s := s.emit (.began request.step cells.keys resolution.version)
  (s, .start request.step cells.values resolution.version)

/-! ### Ending

Every end announces itself and archives one record, which may push others out. Only a commit touches
the table, and only if its invocation has no fatal error.
-/

/-- Archives a record. The logs of a step go with its last record. -/
def archiveRecord (s : Supervisor) (record : Record) : Supervisor :=
  let (archive, evicted) := s.archive.push record
  evicted.foldl (fun s step =>
    let s := s.traceLine .debug "evicted archived step and its script logs" [("step_id", step.id)]
    { s with logs := s.logs.clear step }) { s with archive }

/-- Announces and archives a failure. -/
def recordFailure (s : Supervisor) (step : StepId) (inputs state outputs : OrderedMap Value)
    (error : StepError) : Supervisor :=
  let s := s.traceLine .warn "step failed" [("step_id", step.id), ("error", error.message)]
  let s := s.emit (.failed step error.message)
  s.archiveRecord { step, phase := .failed, inputs, state, outputs, failure := some error }

/-- Ends an invocation without publishing anything. -/
def fail (s : Supervisor) (invocation : Invocation) (error : StepError) : Supervisor :=
  s.recordFailure invocation.step invocation.inputs.values invocation.state invocation.outputs error

/-- Announces that an output replaced one that its step had not observed. -/
def announceConflict (step : StepId) (version : LogicalTime) (s : Supervisor)
    (conflict : Conflict) : Supervisor :=
  let s := s.traceLine .warn "published output overrides a concurrent publish"
    [("step_id", step.id), ("name", conflict.name), ("previous_step", conflict.previousStep.id),
      ("version", toString version)]
  s.emit (.overridden conflict.name step conflict.previousStep)

/-- Publishes the outputs of an invocation and ends it. A refused output fails it instead. -/
def commit (s : Supervisor) (invocation : Invocation) :
    Supervisor × Except StepError Publication :=
  match invocation.fatal with
  | some error => (s.fail invocation error, .error error)
  | none =>
    let step := invocation.step
    let values := invocation.outputs
    let (table, report) :=
      s.table.publish step invocation.store.outputs.values invocation.observed
    let s := { s with table }
    -- the table has changed already: from here on the commit cannot fail
    let s := report.conflicts.foldl (announceConflict step report.version) s
    let s := s.traceLine .info "step committed"
      [("step_id", step.id), ("outputs", toString values.size),
        ("version", toString report.version)]
    let s := s.emit (.committed step values.keys report.version)
    let s := s.archiveRecord {
      step
      phase := .committed
      inputs := invocation.inputs.values
      state := invocation.state
      outputs := values
      failure := none }
    (s, .ok {
      step
      tableVersion := report.version
      values
      ambiguities := report.conflicts.map fun conflict =>
        .ambiguity conflict.name step conflict.previousStep })

end Supervisor

end StepRelay
