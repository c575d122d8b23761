import StepRelay.Supervisor.Execution

/-!
# Runs with many invocations

A session is a supervisor together with the invocations that hosts hold open and the scripts that
were left to themselves by a cancellation. Its actions may come in any order, so a list of actions
is an arbitrary interleaving of any number of invocations.

An action is a whole call. A supervisor that is shared between threads lets go of the table and of
the archive within a commit or a failure, before it emits the events and clears the logs, so that
another call can come between these phases. Such interleavings within a call are no lists of
actions. Only the scripts of an execution take turns by single calls: that is what `Action.resume`
is for.
-/

namespace StepRelay

/-- A supervisor and what is going on around it. -/
structure Session where
  supervisor : Supervisor
  /-- The open invocations, by the labels that their hosts gave them. -/
  live : OrderedMap Invocation := ∅
  /-- Scripts that run on after their step was cancelled. -/
  detached : List Running := []

/-- Something that a host does. -/
inductive Action where
  | begin (label : String) (request : StepRequest)
  | set (label : String) (name : String) (value : Value)
  | setOutput (label : String) (name : String) (value : Value)
  | commit (label : String)
  | fail (label : String) (error : StepError)
  | log (step : StepId) (level : LogLevel) (message : String)
  | execute (request : StepRequest) (script : Script)
  | executeAsync (request : StepRequest) (script : Script) (cancellation : Cancellation)
  /-- A detached script makes its next call. -/
  | resume (index : Nat)
  /-- A detached script runs to its end. -/
  | finish (index : Nat)

/-- What an action answers. -/
inductive Reply where
  | begun (invocation : Invocation)
  | written (outcome : Except StepError Unit)
  | ended (result : Except StepError Publication)
  | executed (execution : Supervisor.Execution)
  | finished (transcript : List Exchange)
  | done
  /-- There is no such invocation or script. -/
  | unknown

namespace Session

/-- A session that has just begun. -/
def new (config : Config) (outlet : LogOutlet := .trace) : Session := ⟨.new config outlet, ∅, []⟩

/-- Takes what a write to an open invocation left behind. -/
def afterWrite (session : Session) (label : String) (written : Invocation.Written) :
    Session × Reply :=
  ({ session with
      supervisor := { session.supervisor with clock := written.clock }
      live := session.live.insert label written.invocation },
    .written written.outcome)

/-- Takes what an execution left behind. -/
def afterExecution (session : Session) (executed : Supervisor × Supervisor.Execution) :
    Session × Reply :=
  ({ session with
      supervisor := executed.1
      detached := session.detached ++ executed.2.detached.toList },
    .executed executed.2)

/-- Does one action. -/
def act (session : Session) : Action → Session × Reply
  | .begin label request =>
    let (supervisor, invocation) := session.supervisor.begin request
    ({ session with supervisor, live := session.live.insert label invocation }, .begun invocation)
  | .set label name value =>
    match session.live.get? label with
    | none => (session, .unknown)
    | some invocation =>
      session.afterWrite label (invocation.set session.supervisor.clock name value)
  | .setOutput label name value =>
    match session.live.get? label with
    | none => (session, .unknown)
    | some invocation =>
      session.afterWrite label (invocation.setOutput session.supervisor.clock name value)
  | .commit label =>
    match session.live.get? label with
    | none => (session, .unknown)
    | some invocation =>
      let (supervisor, result) := session.supervisor.commit invocation
      ({ session with supervisor, live := session.live.erase label }, .ended result)
  | .fail label error =>
    match session.live.get? label with
    | none => (session, .unknown)
    | some invocation =>
      let supervisor := session.supervisor.fail invocation error
      ({ session with supervisor, live := session.live.erase label }, .ended (.error error))
  | .log step level message =>
    ({ session with supervisor := session.supervisor.log step level message }, .done)
  | .execute request script =>
    session.afterExecution (session.supervisor.execute request script)
  | .executeAsync request script cancellation =>
    session.afterExecution (session.supervisor.executeAsync request script cancellation)
  | .resume index =>
    match session.detached[index]? with
    | none => (session, .unknown)
    | some running =>
      match session.supervisor.next? running with
      | none => (session, .done)
      | some (supervisor, running) =>
        ({ session with supervisor, detached := session.detached.set index running }, .done)
  | .finish index =>
    match session.detached[index]? with
    | none => (session, .unknown)
    | some running =>
      let (supervisor, transcript) := session.supervisor.finishDetached running
      ({ session with supervisor, detached := session.detached.eraseIdx index },
        .finished transcript)

/-- Does actions one after the other. -/
def run (session : Session) (actions : List Action) : Session :=
  actions.foldl (fun session action => (session.act action).1) session

end Session

end StepRelay
