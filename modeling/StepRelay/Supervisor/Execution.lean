import StepRelay.Step.Script
import StepRelay.Supervisor.Basic

/-!
# Running scripts

A script runs by making its calls one after the other. `execute` runs it to its end and commits or
fails the invocation by how it ended. `executeAsync` may be cancelled at any moment between two
calls; then the invocation fails at once, nothing of it is published, and what is left of the script
goes on by itself without ever being able to commit.
-/

namespace StepRelay

/-- A script on its way: its invocation, what is left to run, and the calls made so far. -/
structure Running where
  invocation : Invocation
  script : Script
  transcript : List Exchange := []

/-- When the request to cancel an execution is noticed. -/
inductive Cancellation where
  | never
  | beforeStart
  /-- When the script has made this many calls, unless its end has been noticed before. -/
  | afterCalls (calls : Nat)
  deriving DecidableEq

namespace Supervisor

/-- Takes what a write left behind. -/
def afterWrite (s : Supervisor) (written : Invocation.Written) :
    Supervisor × Invocation × Except StepError Unit :=
  ({ s with clock := written.clock }, written.invocation, written.outcome)

/-- Serves a call of a script. -/
def perform (s : Supervisor) (invocation : Invocation) :
    (call : Call) → Supervisor × Invocation × call.Answer
  | .inputs => (s, invocation, invocation.inputs)
  | .set name value => s.afterWrite (invocation.set s.clock name value)
  | .setOutput name value => s.afterWrite (invocation.setOutput s.clock name value)
  | .state => (s, invocation, invocation.state)
  | .log level message => (s.log invocation.step level message, invocation, ())
  | .pause => (s, invocation, ())

/-- Lets a script make its next call, if it has not ended. -/
def next? (s : Supervisor) (running : Running) : Option (Supervisor × Running) :=
  match running.script with
  | .ends _ => none
  | .call call next =>
    let (s, invocation, answer) := s.perform running.invocation call
    let exchange : Exchange := ⟨call, answer⟩
    some (s, ⟨invocation, next answer, running.transcript ++ [exchange]⟩)

/-- Lets a script make a number of calls. The last component tells whether it has made them all. -/
def advance : Nat → Supervisor → Running → Supervisor × Running × Bool
  | 0, s, running => (s, running, true)
  | calls + 1, s, running =>
    match s.next? running with
    | none => (s, running, false)
    | some (s, running) => advance calls s running

/-- Runs a script to its end. -/
def runScript : Script → Supervisor → Invocation → List Exchange →
    Supervisor × Invocation × List Exchange × Outcome
  | .ends outcome, s, invocation, transcript => (s, invocation, transcript, outcome)
  | .call call next, s, invocation, transcript =>
    let (s, invocation, answer) := s.perform invocation call
    let exchange : Exchange := ⟨call, answer⟩
    runScript (next answer) s invocation (transcript ++ [exchange])

/-- Commits or fails an invocation by how its script ended. -/
def settle (s : Supervisor) (invocation : Invocation) (outcome : Outcome) :
    Supervisor × Except StepError Publication :=
  match outcome.error? invocation.step with
  | none => s.commit invocation
  | some error => (s.fail invocation error, .error error)

/-- An execution: its result and the calls that the script made until then. -/
structure Execution where
  result : Except StepError Publication
  transcript : List Exchange
  /-- What is left of a script that was cancelled while it ran. -/
  detached : Option Running := none

/-- Runs a script to its end and commits or fails by how it ended. -/
def execute (s : Supervisor) (request : StepRequest) (script : Script) : Supervisor × Execution :=
  let (s, invocation) := s.begin request
  let (s, invocation, transcript, outcome) := runScript script s invocation.markRunning []
  let (s, result) := s.settle invocation outcome
  (s, { result, transcript })

/-- Fails a step as cancelled, with the inputs that it had and neither state nor outputs. -/
def cancel (s : Supervisor) (inputs : Inputs) : Supervisor × StepError :=
  let error := StepError.cancelled inputs.step
  (s.recordFailure inputs.step inputs.values ∅ ∅ error, error)

/-- Runs a script beside its caller. If the cancellation is noticed first, the step fails and the
rest of the script is left to itself; else the script's end decides. -/
def executeAsync (s : Supervisor) (request : StepRequest) (script : Script)
    (cancellation : Cancellation) : Supervisor × Execution :=
  let (s, invocation) := s.begin request
  let join (s : Supervisor) (running : Running) : Supervisor × Execution :=
    let (s, invocation, transcript, outcome) :=
      runScript running.script s running.invocation running.transcript
    let (s, result) := s.settle invocation outcome
    (s, { result, transcript })
  match cancellation with
  | .beforeStart =>
    let error := StepError.cancelled request.step
    (s.fail invocation error, { result := .error error, transcript := [] })
  | .never => join s ⟨invocation.markRunning, script, []⟩
  | .afterCalls calls =>
    match s.advance calls ⟨invocation.markRunning, script, []⟩ with
    | (s, running, true) =>
      -- the inputs are those of the start: the invocation itself stays with the script
      let (s, error) := s.cancel invocation.inputs
      (s, { result := .error error, transcript := running.transcript, detached := some running })
    | (s, running, false) => join s running

/-- Lets a detached script run to its end, which nobody waits for. -/
def finishDetached (s : Supervisor) (running : Running) : Supervisor × List Exchange :=
  let (s, _, transcript, _) := runScript running.script s running.invocation running.transcript
  (s, transcript)

end Supervisor

end StepRelay
