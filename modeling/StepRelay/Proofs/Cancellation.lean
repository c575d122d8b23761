import StepRelay.Proofs.Beginning
import StepRelay.Proofs.SameBut

/-!
# Cancelling a script that works beside other steps

`Beside` is a session together with the script of an asynchronous execution, which makes its calls
at any moments between the actions of hosts. The cancellation may come at any of these moments, too.
A call can only move the clock or log under the id of its step (`Supervisor.Touches`). So by
`Session.SameBut.act` the script may as well make no calls at all: nobody else can tell, except by
times (`Beside.run_sameBut`).

## The argument

* `Touches` is all that a call of the script can do to the supervisor (`touches_perform`), and it is
  nothing that the relation `Session.SameBut` sees (`SameBut.touch`).
* So the session beside the script stays the same as one in which the script makes no calls, along
  every interleaving (`run_sameBut`), before the cancellation and after it.
* The cancellation itself is one failure (`cancels_cancel`). What `executeAsync` does is one of
  these interleavings, the one in which the hosts do nothing (`executeAsync_alone`).
-/

namespace StepRelay

/-- A session, and a script that works on its own invocation beside it. -/
structure Beside where
  session : Session
  running : Running

/-- What may happen next beside a script. -/
inductive Beat where
  /-- The script makes its next call, if it has not ended. -/
  | call
  /-- A host acts. -/
  | host (action : Action)

/-- What the hosts do. -/
def Beat.actions : List Beat → List Action
  | [] => []
  | .call :: rest => actions rest
  | .host action :: rest => action :: actions rest

/-- Begins a step and starts its script. -/
def Session.launch (session : Session) (request : StepRequest) (script : Script) : Beside :=
  let (supervisor, invocation) := session.supervisor.begin request
  ⟨{ session with supervisor }, ⟨invocation.markRunning, script, []⟩⟩

/-- The cancellation of the step that these inputs belong to. -/
def Session.cancel (session : Session) (inputs : Inputs) : Session :=
  { session with supervisor := (session.supervisor.cancel inputs).1 }

namespace Beside

/-- One thing more happens. -/
def beat (beside : Beside) : Beat → Beside
  | .call =>
    match beside.session.supervisor.next? beside.running with
    | none => beside
    | some (supervisor, running) => ⟨{ beside.session with supervisor }, running⟩
  | .host action => { beside with session := (beside.session.act action).1 }

/-- Several things happen, in order. -/
def run (beside : Beside) (beats : List Beat) : Beside := beats.foldl beat beside

/-- What the hosts are answered. -/
def replies : Beside → List Beat → List Reply
  | _, [] => []
  | beside, .call :: rest => replies (beside.beat .call) rest
  | beside, .host action :: rest =>
    (beside.session.act action).2 :: replies (beside.beat (.host action)) rest

/-- The cancellation is noticed: the step fails, and its script goes on. -/
def cancel (beside : Beside) (inputs : Inputs) : Beside :=
  { beside with session := beside.session.cancel inputs }

end Beside

namespace Supervisor

/-! ## What a call can change

`Touches` is the inversion lemma of a call, as far as the supervisor goes. Everything that a host
can observe is untouched by it, or is a time, or a log of the step.
-/

/-- All that a call of a script of `step` can do to a supervisor. -/
inductive Touches (step : StepId) (before : Supervisor) : Supervisor → Prop where
  | clock (clock : Clock) (h : before.clock.now ≤ clock.now) :
      Touches step before { before with clock }
  | log (level : LogLevel) (message : String) :
      Touches step before (before.log step level message)

/-- A write moves the clock, if it is accepted, and does nothing else to the supervisor. -/
theorem touches_write {write : Invocation → Clock → Invocation.Written}
    (hwrite : Invocation.Uniform write) (step : StepId) (s : Supervisor) (invocation : Invocation) :
    Touches step s { s with clock := (write invocation s.clock).clock } := by
  refine .clock _ ?_
  rw [hwrite.clock]
  cases (write invocation s.clock).outcome with
  | ok _ => exact Nat.le_succ _
  | error _ => exact Nat.le_refl _

/-- **Whatever a script calls**, it moves the clock or logs. -/
theorem touches_perform (s : Supervisor) (invocation : Invocation) (call : Call) :
    Touches invocation.step s (s.perform invocation call).1 := by
  cases call with
  | inputs | state | pause => exact .clock s.clock (Nat.le_refl _)
  | set name value => exact touches_write (Invocation.uniform_set name value) ..
  | setOutput name value => exact touches_write (Invocation.uniform_setOutput name value) ..
  | log level message => exact .log level message

theorem touches_next? {s s' : Supervisor} {running running' : Running}
    (h : s.next? running = some (s', running')) :
    Touches running.invocation.step s s' ∧
      running'.invocation.step = running.invocation.step := by
  obtain ⟨call, rfl, hinvocation, -⟩ := next?_eq_some h
  rw [hinvocation]
  exact ⟨touches_perform s running.invocation call,
    (continues_perform s running.invocation call).step⟩

/-- **A call is noticed by nobody**: it changes only what may differ. -/
theorem SameBut.touch {step : StepId} {a a' b : Supervisor} (h : SameBut step a b)
    (hcall : Touches step a a') : SameBut step a' b := by
  cases hcall with
  | clock clock hclock => exact { h with ahead := Nat.le_trans h.ahead hclock }
  | log level message => exact h.log_left level message

/-- A cancellation does the same to both. -/
theorem SameBut.cancel {step : StepId} {a b : Supervisor} (h : SameBut step a b) (inputs : Inputs) :
    SameBut step (a.cancel inputs).1 (b.cancel inputs).1 :=
  h.recordFailure ..

theorem Touches.keeps {step : StepId} {s s' : Supervisor} (h : Touches step s s') :
    s'.table = s.table ∧ s'.archive = s.archive ∧ s'.events = s.events := by
  cases h with
  | clock clock hclock => exact ⟨rfl, rfl, rfl⟩
  | log level message =>
    refine ⟨s.log_table .., s.log_archive .., ?_⟩
    unfold Supervisor.log
    dsimp only
    split <;> rfl

end Supervisor

/-! ## What a cancellation changes

A cancellation is a failure with empty state and outputs. It is told by one event, and kept as one
record.
-/

/-- The record of a cancelled step: it has the inputs of the step and neither state nor outputs. -/
def Record.cancelled (inputs : Inputs) : Record where
  step := inputs.step
  phase := .failed
  inputs := inputs.values
  state := ∅
  outputs := ∅
  failure := some (.cancelled inputs.step)

namespace Supervisor

/-- A step was failed as cancelled: one event and one record more, and nothing merged. -/
structure Cancels (inputs : Inputs) (before after : Supervisor) : Prop where
  table : after.table = before.table
  clock : after.clock = before.clock
  events : after.events =
    before.events ++ [.failed inputs.step (StepError.cancelled inputs.step).message]
  archive : after.archive = (before.archive.push (.cancelled inputs)).1
  records : ∃ evicted kept, before.archive.records = evicted ++ kept ∧
    after.archive.records = kept ++ [.cancelled inputs]

/-- **A cancellation fails its step, and that is all it does.** -/
theorem cancels_cancel (s : Supervisor) (inputs : Inputs) :
    s.Cancels inputs (s.cancel inputs).1 := by
  -- the loop over the evicted steps drops their logs, and neither moves the clock nor announces
  have harchive : (s.cancel inputs).1.archive = (s.archive.push (.cancelled inputs)).1 :=
    recordFailure_archive ..
  refine ⟨recordFailure_table .., ?_, ?_, harchive, harchive ▸ s.archive.push_records _⟩
  · simp only [cancel, recordFailure, archiveRecord]
    rw [foldl_keeps Supervisor.clock]
    · rfl
    · exact fun _ _ => rfl
  · simp only [cancel, recordFailure, archiveRecord]
    rw [foldl_keeps Supervisor.events]
    · rfl
    · exact fun _ _ => rfl

/-! ## Running a script in two parts

The calls made before the cancellation and those made after it are together the run of the script.
So an execution that was never cancelled is what it is, wherever one stops to look.
-/

/-- Calls that are made first make no difference to the run of a script. -/
theorem runScript_advance (calls : Nat) (s : Supervisor) (running : Running) :
    let advanced := s.advance calls running
    runScript advanced.2.1.script advanced.1 advanced.2.1.invocation advanced.2.1.transcript =
      runScript running.script s running.invocation running.transcript := by
  -- on the calls made first, for any state of the script
  induction calls generalizing s running with
  | zero => rfl
  | succ calls ih =>
    obtain ⟨invocation, script, transcript⟩ := running
    cases script with
    | ends outcome => rfl
    | call call next =>
      simp only [advance, next?_of_call, runScript]
      exact ih _ _

end Supervisor

namespace Beside

/-- What a call does to the session beside its script. -/
theorem touches_call (beside : Beside) :
    beside.session.supervisor.Touches beside.running.invocation.step
        (beside.beat .call).session.supervisor ∧
      (beside.beat .call).session.live = beside.session.live ∧
      (beside.beat .call).session.detached = beside.session.detached := by
  cases hnext : beside.session.supervisor.next? beside.running with
  | none =>
    simp only [beat, hnext]
    exact ⟨.clock _ (Nat.le_refl _), trivial, trivial⟩
  | some after =>
    simp only [beat, hnext]
    exact ⟨(Supervisor.touches_next? hnext).1, trivial, trivial⟩

/-- A script that has ended makes no more calls. -/
theorem run_of_ends {beside : Beside} {outcome : Outcome}
    (h : beside.running.script = .ends outcome) (calls : Nat) :
    beside.run (.replicate calls .call) = beside := by
  have hbeat : beside.beat .call = beside := by
    simp only [beat, Supervisor.next?, h]
  induction calls with
  | zero => rfl
  | succ calls ih =>
    rw [List.replicate_succ, run, List.foldl_cons, hbeat]
    exact ih

/-- A script that makes calls while no host does anything. -/
theorem run_calls (calls : Nat) (beside : Beside) :
    let ran := beside.run (.replicate calls .call)
    let advanced := beside.session.supervisor.advance calls beside.running
    ran = ⟨{ beside.session with supervisor := advanced.1 }, advanced.2.1⟩ ∧
      (advanced.2.2 = true ∧
          ran.running.transcript.length = beside.running.transcript.length + calls ∨
        advanced.2.2 = false ∧
          ran.running.transcript.length < beside.running.transcript.length + calls ∧
          ∃ outcome, ran.running.script = .ends outcome) := by
  induction calls generalizing beside with
  | zero => exact ⟨rfl, .inl ⟨rfl, rfl⟩⟩
  | succ calls ih =>
    obtain ⟨session, invocation, script, transcript⟩ := beside
    cases script with
    | ends outcome =>
      -- nothing is left to call, and fewer calls were made than asked for
      have hends := @run_of_ends ⟨session, invocation, .ends outcome, transcript⟩ outcome rfl
      rw [hends (calls + 1)]
      exact ⟨rfl, .inr ⟨rfl, Nat.lt_add_of_pos_right (Nat.succ_pos calls), outcome, rfl⟩⟩
    | call call next =>
      -- one call, after which the session and the transcript are one call further
      let called := beat ⟨session, invocation, .call call next, transcript⟩ .call
      have hlength : called.running.transcript.length + calls =
          transcript.length + (calls + 1) := by
        have hcalled : called.running.transcript.length = transcript.length + 1 :=
          List.length_append
        omega
      obtain ⟨hran, hmade⟩ := ih called
      rw [hlength] at hmade
      exact ⟨hran, hmade⟩

/-- Calls by themselves change neither the table nor the archive, and announce nothing. -/
theorem run_calls_keeps (calls : Nat) (beside : Beside) :
    let ran := beside.run (.replicate calls .call)
    ran.session.supervisor.table = beside.session.supervisor.table ∧
      ran.session.supervisor.archive = beside.session.supervisor.archive ∧
      ran.session.supervisor.events = beside.session.supervisor.events := by
  induction calls generalizing beside with
  | zero => exact ⟨rfl, rfl, rfl⟩
  | succ calls ih =>
    obtain ⟨htable, harchive, hevents⟩ := ih (beside.beat .call)
    obtain ⟨hcalltable, hcallarchive, hcallevents⟩ := beside.touches_call.1.keeps
    exact ⟨htable.trans hcalltable, harchive.trans hcallarchive, hevents.trans hcallevents⟩

/-- **Nobody can tell a script from one that makes no calls.** Along every interleaving, the session
beside the script and the one without it stay the same but for times and the logs of the step, and
the hosts get the same answers. -/
theorem run_sameBut {step : StepId} {beside : Beside} {other : Session}
    (h : Session.SameBut step beside.session other) (hstep : beside.running.invocation.step = step)
    (beats : List Beat) :
    Session.SameBut step (beside.run beats).session (other.run (Beat.actions beats)) ∧
      (beside.run beats).running.invocation.step = step ∧
      (beside.replies beats).map Reply.timeless =
        (other.turns (Beat.actions beats)).map fun turn => turn.reply.timeless := by
  induction beats generalizing beside other with
  | nil => exact ⟨h, hstep, rfl⟩
  | cons beat rest ih =>
    cases beat with
    | call =>
      cases hnext : beside.session.supervisor.next? beside.running with
      | none =>
        -- the script has ended, and its beat does nothing
        have hbeat : beside.beat .call = beside := by
          simp only [beat, hnext]
        rw [run, List.foldl_cons, replies, hbeat]
        exact ih h hstep
      | some after =>
        -- the script makes a call, which only one of the two sessions sees
        obtain ⟨hcall, hafter⟩ := Supervisor.touches_next? hnext
        have hbeat : beside.beat .call =
            ⟨{ beside.session with supervisor := after.1 }, after.2⟩ := by
          simp only [beat, hnext]
        rw [run, List.foldl_cons, replies, hbeat]
        rw [hstep] at hcall
        exact ih { h with supervisor := h.supervisor.touch hcall } (hafter.trans hstep)
    | host action =>
      -- a host acts in both sessions, and gets the same answer in both
      obtain ⟨hact, hreply⟩ := h.act action
      obtain ⟨hrest, hkept, hreplies⟩ := @ih (beside.beat (.host action)) _ hact hstep
      refine ⟨hrest, hkept, ?_⟩
      rw [replies, Beat.actions, Session.turns, List.map_cons, List.map_cons, hreply, hreplies]

end Beside

/-- **An execution that is cancelled after some calls** is a script that makes them with nobody else
acting, and then the cancellation; if the script ends before, no cancellation is noticed at all. -/
theorem executeAsync_alone (session : Session) (request : StepRequest) (script : Script)
    (calls : Nat) :
    let ran := (session.launch request script).run (.replicate calls .call)
    if ran.running.transcript.length = calls then
      session.supervisor.executeAsync request script (.afterCalls calls) =
        ((ran.cancel (session.supervisor.begin request).2.inputs).session.supervisor, {
          result := .error (.cancelled request.step)
          transcript := ran.running.transcript
          detached := some ran.running })
    else
      (∃ outcome, ran.running.script = .ends outcome) ∧
        session.supervisor.executeAsync request script (.afterCalls calls) =
          session.supervisor.executeAsync request script .never := by
  intro ran
  obtain ⟨hran, hmade⟩ := Beside.run_calls calls (session.launch request script)
  have hlaunched : (session.launch request script).running.transcript.length = 0 := rfl
  rw [hlaunched, Nat.zero_add] at hmade
  -- the execution advances its script as the beats do
  have hadvance : ∀ made, ((session.supervisor.begin request).1.advance calls
        ⟨(session.supervisor.begin request).2.markRunning, script, []⟩).2.2 = made →
      (session.supervisor.begin request).1.advance calls
        ⟨(session.supervisor.begin request).2.markRunning, script, []⟩ =
          (ran.session.supervisor, ran.running, made) := by
    rintro made rfl
    rw [show ran = _ from hran]
    rfl
  rcases hmade with ⟨hmade, hlength⟩ | ⟨hmade, hlength, hends⟩
  · -- all calls were made: the cancellation comes
    rw [if_pos hlength]
    simp only [Supervisor.executeAsync, hadvance true hmade]
    rfl
  · -- the script has ended before
    rw [if_neg (Nat.ne_of_lt hlength)]
    refine ⟨hends, ?_⟩
    have hjoined := Supervisor.runScript_advance calls (session.supervisor.begin request).1
      ⟨(session.supervisor.begin request).2.markRunning, script, []⟩
    simp only [hadvance false hmade] at hjoined
    simp only [Supervisor.executeAsync, hadvance false hmade, hjoined]

/-- A script that was launched and has made some calls has left the table and the archive as they
were, and nothing but its begin was announced. -/
theorem launch_calls_keep (session : Session) (request : StepRequest) (script : Script)
    (calls : Nat) :
    let inputs := (session.supervisor.begin request).2.inputs
    let ran := (session.launch request script).run (.replicate calls .call)
    ran.session.supervisor.table = session.supervisor.table ∧
      ran.session.supervisor.archive = session.supervisor.archive ∧
      ran.session.supervisor.events = session.supervisor.events ++
        [.began request.step inputs.names session.supervisor.table.version] := by
  intro inputs ran
  obtain ⟨htable, harchive, hevents⟩ := (session.launch request script).run_calls_keeps calls
  -- the announced names are those of the cells that the invocation begins with
  have hnames : inputs.names = (session.supervisor.inputCells request).keys := by
    rw [Inputs.names, (Supervisor.begin_invocation ..).2, OrderedMap.keys_map]
  refine ⟨?_, ?_, ?_⟩
  · exact htable.trans (Supervisor.begin_table ..)
  · exact harchive.trans (Supervisor.begin_archive ..)
  · rw [hnames]
    exact hevents.trans (Supervisor.begin_events ..)

/-- A script that was launched, and is cancelled at some moment: whatever calls it makes before and
after, the hosts are answered as if it had made none, up to times, and what is left is the same but
for times and for the logs of its step. -/
theorem launch_cancel_sameBut (session : Session) (request : StepRequest) (script : Script)
    (before after : List Beat) :
    let inputs := (session.supervisor.begin request).2.inputs
    let launched := session.launch request script
    let cancelled := (launched.run before).cancel inputs
    let silent := (launched.session.run (Beat.actions before)).cancel inputs
    Session.SameBut request.step (cancelled.run after).session
        (silent.run (Beat.actions after)) ∧
      (cancelled.run after).running.invocation.step = request.step ∧
      (launched.replies before).map Reply.timeless =
        (launched.session.turns (Beat.actions before)).map (fun turn => turn.reply.timeless) ∧
      (cancelled.replies after).map Reply.timeless =
        (silent.turns (Beat.actions after)).map fun turn => turn.reply.timeless := by
  intro inputs launched cancelled silent
  have hstep : launched.running.invocation.step = request.step :=
    (Invocation.continues_markRunning (session.supervisor.begin request).2).step
  obtain ⟨hbefore, hkept, hreplies⟩ :=
    Beside.run_sameBut (Session.SameBut.refl request.step launched.session) hstep before
  -- the cancellation is the same action in both, so the two go on from the same again
  have hcancelled : Session.SameBut request.step cancelled.session silent :=
    { hbefore with supervisor := hbefore.supervisor.cancel inputs }
  obtain ⟨hafter, hstill, hrest⟩ := Beside.run_sameBut hcancelled hkept after
  exact ⟨hafter, hstill, hreplies, hrest⟩

/-- **Cancellation merges nothing, whenever it comes.** Below, `before` and `after` are arbitrary
interleavings of the script's calls with actions of hosts.

* An execution that is cancelled before its script starts, or after any number of the script's calls
  (the last one included), answers that its step was cancelled. Until then neither the begin nor the
  calls have touched the table or the archive.
* Wherever the cancellation comes, it announces one failure and archives one failed record, with the
  inputs of the begin and neither state nor outputs. The table and all else stay as they are.
* Each call that the script makes then moves the clock, or logs under the id of its step, and leaves
  the table, the archive and the events as they are.
* So but for times and for what the step has logged, everything is as if the script had made no
  calls at all, before or after: the table, the archive, the events, the other steps' logs, the open
  invocations and detached scripts, and every answer that a host gets. -/
theorem cancellation_merges_nothing (session : Session) (request : StepRequest) (script : Script) :
    let begun := session.supervisor.begin request
    let inputs := begun.2.inputs
    let launched := session.launch request script
    session.supervisor.executeAsync request script .beforeStart =
      ((launched.cancel inputs).session.supervisor,
        { result := .error (.cancelled request.step), transcript := [] }) ∧
    (∀ calls,
      let ran := launched.run (.replicate calls .call)
      (if ran.running.transcript.length = calls then
        session.supervisor.executeAsync request script (.afterCalls calls) =
          ((ran.cancel inputs).session.supervisor, {
            result := .error (.cancelled request.step)
            transcript := ran.running.transcript
            detached := some ran.running })
      else
        (∃ outcome, ran.running.script = .ends outcome) ∧
          session.supervisor.executeAsync request script (.afterCalls calls) =
            session.supervisor.executeAsync request script .never) ∧
      ran.session.supervisor.table = session.supervisor.table ∧
      ran.session.supervisor.archive = session.supervisor.archive ∧
      ran.session.supervisor.events = session.supervisor.events ++
        [.began request.step inputs.names session.supervisor.table.version]) ∧
    (∀ before,
      let ran := launched.run before
      let cancelled := ran.cancel inputs
      (ran.session.supervisor.cancel inputs).2 = .cancelled request.step ∧
      ran.session.supervisor.Cancels inputs cancelled.session.supervisor ∧
      cancelled.session.live = ran.session.live ∧
      cancelled.session.detached = ran.session.detached) ∧
    (∀ before after,
      let cancelled := (launched.run before).cancel inputs
      let ran := cancelled.run after
      let called := ran.beat .call
      ran.session.supervisor.Touches request.step called.session.supervisor ∧
      called.session.supervisor.table = ran.session.supervisor.table ∧
      called.session.supervisor.archive = ran.session.supervisor.archive ∧
      called.session.supervisor.events = ran.session.supervisor.events ∧
      called.session.live = ran.session.live ∧
      called.session.detached = ran.session.detached ∧
      let silent := (launched.session.run (Beat.actions before)).cancel inputs
      Session.SameBut request.step ran.session (silent.run (Beat.actions after)) ∧
      (launched.replies before).map Reply.timeless =
        (launched.session.turns (Beat.actions before)).map (fun turn => turn.reply.timeless) ∧
      (cancelled.replies after).map Reply.timeless =
        (silent.turns (Beat.actions after)).map fun turn => turn.reply.timeless) := by
  intro begun inputs launched
  refine ⟨rfl, ?_, ?_, ?_⟩
  · -- cancelled between two calls
    intro calls ran
    exact ⟨executeAsync_alone session request script calls,
      launch_calls_keep session request script calls⟩
  · -- the cancellation itself, after any beats
    intro before ran cancelled
    exact ⟨rfl, ran.session.supervisor.cancels_cancel inputs, rfl, rfl⟩
  · -- what the orphaned script does afterwards
    intro before after cancelled ran called
    obtain ⟨hafter, hstill, hreplies, hrest⟩ :=
      launch_cancel_sameBut session request script before after
    obtain ⟨hcall, hlive, hdetached⟩ := ran.touches_call
    rw [hstill] at hcall
    obtain ⟨htable, harchive, hevents⟩ := hcall.keeps
    exact ⟨hcall, htable, harchive, hevents, hlive, hdetached, hafter, hreplies, hrest⟩

end StepRelay
