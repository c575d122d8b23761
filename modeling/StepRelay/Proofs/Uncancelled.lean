import StepRelay.Proofs.Cancellation

/-!
# Asynchronous executions that are not cancelled

A caller who waits for an asynchronous execution polls the script's worker (`Beside.await`): as long
as the script runs there is nothing to be had, and once it has ended its invocation is settled
(`Beside.join?`). `Beside.settled` is what becomes of a worker in the end. Its calls do not change
that (`settled_run`), and there are as many of them as the transcript is long (`length_run`), so it
depends neither on how often the caller polls nor on how far the worker has come each time
(`await_eq`).
-/

namespace StepRelay

open Supervisor

/-! ## The transcript of a run

The length of the transcript tells whether a script has ended: as long as it has a call to make, the
transcript of its run is longer than what has been made.
-/

namespace Supervisor

/-- A script that still has a call to make ends with a longer transcript. -/
theorem length_lt_runScript (call : Call) (next : call.Answer → Script) (s : Supervisor)
    (invocation : Invocation) (transcript : List Exchange) :
    transcript.length < (runScript (.call call next) s invocation transcript).2.2.1.length := by
  obtain ⟨made, htranscript, hends⟩ := runScript_ends (.call call next) s invocation transcript
  rw [htranscript, List.length_append]
  -- the first call has an answer in what was made
  cases hends with
  | call _ _ answer rest outcome h =>
    rw [List.length_cons]
    omega

theorem length_le_runScript (script : Script) (s : Supervisor) (invocation : Invocation)
    (transcript : List Exchange) :
    transcript.length ≤ (runScript script s invocation transcript).2.2.1.length := by
  obtain ⟨made, htranscript, -⟩ := runScript_ends script s invocation transcript
  rw [htranscript, List.length_append]
  exact Nat.le_add_right ..

end Supervisor

/-! ## Polling

A worker is polled between calls. What becomes of it is the same at every poll, so all that the
polls decide is whether the caller learns of it in time.
-/

namespace Beside

/-- The caller looks whether the script has ended, and if so settles its invocation. -/
def join? (beside : Beside) : Option (Supervisor × Execution) :=
  match beside.running.script with
  | .call .. => none
  | .ends outcome =>
    let (supervisor, result) :=
      beside.session.supervisor.settle beside.running.invocation outcome
    some (supervisor, { result, transcript := beside.running.transcript })

/-- The caller polls, at once and then each time that the script has made some more calls. -/
def await (beside : Beside) : List Nat → Option (Supervisor × Execution)
  | [] => beside.join?
  | calls :: rest =>
    match beside.join? with
    | some executed => some executed
    | none => (beside.run (.replicate calls .call)).await rest

/-- How many calls lie between the first poll and the last. -/
def between : List Nat → Nat
  | [] => 0
  | calls :: rest => calls + between rest

/-- What becomes of the script if it runs on to its end. -/
def settled (beside : Beside) : Supervisor × Execution :=
  let (supervisor, invocation, transcript, outcome) := runScript beside.running.script
    beside.session.supervisor beside.running.invocation beside.running.transcript
  let (supervisor, result) := supervisor.settle invocation outcome
  (supervisor, { result, transcript })

/-- What has been done at the end includes what has been done so far. -/
theorem length_le_settled (beside : Beside) :
    beside.running.transcript.length ≤ beside.settled.2.transcript.length :=
  length_le_runScript ..

/-- The script has ended once it has made all its calls. -/
theorem join?_eq (beside : Beside) :
    beside.join? =
      if beside.settled.2.transcript.length ≤ beside.running.transcript.length then
        some beside.settled
      else none := by
  obtain ⟨session, invocation, script, transcript⟩ := beside
  -- an ended script has made all its calls, and a script with a call to make has not
  cases script with
  | ends outcome =>
    have hlength : (settled ⟨session, invocation, .ends outcome, transcript⟩).2.transcript.length ≤
        transcript.length := Nat.le_refl _
    rw [if_pos hlength]
    rfl
  | call call next =>
    have hlength : transcript.length <
        (settled ⟨session, invocation, .call call next, transcript⟩).2.transcript.length :=
      length_lt_runScript ..
    rw [if_neg (Nat.not_le.2 hlength)]
    rfl

/-- Letting a script make some of its calls does not change what becomes of it. -/
theorem settled_run (calls : Nat) (beside : Beside) :
    (beside.run (.replicate calls .call)).settled = beside.settled := by
  have hran := (run_calls calls beside).1
  have hjoined := runScript_advance calls beside.session.supervisor beside.running
  rw [hran]
  simp only [settled]
  rw [hjoined]

/-- A script makes the calls that it is given time for, as long as it has any to make. -/
theorem length_run (calls : Nat) (beside : Beside) :
    (beside.run (.replicate calls .call)).running.transcript.length =
      min (beside.running.transcript.length + calls) beside.settled.2.transcript.length := by
  have hsettled := settled_run calls beside
  have hle := (beside.run (.replicate calls .call)).length_le_settled
  rw [hsettled] at hle
  rcases (run_calls calls beside).2 with ⟨-, hlength⟩ | ⟨-, hlength, outcome, hends⟩
  · omega
  · -- it has ended before, so it has made all the calls there are
    have hjoined := (beside.run (.replicate calls .call)).join?_eq
    have hpresent : (beside.run (.replicate calls .call)).join? ≠ none := by
      simp [join?, hends]
    rw [hsettled] at hjoined
    by_cases hall : beside.settled.2.transcript.length ≤
        (beside.run (.replicate calls .call)).running.transcript.length
    · omega
    · rw [if_neg hall] at hjoined
      exact absurd hjoined hpresent

/-- A caller gets what becomes of the script in the end, if the script has ended by the last
poll. -/
theorem await_eq (beside : Beside) (polls : List Nat) :
    beside.await polls =
      if beside.settled.2.transcript.length ≤
          beside.running.transcript.length + between polls then
        some beside.settled
      else none := by
  -- on the polls, for any worker: each poll that finds nothing lets it go on
  induction polls generalizing beside with
  | nil => exact beside.join?_eq
  | cons calls rest ih =>
    rw [await, beside.join?_eq]
    by_cases hended : beside.settled.2.transcript.length ≤ beside.running.transcript.length
    · have hlater : beside.settled.2.transcript.length ≤
          beside.running.transcript.length + between (calls :: rest) :=
        Nat.le_add_right_of_le hended
      rw [if_pos hended, if_pos hlater]
    · -- nothing yet: the worker makes its calls, and the rest of the polls go on from there
      rw [if_neg hended]
      show (beside.run (.replicate calls .call)).await rest = _
      rw [ih, settled_run, length_run, between]
      -- the calls that the script had no more use for do not matter
      congr 1
      apply propext
      omega

end Beside

/-- **An asynchronous execution that is not cancelled is the synchronous one.** In every state, for
every request and every script, however it ends:

* a caller who polls while the script makes its calls one by one gets nothing before the script has
  ended, and after that the very result and the very state (table, archive, events, script logs and
  clock) that a synchronous execution leaves, whenever the polls come;
* `executeAsync` with a token that is never cancelled, or is cancelled when the script has ended,
  answers and leaves the same; to a session both are the same action;
* the bound is exact: a cancellation that comes as late as the last call still cancels. -/
theorem executeAsync_uncancelled (session : Session) (request : StepRequest) (script : Script) :
    let executed := session.supervisor.execute request script
    let calls := executed.2.transcript.length
    (∀ polls, (session.launch request script).await polls =
      if calls ≤ Beside.between polls then some executed else none) ∧
    session.supervisor.executeAsync request script .never = executed ∧
    session.act (.executeAsync request script .never) = session.act (.execute request script) ∧
    (∀ late, calls < late →
      session.supervisor.executeAsync request script (.afterCalls late) = executed) ∧
    (∀ early, early ≤ calls →
      (session.supervisor.executeAsync request script (.afterCalls early)).2.result =
        .error (.cancelled request.step)) := by
  intro executed calls
  -- a worker that has just been launched has all of the execution ahead of it
  have hsettled : (session.launch request script).settled = executed := rfl
  have hmade : ∀ count, ((session.launch request script).run
      (.replicate count .call)).running.transcript.length = min count calls := by
    intro count
    rw [Beside.length_run, hsettled]
    show min (0 + count) calls = min count calls
    rw [Nat.zero_add]
  refine ⟨?_, rfl, rfl, ?_, ?_⟩
  · intro polls
    rw [Beside.await_eq, hsettled]
    show (if calls ≤ 0 + Beside.between polls then some executed else none) = _
    rw [Nat.zero_add]
  · -- a token that comes too late is checked after the last call
    intro late hlate
    have halone := executeAsync_alone session request script late
    simp only [hmade] at halone
    rw [if_neg (by omega)] at halone
    exact halone.2
  · -- a call, or the end, is still ahead when the token is cancelled
    intro early hearly
    have halone := executeAsync_alone session request script early
    simp only [hmade] at halone
    rw [if_pos (by omega)] at halone
    rw [halone]

end StepRelay
