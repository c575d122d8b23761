import StepRelay.Proofs.Supervisor

/-!
# Executing a script

`Script.Ends` says how a script ends that gets given answers, without running it. A run gets its
answers from the invocation: `runScript_ends` says that it follows the script, `runScript_reflects`
that the invocation holds in the end what the answers promised. `execute_all_or_nothing` puts them
together with the commit.

## The argument

* One call keeps the invocation in step with the transcript (`perform_reflects`), and leaves table
  and archive alone.
* By induction over the script so does a whole run (`runScript_reflects`), and its transcript is one
  that the script makes (`runScript_ends`).
* Settling the invocation is a commit or a failure, as the script's outcome and the fatal error have
  it (`settle_cases`).
-/

namespace StepRelay

/-! ## How a script ends

A script is a tree of calls and answers. A transcript is a path in it, and `Script.Ends` says where
the path leads; nothing in it depends on who gave the answers.
-/

/-- The write that an exchange asks for, with its outcome. -/
def Exchange.attempt? : Exchange → Option Attempt
  | ⟨.set name value, outcome⟩ => some ⟨.state, name, value, outcome⟩
  | ⟨.setOutput name value, outcome⟩ => some ⟨.output, name, value, outcome⟩
  | _ => none

/-- A script that makes the calls of a transcript and gets its answers ends so. -/
inductive Script.Ends : Script → List Exchange → Outcome → Prop where
  | ends (outcome : Outcome) : Ends (.ends outcome) [] outcome
  | call (call : Call) (next : call.Answer → Script) (answer : call.Answer)
      (rest : List Exchange) (outcome : Outcome) (h : Ends (next answer) rest outcome) :
      Ends (.call call next) (⟨call, answer⟩ :: rest) outcome

/-- Only a script that returned has no error to report. -/
theorem Outcome.error?_eq_none_iff (outcome : Outcome) (step : StepId) :
    outcome.error? step = none ↔ outcome = .returned := by
  cases outcome with
  | returned => simp [error?]
  | failed error => simp [error?]
  | panicked message => cases message <;> simp [error?]

namespace Supervisor

/-! ## One call

A call reads, writes or logs. Only a write changes the invocation, and none changes the table or the
archive.
-/

@[simp] theorem perform_table (s : Supervisor) (invocation : Invocation) (call : Call) :
    (s.perform invocation call).1.table = s.table := by
  cases call <;> simp [perform, afterWrite]

@[simp] theorem perform_archive (s : Supervisor) (invocation : Invocation) (call : Call) :
    (s.perform invocation call).1.archive = s.archive := by
  cases call <;> simp [perform, afterWrite]

/-- A call is made of the invocation that the script was started with, and stays with it. -/
theorem continues_perform (s : Supervisor) (invocation : Invocation) (call : Call) :
    invocation.Continues (s.perform invocation call).2.1 := by
  cases call with
  | set name value => exact invocation.continues_set s.clock name value
  | setOutput name value => exact invocation.continues_setOutput s.clock name value
  | inputs | state | log | pause => exact .refl invocation

/-- **One call keeps the invocation and the transcript in step**: what is written is what the
exchange asked for, and the exchange tells what became of it. -/
theorem perform_reflects {invocation : Invocation} {transcript : List Exchange}
    (h : invocation.Reflects (transcript.filterMap Exchange.attempt?)) (s : Supervisor)
    (call : Call) :
    (s.perform invocation call).2.1.Reflects
      ((transcript ++ [(⟨call, (s.perform invocation call).2.2⟩ : Exchange)]).filterMap
        Exchange.attempt?) := by
  rw [List.filterMap_append]
  cases call with
  | set name value => exact h.set s.clock name value
  | setOutput name value => exact h.setOutput s.clock name value
  | inputs | state | log | pause =>
    -- no write is asked for
    change invocation.Reflects (transcript.filterMap Exchange.attempt? ++ [])
    rwa [List.append_nil]

/-! ## A whole script

Inductions over the script, whose step is the lemma on one call. The state that a call leaves
differs from call to call, so supervisor, invocation and transcript are generalized.
-/

theorem runScript_table (script : Script) (s : Supervisor) (invocation : Invocation)
    (transcript : List Exchange) :
    (runScript script s invocation transcript).1.table = s.table := by
  induction script generalizing s invocation transcript with
  | ends outcome => rfl
  | call call next ih => simp [runScript, ih]

theorem runScript_archive (script : Script) (s : Supervisor) (invocation : Invocation)
    (transcript : List Exchange) :
    (runScript script s invocation transcript).1.archive = s.archive := by
  induction script generalizing s invocation transcript with
  | ends outcome => rfl
  | call call next ih => simp [runScript, ih]

/-- And it works on one invocation from its first call to its last. -/
theorem continues_runScript (script : Script) (s : Supervisor) (invocation : Invocation)
    (transcript : List Exchange) :
    invocation.Continues (runScript script s invocation transcript).2.1 := by
  induction script generalizing s invocation transcript with
  | ends outcome => exact .refl invocation
  | call call next ih => exact (continues_perform s invocation call).trans (ih _ _ _ _)

/-- **After any number of calls** the invocation still reflects the transcript. -/
theorem runScript_reflects (script : Script) (s : Supervisor) {invocation : Invocation}
    {transcript : List Exchange}
    (h : invocation.Reflects (transcript.filterMap Exchange.attempt?)) :
    (runScript script s invocation transcript).2.1.Reflects
      ((runScript script s invocation transcript).2.2.1.filterMap Exchange.attempt?) := by
  induction script generalizing s invocation transcript with
  | ends outcome => exact h
  | call call next ih => exact ih _ _ (perform_reflects h s call)

/-- A run adds to the transcript the calls that the script makes, given the answers it gets. -/
theorem runScript_ends (script : Script) (s : Supervisor) (invocation : Invocation)
    (transcript : List Exchange) :
    ∃ made, (runScript script s invocation transcript).2.2.1 = transcript ++ made ∧
      script.Ends made (runScript script s invocation transcript).2.2.2 := by
  induction script generalizing s invocation transcript with
  | ends outcome => exact ⟨[], (List.append_nil _).symm, .ends outcome⟩
  | call call next ih =>
    -- the script goes on with the answer that it was given
    obtain ⟨made, htranscript, hends⟩ := ih (s.perform invocation call).2.2
      (s.perform invocation call).1 (s.perform invocation call).2.1
      (transcript ++ [⟨call, (s.perform invocation call).2.2⟩])
    refine ⟨⟨call, (s.perform invocation call).2.2⟩ :: made, ?_, .call _ _ _ _ _ hends⟩
    rw [runScript, htranscript, List.append_assoc, List.singleton_append]

/-! ## How an execution ends

An error of the script comes first, then the invocation's own fatal error; only without either does
anything land. The four lemmas on settlement say so, and `execute_cases` applies them to what the
run has left.
-/

/-- An invocation whose script ended fails with the script's error, else with its own fatal one, and
lands its outputs if there is neither. -/
theorem settle_cases (s : Supervisor) {invocation : Invocation} (htidy : invocation.store.Tidy)
    (outcome : Outcome) :
    (∃ error, (outcome.error? invocation.step).or invocation.fatal = some error ∧
      s.settle invocation outcome = (s.fail invocation error, .error error)) ∨
    (outcome = .returned ∧ invocation.fatal = none ∧
      ∃ publication, (s.settle invocation outcome).2 = .ok publication ∧
        publication.step = invocation.step ∧ publication.values = invocation.outputs ∧
        publication.Lands s.table (s.settle invocation outcome).1.table) := by
  cases herror : outcome.error? invocation.step with
  -- the script failed, so its error goes first
  | some error =>
    refine .inl ⟨error, rfl, ?_⟩
    simp only [settle, herror]
  | none =>
    have hsettle : s.settle invocation outcome = s.commit invocation := by
      simp only [settle, herror]
    rw [hsettle, Option.none_or]
    -- it returned, and now the invocation may still have failed for good
    rcases commit_cases s htidy with ⟨error, hfatal, hcommit⟩ | ⟨hfatal, publication, hcommit⟩
    · exact .inl ⟨error, hfatal, hcommit⟩
    · obtain ⟨hok, hstep, hvalues, -, hlands⟩ := hcommit
      exact .inr ⟨(outcome.error?_eq_none_iff invocation.step).1 herror, hfatal, publication,
        hok, hstep, hvalues, hlands⟩

section Settle

variable {s : Supervisor} {invocation : Invocation} (htidy : invocation.store.Tidy)
  {outcome : Outcome}

include htidy

/-- An invocation lands its outputs exactly if its script returned and it has no fatal error. -/
theorem settle_ok_iff :
    (∃ publication, (s.settle invocation outcome).2 = .ok publication) ↔
      outcome = .returned ∧ invocation.fatal = none := by
  rcases settle_cases s htidy outcome with
    ⟨error, herror, hsettle⟩ | ⟨hreturned, hnone, publication, hok, -⟩
  · rw [hsettle]
    -- a failure has a cause, and there would be none
    refine ⟨nofun, ?_⟩
    rintro ⟨rfl, hnone⟩
    rw [hnone] at herror
    cases herror
  · exact ⟨fun _ => ⟨hreturned, hnone⟩, fun _ => ⟨publication, hok⟩⟩

/-- What a success answers is what the invocation has written, and it is what lands. -/
theorem settle_of_ok {publication : Publication}
    (h : (s.settle invocation outcome).2 = .ok publication) :
    publication.step = invocation.step ∧ publication.values = invocation.outputs ∧
      publication.Lands s.table (s.settle invocation outcome).1.table := by
  rcases settle_cases s htidy outcome with
    ⟨error, -, hsettle⟩ | ⟨-, -, other, hok, hstep, hvalues, hlands⟩
  · rw [hsettle] at h
    cases h
  · obtain rfl := Except.ok.inj (hok.symm.trans h)
    exact ⟨hstep, hvalues, hlands⟩

/-- What a failure answers is the error of the script, or else the invocation's own fatal one. -/
theorem settle_of_error {error : StepError}
    (h : (s.settle invocation outcome).2 = .error error) :
    (outcome.error? invocation.step).or invocation.fatal = some error ∧
      (s.settle invocation outcome).1 = s.fail invocation error := by
  rcases settle_cases s htidy outcome with ⟨other, herror, hsettle⟩ | ⟨-, -, publication, hok, -⟩
  · rw [hsettle] at h
    obtain rfl := Except.error.inj h
    exact ⟨herror, congrArg Prod.fst hsettle⟩
  · rw [hok] at h
    cases h

end Settle

/-- What a failure leaves, if the script has left the table and the archive alone: the table of the
start, and in the archive one record more, which tells what had been written by then. -/
theorem fail_leaves {s ran : Supervisor} (htable : ran.table = s.table)
    (harchive : ran.archive = s.archive) {begun invocation : Invocation} {attempts : List Attempt}
    (hcontinues : begun.Continues invocation) (hreflects : invocation.Reflects attempts)
    (error : StepError) :
    let record : Record := {
      step := begun.step
      phase := .failed
      inputs := begun.inputs.values
      state := .ofPairs (Attempt.accepted .state attempts)
      outputs := .ofPairs (Attempt.accepted .output attempts)
      failure := some error }
    (ran.fail invocation error).table = s.table ∧
      (ran.fail invocation error).archive = (s.archive.push record).1 ∧
      ∃ evicted kept, s.archive.records = evicted ++ kept ∧
        (ran.fail invocation error).archive.records = kept ++ [record] := by
  intro record
  -- the script's own calls have touched neither the table nor the archive
  have hpush : (ran.fail invocation error).archive = (s.archive.push record).1 := by
    rw [← harchive]
    exact fail_archive_of_reflects hcontinues hreflects ran error
  refine ⟨?_, hpush, ?_⟩
  · rw [fail_table, htable]
  · rw [hpush]
    exact s.archive.push_records record

/-- An execution is a run of its script, which leaves the table and the archive alone, and the
settlement of what the invocation then holds. -/
theorem execute_cases (s : Supervisor) (request : StepRequest) (script : Script) :
    ∃ (ran : Supervisor) (invocation : Invocation) (outcome : Outcome),
      ran.table = s.table ∧ ran.archive = s.archive ∧
      script.Ends (s.execute request script).2.transcript outcome ∧
      (s.begin request).2.Continues invocation ∧
      invocation.Reflects
        ((s.execute request script).2.transcript.filterMap Exchange.attempt?) ∧
      (s.execute request script).1 = (ran.settle invocation outcome).1 ∧
      (s.execute request script).2.result = (ran.settle invocation outcome).2 := by
  let begun := s.begin request
  let ran := runScript script begun.1 begun.2.markRunning []
  have hbegun : begun.2.markRunning.Reflects (([] : List Exchange).filterMap Exchange.attempt?) :=
    (begin_reflects s request).markRunning
  -- the transcript begins empty, so it is what the script made
  obtain ⟨made, hmade, hends⟩ := runScript_ends script begun.1 begun.2.markRunning []
  rw [List.nil_append] at hmade
  refine ⟨ran.1, ran.2.1, ran.2.2.2, ?_, ?_, ?_, ?_, ?_, rfl, rfl⟩
  · rw [runScript_table, begin_table]
  · rw [runScript_archive, begin_archive]
  · rw [← hmade] at hends
    exact hends
  · exact (Invocation.continues_markRunning begun.2).trans (continues_runScript ..)
  · exact runScript_reflects script begun.1 hbegun

/-- **Execution is all-or-nothing.** In every state of the supervisor and for every script, whose
end follows from the answers that it got:

* the execution succeeds exactly if the script returned and no output of it was refused for want of
  a text;
* then each name that it wrote as output holds the last accepted value, from the step of the
  request, every other name keeps its cell, and the version grows by one;
* else the table stays as it was, the error is that of the script or, if it returned, the first
  refusal, and exactly one record is archived: a failed one with the inputs that the step began
  with and the state and outputs that it had written by then. -/
theorem execute_all_or_nothing (s : Supervisor) (request : StepRequest) (script : Script) :
    let after := (s.execute request script).1
    let execution := (s.execute request script).2
    let attempts := execution.transcript.filterMap Exchange.attempt?
    let written := Attempt.accepted .output attempts
    ∃ outcome, script.Ends execution.transcript outcome ∧
      ((∃ publication, execution.result = .ok publication) ↔
        outcome = .returned ∧ ∀ attempt ∈ attempts, attempt.refusal? = none) ∧
      ((∃ publication, execution.result = .ok publication) →
        after.table.version = s.table.version + 1 ∧
        (∀ name value, written.last? name = some value →
          ∃ cell, after.table.cell? name = some cell ∧
            cell.value = value ∧ cell.origin = request.step) ∧
        (∀ name, name ∉ written.keys →
          after.table.cells.get? name = s.table.cells.get? name)) ∧
      (∀ error, execution.result = .error error →
        after.table = s.table ∧
        (outcome.error? request.step).or (Attempt.firstRefusal? attempts) = some error ∧
        let record : Record := {
          step := request.step
          phase := .failed
          inputs := (s.begin request).2.inputs.values
          state := .ofPairs (Attempt.accepted .state attempts)
          outputs := .ofPairs written
          failure := some error }
        after.archive = (s.archive.push record).1 ∧
        ∃ evicted kept, s.archive.records = evicted ++ kept ∧
          after.archive.records = kept ++ [record]) := by
  intro after execution attempts written
  obtain ⟨ran, invocation, outcome, htable, harchive, hends, hcontinues, hreflects, hafter,
    hresult⟩ := execute_cases s request script
  have hstep : invocation.step = request.step := hcontinues.step
  -- no refusal is in the transcript exactly if the invocation has no fatal error
  have hfatal : invocation.fatal = none ↔ ∀ attempt ∈ attempts, attempt.refusal? = none := by
    rw [hreflects.fatal, Attempt.firstRefusal?, List.findSome?_eq_none_iff]
  have hsucceeds : (∃ publication, execution.result = .ok publication) ↔
      outcome = .returned ∧ ∀ attempt ∈ attempts, attempt.refusal? = none := by
    rw [hresult, settle_ok_iff hreflects.tidy, hfatal]
  refine ⟨outcome, hends, hsucceeds, ?_, ?_⟩
  · rintro ⟨publication, hok⟩
    -- success: what was written lands
    obtain ⟨hpstep, hvalues, hlands⟩ := settle_of_ok hreflects.tidy (hresult.symm.trans hok)
    rw [← hafter, htable] at hlands
    rw [hreflects.outputs] at hvalues
    rw [hstep] at hpstep
    refine ⟨hlands.version, ?_, ?_⟩
    · intro name value hvalue
      rw [← hpstep]
      exact hlands.cell?_of_last hvalues hvalue
    · intro name hname
      exact hlands.get?_of_not_written hvalues hname
  · intro error herror
    -- failure: nothing lands, and one record tells why
    obtain ⟨hcause, hfail⟩ := settle_of_error hreflects.tidy (hresult.symm.trans herror)
    obtain ⟨hkept, hpushed, hrecords⟩ :=
      fail_leaves htable harchive hcontinues hreflects error
    have hended : after = ran.fail invocation error := hafter.trans hfail
    refine ⟨?_, ?_, ?_⟩
    · rw [hended, hkept]
    · rw [← hstep, ← hcause, hreflects.fatal]
    · rw [hended]
      exact ⟨hpushed, hrecords⟩

/-! ## Executions and the table

`Settles` says of a result and two tables that an error left the table alone and a success has
landed. It holds of every way to execute: a script that runs to its end, one that is followed call
by call, and one that is cancelled on its way.
-/

/-- What a script's end does to the table is what its result says. -/
theorem settle_settles (s : Supervisor) {invocation : Invocation} (htidy : invocation.store.Tidy)
    (outcome : Outcome) :
    Settles s.table (s.settle invocation outcome).2 (s.settle invocation outcome).1.table := by
  rcases settle_cases s htidy outcome with
    ⟨error, -, hsettle⟩ | ⟨-, -, publication, hok, -, -, hlands⟩
  · rw [hsettle]
    exact fail_table s invocation error
  · rw [hok]
    exact hlands

theorem execute_settles (s : Supervisor) (request : StepRequest) (script : Script) :
    Settles s.table (s.execute request script).2.result (s.execute request script).1.table := by
  obtain ⟨ran, invocation, outcome, htable, -, -, -, hreflects, hafter, hresult⟩ :=
    execute_cases s request script
  rw [hafter, hresult, ← htable]
  exact settle_settles ran hreflects.tidy outcome

/-- A script on its way has the answers that its invocation stands for. -/
def Reflected (running : Running) : Prop :=
  running.invocation.Reflects (running.transcript.filterMap Exchange.attempt?)

/-- A script that is at a call makes it, and goes on with the answer. -/
theorem next?_of_call (s : Supervisor) (invocation : Invocation) (call : Call)
    (next : call.Answer → Script) (transcript : List Exchange) :
    s.next? ⟨invocation, .call call next, transcript⟩ =
      some ((s.perform invocation call).1,
        ⟨(s.perform invocation call).2.1, next (s.perform invocation call).2.2,
          transcript ++ [⟨call, (s.perform invocation call).2.2⟩]⟩) := rfl

/-- A script that goes on has made one call. -/
theorem next?_eq_some {s s' : Supervisor} {running running' : Running}
    (h : s.next? running = some (s', running')) :
    ∃ call, s' = (s.perform running.invocation call).1 ∧
      running'.invocation = (s.perform running.invocation call).2.1 ∧
      running'.transcript =
        running.transcript ++ [⟨call, (s.perform running.invocation call).2.2⟩] := by
  obtain ⟨invocation, script, transcript⟩ := running
  cases script with
  | ends outcome => cases h
  | call call next =>
    simp only [next?, Option.some.injEq, Prod.mk.injEq] at h
    obtain ⟨rfl, rfl⟩ := h
    exact ⟨call, rfl, rfl, rfl⟩

/-- A script's next call leaves the table alone and answers as the invocation will stand for. -/
theorem next?_keeps {s s' : Supervisor} {running running' : Running}
    (h : s.next? running = some (s', running')) :
    s'.table = s.table ∧ (Reflected running → Reflected running') := by
  obtain ⟨invocation, script, transcript⟩ := running
  cases script with
  | ends outcome => simp [next?] at h
  | call call next =>
    simp only [next?, Option.some.injEq, Prod.mk.injEq] at h
    obtain ⟨rfl, rfl⟩ := h
    exact ⟨perform_table s invocation call, fun hr => perform_reflects hr s call⟩

theorem advance_keeps (calls : Nat) (s : Supervisor) (running : Running) :
    (advance calls s running).1.table = s.table ∧
      (Reflected running → Reflected (advance calls s running).2.1) := by
  induction calls generalizing s running with
  | zero => exact ⟨rfl, id⟩
  | succ calls ih =>
    rw [advance]
    cases hnext : s.next? running with
    | none => exact ⟨rfl, id⟩
    | some after =>
      -- one call, and then the rest from the state that it leaves
      have hkeeps := next?_keeps hnext
      have hrest := ih after.1 after.2
      exact ⟨hrest.1.trans hkeeps.1, hrest.2 ∘ hkeeps.2⟩

/-- A script that is followed for some calls works on one invocation as well. -/
theorem continues_advance (calls : Nat) (s : Supervisor) (running : Running) :
    running.invocation.Continues (advance calls s running).2.1.invocation := by
  induction calls generalizing s running with
  | zero => exact .refl running.invocation
  | succ calls ih =>
    rw [advance]
    -- a script that has ended stays where it is
    cases hnext : s.next? running with
    | none => exact .refl running.invocation
    | some after =>
      obtain ⟨call, -, hcalled, -⟩ := next?_eq_some hnext
      have hcontinues := continues_perform s running.invocation call
      rw [← hcalled] at hcontinues
      exact hcontinues.trans (ih after.1 after.2)

theorem advance_archive (calls : Nat) (s : Supervisor) (running : Running) :
    (advance calls s running).1.archive = s.archive := by
  induction calls generalizing s running with
  | zero => rfl
  | succ calls ih =>
    rw [advance]
    cases hnext : s.next? running with
    | none => rfl
    | some after =>
      obtain ⟨call, hcall, -⟩ := next?_eq_some hnext
      rw [ih after.1 after.2, hcall, perform_archive]

theorem finishDetached_table (s : Supervisor) (running : Running) :
    (s.finishDetached running).1.table = s.table :=
  runScript_table ..

theorem finishDetached_archive (s : Supervisor) (running : Running) :
    (s.finishDetached running).1.archive = s.archive :=
  runScript_archive ..

/-- Running the rest of a script and settling its end. -/
theorem join_settles (s : Supervisor) {running : Running} (h : Reflected running) :
    let ran := runScript running.script s running.invocation running.transcript
    Settles s.table (ran.1.settle ran.2.1 ran.2.2.2).2
      (ran.1.settle ran.2.1 ran.2.2.2).1.table := by
  intro ran
  have htable : ran.1.table = s.table := runScript_table ..
  have hreflects : ran.2.1.Reflects _ := runScript_reflects running.script s h
  rw [← htable]
  exact settle_settles ran.1 hreflects.tidy ran.2.2.2

/-- **However an execution is cancelled**, what it does to the table is what its result says. -/
theorem executeAsync_settles (s : Supervisor) (request : StepRequest) (script : Script)
    (cancellation : Cancellation) :
    Settles s.table (s.executeAsync request script cancellation).2.result
      (s.executeAsync request script cancellation).1.table := by
  have hbegun : Reflected ⟨(s.begin request).2.markRunning, script, []⟩ :=
    (begin_reflects s request).markRunning
  cases cancellation with
  | beforeStart =>
    -- no call is made: the invocation begins and fails
    simp only [executeAsync]
    exact (fail_table ..).trans (begin_table s request)
  | never =>
    have hjoin := join_settles (s.begin request).1 hbegun
    rw [begin_table] at hjoin
    exact hjoin
  | afterCalls calls =>
    obtain ⟨htable, hreflected⟩ :=
      advance_keeps calls (s.begin request).1 ⟨(s.begin request).2.markRunning, script, []⟩
    rw [begin_table] at htable
    simp only [executeAsync]
    split
    · next ran running hadvance =>
      -- the cancellation came first
      rw [hadvance] at htable
      exact (recordFailure_table ..).trans htable
    · next ran running hadvance =>
      -- the script had ended before
      rw [hadvance] at htable hreflected
      rw [← htable]
      exact join_settles ran (hreflected hbegun)

end Supervisor

end StepRelay
