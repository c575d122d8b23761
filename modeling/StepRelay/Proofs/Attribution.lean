import StepRelay.Proofs.ArchiveRecords
import StepRelay.Proofs.Execution

/-!
# Whose failure an execution reports

An error carries the step that it is attributed to, and says whether it ends that step. Every error
that a call of a script answers is one of the running step and ends it (`runScript_reports`), and so
is what becomes of an output that was refused (`failureOf_of_firstRefusal`), of a message that a
script throws and of a panic (`failureOf_of_error?`). An error of the bridge that a script ends with
is taken over as it is, however the script came by it. So the failure of a step is attributed to it
exactly if such an error is; one that a script has made up may name another step, or be of a kind
that ends none.
-/

namespace StepRelay

/-! ## What a script can be told

The errors that reach a script come from its own calls, and each of them is of the invocation that
the call was made in. So none of them needs to be looked at closer than that.
-/

/-- The error is attributed to the step, and ends it. -/
structure StepError.FailureOf (step : StepId) (error : StepError) : Prop where
  step : error.step = step
  fatal : error.isFatal = true

/-- Whether a script has been given an error by a call: as the answer to a write, or by the inputs,
which have no value under some name that it required. -/
def Exchange.Reports (error : StepError) : Exchange → Prop
  | ⟨.set .., answer⟩ => answer = .error error
  | ⟨.setOutput .., answer⟩ => answer = .error error
  | ⟨.inputs, answer⟩ => ∃ name, answer.require name = .error error
  | _ => False

/-- A refusal of an output is reported by the call that wrote it. -/
theorem Exchange.reports_of_refusal {exchange : Exchange} {attempt : Attempt}
    (hasked : exchange.attempt? = some attempt) {error : StepError}
    (h : attempt.refusal? = some error) : exchange.Reports error := by
  have houtcome : attempt.outcome = .error error := by
    unfold Attempt.refusal? at h
    split at h
    · next hserialization =>
      rw [hserialization, Option.some.inj h]
    · cases h
  obtain ⟨call, answer⟩ := exchange
  -- only the two writes ask for anything that can be refused
  cases call with
  | set name value | setOutput name value =>
    rw [← Option.some.inj hasked] at houtcome
    exact houtcome
  | inputs | state | log | pause => cases hasked

/-- An input that is missing fails the step whose inputs they are. -/
theorem Inputs.failureOf_of_require {inputs : Inputs} {name : String} {error : StepError}
    (h : inputs.require name = .error error) : error.FailureOf inputs.step := by
  unfold require at h
  split at h
  · cases h
  · cases h
    exact ⟨rfl, rfl⟩

namespace Invocation

/-- A write to the state that is refused fails the step: the name is taken by an input or by an
output. -/
theorem failureOf_of_set {invocation : Invocation} {clock : Clock} {name : String} {value : Value}
    {error : StepError} (h : (invocation.set clock name value).outcome = .error error) :
    error.FailureOf invocation.step := by
  rcases set_cases invocation clock name value with ⟨-, hset⟩ | ⟨-, hset⟩
  · rw [hset] at h
    cases h
  · rw [hset] at h
    cases h
    exact ⟨rfl, rfl⟩

/-- So does a write to the outputs, refused for its name or for want of a text. -/
theorem failureOf_of_setOutput {invocation : Invocation} {clock : Clock} {name : String}
    {value : Value} {error : StepError}
    (h : (invocation.setOutput clock name value).outcome = .error error) :
    error.FailureOf invocation.step := by
  rcases setOutput_cases invocation clock name value with
    ⟨-, -, hset⟩ | ⟨-, hset⟩ | ⟨-, source, -, hset⟩
  · rw [hset] at h
    cases h
  · rw [hset] at h
    cases h
    exact ⟨rfl, rfl⟩
  · rw [hset] at h
    cases h
    exact ⟨rfl, rfl⟩

end Invocation

namespace Supervisor

/-- An error that a call answers is that of the invocation which the call was made in. -/
theorem perform_reports {invocation : Invocation}
    (hinputs : invocation.inputs.step = invocation.step) {s : Supervisor} {call : Call}
    {error : StepError}
    (h : Exchange.Reports error ⟨call, (s.perform invocation call).2.2⟩) :
    error.FailureOf invocation.step := by
  cases call with
  | inputs =>
    obtain ⟨name, hrequire⟩ := h
    exact hinputs ▸ Inputs.failureOf_of_require hrequire
  | set name value => exact Invocation.failureOf_of_set h
  | setOutput name value => exact Invocation.failureOf_of_setOutput h
  | state | log | pause => exact h.elim

/-- No call of a script answers an error of another step. -/
theorem runScript_reports (script : Script) (s : Supervisor) {invocation : Invocation}
    (hinputs : invocation.inputs.step = invocation.step) {transcript : List Exchange}
    (h : ∀ exchange ∈ transcript, ∀ error, exchange.Reports error →
      error.FailureOf invocation.step) :
    ∀ exchange ∈ (runScript script s invocation transcript).2.2.1, ∀ error,
      exchange.Reports error → error.FailureOf invocation.step := by
  induction script generalizing s invocation transcript with
  | ends outcome => exact h
  | call call next ih =>
    have hcontinues := continues_perform s invocation call
    have hstep : (s.perform invocation call).2.1.step = invocation.step := hcontinues.step
    have hkept : (s.perform invocation call).2.1.inputs.step =
        (s.perform invocation call).2.1.step := by
      rw [hcontinues.inputs, hstep, hinputs]
    -- the step stays the same along the calls, and its inputs with it
    rw [← hstep]
    refine ih _ _ hkept ?_
    rw [hstep]
    intro exchange hexchange error hreports
    rcases List.mem_append.1 hexchange with hearlier | hlast
    · -- a call that was made before
      exact h exchange hearlier error hreports
    · rw [List.mem_singleton.1 hlast] at hreports
      exact perform_reports hinputs hreports

/-- That holds from the begin on: the first calls find the step's own inputs. -/
theorem execute_reports (s : Supervisor) (request : StepRequest) (script : Script) :
    ∀ exchange ∈ (s.execute request script).2.transcript, ∀ error, exchange.Reports error →
      error.FailureOf request.step := by
  have hcontinues := Invocation.continues_markRunning (s.begin request).2
  have hstep : (s.begin request).2.markRunning.step = request.step := hcontinues.step
  have hinputs : (s.begin request).2.markRunning.inputs.step =
      (s.begin request).2.markRunning.step := by
    rw [hcontinues.inputs, hstep]
    rfl
  rw [← hstep]
  exact runScript_reports script (s.begin request).1 hinputs (List.forall_mem_nil _)

/-! ## What an execution reports

An execution reports the error that its script ends with, or the fatal error of its invocation. Only
in the first case can the error be one that the script has made up.
-/

/-- An output that was refused for want of a text fails the step. -/
theorem failureOf_of_firstRefusal {step : StepId} {transcript : List Exchange}
    (h : ∀ exchange ∈ transcript, ∀ error, exchange.Reports error → error.FailureOf step)
    {error : StepError}
    (hrefusal : Attempt.firstRefusal? (transcript.filterMap Exchange.attempt?) = some error) :
    error.FailureOf step := by
  obtain ⟨attempt, hattempt, herror⟩ := List.exists_of_findSome?_eq_some hrefusal
  obtain ⟨exchange, hexchange, hasked⟩ := List.mem_filterMap.1 hattempt
  exact h exchange hexchange error (Exchange.reports_of_refusal hasked herror)

/-- A script's end other than with an error of the bridge is reported as a failure of the step. -/
theorem failureOf_of_error? {step : StepId} {outcome : Outcome}
    (h : ∀ raised, outcome ≠ .failed (.bridge raised)) {error : StepError}
    (herror : outcome.error? step = some error) : error.FailureOf step := by
  cases outcome with
  | returned => cases herror
  | failed raised =>
    cases raised with
    -- such an error is passed on as it is, whatever step it names
    | bridge raised => exact absurd rfl (h raised)
    | thrown message =>
      cases herror
      exact ⟨rfl, rfl⟩
  | panicked message =>
    cases message <;> cases herror <;> exact ⟨rfl, rfl⟩

/-- **A failed execution reports the failure of its step**, unless its script raises an error that
is none. In every state of the supervisor, for every request and every script, whose end follows
from the answers that it got:

* every error that the script was given by a call is attributed to the step of the request, and ends
  it;
* if the execution fails, the newest record of the step is a failed one, with the very error that is
  reported;
* if the script ended with an error of the bridge, the execution reports that one;
* the error is attributed to the step of the request and ends it exactly if the script did not end
  with an error of the bridge that is not so. -/
theorem failure_attributed (s : Supervisor) (request : StepRequest) (script : Script) :
    let after := (s.execute request script).1
    let execution := (s.execute request script).2
    (∀ exchange ∈ execution.transcript, ∀ error, exchange.Reports error →
      error.FailureOf request.step) ∧
    ∃ outcome, script.Ends execution.transcript outcome ∧
      ∀ error, execution.result = .error error →
        (∃ record, after.record? request.step = some record ∧ record.phase = .failed ∧
          record.failure = some error) ∧
        (∀ raised, outcome = .failed (.bridge raised) → error = raised) ∧
        (error.FailureOf request.step ↔
          ∀ raised, outcome = .failed (.bridge raised) → raised.FailureOf request.step) := by
  intro after execution
  have hreports := s.execute_reports request script
  obtain ⟨ran, invocation, outcome, -, -, hends, hcontinues, hreflects, hafter, hresult⟩ :=
    execute_cases s request script
  have hstep : invocation.step = request.step := hcontinues.step
  refine ⟨hreports, outcome, hends, ?_⟩
  intro error herror
  rcases ran.settle_cases hreflects.tidy outcome with
    ⟨failure, hfailure, hsettle⟩ | ⟨-, -, publication, hok, -⟩
  · -- the execution failed
    have hfail : after = ran.fail invocation failure := hafter.trans (by rw [hsettle])
    have hsame : error = failure := by
      rw [hresult, hsettle] at herror
      cases herror
      rfl
    subst hsame
    have hbridge : ∀ raised, outcome = .failed (.bridge raised) → error = raised := by
      rintro raised rfl
      exact (Option.some.inj hfailure).symm
    refine ⟨?_, hbridge, fun hof raised hraised => hbridge raised hraised ▸ hof, ?_⟩
    · -- what was archived last is the newest record of the step
      have hnewest := ran.archive.latest?_push {
        step := invocation.step
        phase := .failed
        inputs := invocation.inputs.values
        state := invocation.state
        outputs := invocation.outputs
        failure := some error }
      rw [← fail_archive, ← hfail, hstep] at hnewest
      exact ⟨_, hnewest, rfl, rfl⟩
    · intro hraised
      by_cases hany : ∃ raised, outcome = .failed (.bridge raised)
      · -- the script raised an error of the bridge, and that is what is reported
        obtain ⟨raised, houtcome⟩ := hany
        exact hbridge raised houtcome ▸ hraised raised houtcome
      · -- what the step fails with then is of the library's own making
        rw [hstep, hreflects.fatal, Option.or_eq_some_iff] at hfailure
        rcases hfailure with hended | ⟨-, hrefusal⟩
        · exact failureOf_of_error? (fun raised houtcome => hany ⟨raised, houtcome⟩) hended
        · exact failureOf_of_firstRefusal hreports hrefusal
  · rw [hresult, hok] at herror
    cases herror

/-- A script that raises an ambiguity of the step `b`, in whichever step it runs. -/
def forging : Script := .ends (.failed (.bridge (.ambiguity "x" ⟨"b"⟩ ⟨"c"⟩)))

/-- Not every failed execution reports a failure of its step, and not every failed record holds
one. -/
theorem not_every_failure_attributed :
    ¬ ∀ (s : Supervisor) (request : StepRequest) (script : Script) (error : StepError),
      (s.execute request script).2.result = .error error →
      error.FailureOf request.step ∧
        ∃ record, (s.execute request script).1.record? request.step = some record ∧
          record.phase = .failed ∧
          ∃ failure, record.failure = some failure ∧ failure.FailureOf request.step := by
  intro hall
  obtain ⟨⟨hstep, -⟩, -⟩ := hall (new {}) { step := ⟨"a"⟩ } forging _ rfl
  exact absurd hstep (by decide)

end Supervisor

end StepRelay
