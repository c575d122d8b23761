import StepRelay.Proofs.Conversion
import StepRelay.Proofs.EventStream

/-!
# Writes that are refused

What a script may write is decided by two questions, first whether the name is held by the rival
kind, then whether the value has a tree (`Invocation.setOutput_outcome`). Any call makes a pending
invocation a running one; a refusal changes nothing else but the slot of the fatal error, and that
one only if it is the first for want of a tree (`Invocation.fatal_serve`). So after any calls the
slot holds the first such answer (`Invocation.fatal_afterCalls`), whatever was accepted since.
-/

namespace StepRelay

/-- What a script asks for when it writes. -/
inductive BindingCall where
  | set (name : String) (value : Value)
  | setOutput (name : String) (value : Value)

/-- The error of an output that has no tree, if that is what a call answered. -/
def serialization? : Except StepError Unit → Option StepError
  | .error (.serialization step name source) => some (.serialization step name source)
  | _ => none

namespace Invocation

/-- Serves a call at a reading of the clock. -/
def serve (invocation : Invocation) (clock : Clock) : BindingCall → Written
  | .set name value => invocation.set clock name value
  | .setOutput name value => invocation.setOutput clock name value

/-- The invocation after some calls, each with the reading of the clock that it met: others may have
ticked the clock in between. -/
def afterCalls (invocation : Invocation) (calls : List (Clock × BindingCall)) : Invocation :=
  calls.foldl (fun invocation call => (invocation.serve call.1 call.2).invocation) invocation

/-- What some calls answered, in order. -/
def answers : Invocation → List (Clock × BindingCall) → List (Except StepError Unit)
  | _, [] => []
  | invocation, (clock, call) :: rest =>
    (invocation.serve clock call).outcome :: answers (invocation.serve clock call).invocation rest

/-! ## One call

Each lemma goes through the outcomes that `set_cases` and `setOutput_cases` list.
-/

/-- A name is held as state if its cell is. -/
theorem mem_state_iff (invocation : Invocation) (name : String) :
    name ∈ invocation.state.keys ↔ invocation.store.state.contains name = true := by
  rw [state_eq, OrderedMap.keys_map, OrderedMap.contains_iff]

theorem mem_outputs_iff (invocation : Invocation) (name : String) :
    name ∈ invocation.outputs.keys ↔ invocation.store.outputs.contains name = true := by
  rw [outputs_eq, OrderedMap.keys_map, OrderedMap.contains_iff]

/-- Whether a state value is accepted is a matter of its name. -/
theorem set_outcome (invocation : Invocation) (clock : Clock) (name : String) (value : Value) :
    (invocation.set clock name value).outcome =
      if name ∈ invocation.outputs.keys then
        .error (.kindConflict invocation.step name .output .state)
      else .ok () := by
  have hheld := invocation.mem_outputs_iff name
  rcases invocation.set_cases clock name value with ⟨hfree, hset⟩ | ⟨htaken, hset⟩
  · rw [hset, if_neg (mt hheld.1 (Bool.eq_false_iff.1 hfree))]
  · rw [hset, if_pos (hheld.2 htaken)]

/-- An output is asked for its tree only if its name holds no state. -/
theorem setOutput_outcome (invocation : Invocation) (clock : Clock) (name : String)
    (value : Value) :
    (invocation.setOutput clock name value).outcome =
      if name ∈ invocation.state.keys then
        .error (.kindConflict invocation.step name .state .output)
      else (Value.firstNonFinite? value.doubles).elim (.ok ()) fun find =>
        .error (.serialization invocation.step name
          (.nonFinite (Segment.path "$" find.1) find.2)) := by
  have hheld := invocation.mem_state_iff name
  have hfailure : failure? value.toJson = _ := Value.failure?_toJsonAt "$" value
  rcases invocation.setOutput_cases clock name value with
    ⟨hfree, ⟨json, hjson⟩, hset⟩ | ⟨htaken, hset⟩ | ⟨hfree, source, hjson, hset⟩
  · -- accepted: there is a tree, so every double is finite
    rw [hjson, failure?, eq_comm, Option.map_eq_none_iff] at hfailure
    rw [hset, if_neg (mt hheld.1 (Bool.eq_false_iff.1 hfree)), hfailure]
    rfl
  · rw [hset, if_pos (hheld.2 htaken)]
  · -- there is none, and the error names the first double to blame
    rw [hjson, failure?, eq_comm, Option.map_eq_some_iff] at hfailure
    obtain ⟨find, hfirst, hreport⟩ := hfailure
    rw [hset, if_neg (mt hheld.1 (Bool.eq_false_iff.1 hfree)), hfirst, ← hreport]
    rfl

/-- A refusal leaves all but the phase and the fatal error as they were. -/
theorem serve_refused {invocation : Invocation} {clock : Clock} {call : BindingCall}
    {error : StepError} (h : (invocation.serve clock call).outcome = .error error) :
    (invocation.serve clock call).invocation.store = invocation.store ∧
      (invocation.serve clock call).invocation.inputs = invocation.inputs ∧
      (invocation.serve clock call).clock = clock := by
  -- an accepted write contradicts the refusal; the refused ones change the phase and the fatal
  -- error at most
  cases call with
  | set name value =>
    rw [serve] at h ⊢
    rcases invocation.set_cases clock name value with ⟨-, hset⟩ | ⟨-, hset⟩
    · rw [hset] at h
      cases h
    · rw [hset]
      exact ⟨markRunning_store invocation, markRunning_inputs invocation, rfl⟩
  | setOutput name value =>
    rw [serve] at h ⊢
    rcases invocation.setOutput_cases clock name value with
      ⟨-, -, hset⟩ | ⟨-, hset⟩ | ⟨-, source, -, hset⟩
    · rw [hset] at h
      cases h
    · rw [hset]
      exact ⟨markRunning_store invocation, markRunning_inputs invocation, rfl⟩
    · rw [hset]
      exact ⟨markRunning_store invocation, markRunning_inputs invocation, rfl⟩

/-- The fatal error stays, and if there is none it becomes the answer of an output without a
tree. -/
theorem fatal_serve (invocation : Invocation) (clock : Clock) (call : BindingCall) :
    (invocation.serve clock call).invocation.fatal =
      invocation.fatal.or (serialization? (invocation.serve clock call).outcome) := by
  cases call with
  | set name value =>
    rw [serve]
    rcases invocation.set_cases clock name value with ⟨-, hset⟩ | ⟨-, hset⟩ <;> rw [hset] <;>
      simp [serialization?]
  | setOutput name value =>
    rw [serve]
    rcases invocation.setOutput_cases clock name value with
      ⟨-, -, hset⟩ | ⟨-, hset⟩ | ⟨-, source, -, hset⟩ <;> rw [hset] <;> simp [serialization?]

/-- A call is served by the invocation that it was made of. -/
theorem continues_serve (invocation : Invocation) (clock : Clock) (call : BindingCall) :
    invocation.Continues (invocation.serve clock call).invocation := by
  cases call with
  | set name value => exact continues_set invocation clock name value
  | setOutput name value => exact continues_setOutput invocation clock name value

/-! ## All calls

Inductions over the calls. The clock that a call meets is arbitrary, so others may write in between.
-/

theorem continues_afterCalls (invocation : Invocation) (calls : List (Clock × BindingCall)) :
    invocation.Continues (invocation.afterCalls calls) := by
  induction calls generalizing invocation with
  | nil => exact .refl invocation
  | cons call rest ih => exact (continues_serve invocation call.1 call.2).trans (ih _)

/-- The fatal error is the first answer for want of a tree, unless there was one before. -/
theorem fatal_afterCalls (invocation : Invocation) (calls : List (Clock × BindingCall)) :
    (invocation.afterCalls calls).fatal =
      invocation.fatal.or ((invocation.answers calls).findSome? serialization?) := by
  induction calls generalizing invocation with
  | nil => exact (Option.or_none).symm
  | cons call rest ih =>
    -- the first call may fill the slot, and the rest finds it so
    have hrest := ih (invocation.serve call.1 call.2).invocation
    rw [fatal_serve, Option.or_assoc] at hrest
    rw [afterCalls, List.foldl_cons, answers, List.findSome?_cons]
    refine hrest.trans ?_
    cases serialization? (invocation.serve call.1 call.2).outcome <;> rfl

/-- **A refused write changes nothing, and the first one for want of a tree decides how the
invocation ends.** After any calls of an invocation, whichever inputs it began with:

* a state value is refused exactly if its name is an output;
* an output is refused for its name exactly if that holds state, whatever the value; else exactly if
  some double is not finite, and the error names the first one; else it is accepted;
* a refused call leaves inputs, cells and clock as they were;
* the fatal error is the first answer for want of a tree, and no call takes it back;
* a commit answers with that error, leaves the table alone and announces nothing but the failure. -/
theorem calls_atomic (step : StepId) (cells : List Cell) (observed : LogicalTime)
    (calls : List (Clock × BindingCall)) :
    let begun := start step cells observed
    let invocation := begun.afterCalls calls
    (∀ clock name value,
      (invocation.set clock name value).outcome =
        if name ∈ invocation.outputs.keys then .error (.kindConflict step name .output .state)
        else .ok ()) ∧
    (∀ clock name value,
      (invocation.setOutput clock name value).outcome =
        if name ∈ invocation.state.keys then .error (.kindConflict step name .state .output)
        else (Value.firstNonFinite? value.doubles).elim (.ok ()) fun find =>
          .error (.serialization step name (.nonFinite (Segment.path "$" find.1) find.2))) ∧
    (∀ value : Value, Value.firstNonFinite? value.doubles = none ↔ value.AllFinite) ∧
    (∀ clock call error, (invocation.serve clock call).outcome = .error error →
      (invocation.serve clock call).invocation.store = invocation.store ∧
      (invocation.serve clock call).invocation.inputs = invocation.inputs ∧
      (invocation.serve clock call).clock = clock) ∧
    invocation.fatal = (begun.answers calls).findSome? serialization? ∧
    (∀ error, invocation.fatal = some error →
      (∀ more, (invocation.afterCalls more).fatal = some error) ∧
      (∀ s : Supervisor, (s.commit invocation).2 = .error error ∧
        (s.commit invocation).1.table = s.table ∧
        (s.commit invocation).1.events = s.events ++ [.failed step error.message])) := by
  intro begun invocation
  have hstep : invocation.step = step := (continues_afterCalls begun calls).step
  refine ⟨?_, ?_, Value.firstNonFinite?_eq_none_iff, fun clock call error => serve_refused,
    fatal_afterCalls begun calls, fun error hfatal => ⟨?_, ?_⟩⟩
  · intro clock name value
    rw [set_outcome, hstep]
  · intro clock name value
    rw [setOutput_outcome, hstep]
  · -- more calls find the slot filled
    intro more
    rw [fatal_afterCalls, hfatal, Option.some_or]
  · intro s
    rw [Supervisor.commit_of_fatal hfatal]
    refine ⟨rfl, s.fail_table invocation error, ?_⟩
    rw [Supervisor.fail_events, hstep]

/-- An output that was refused once decides the end, although its name was accepted later. -/
theorem calls_atomic_accepted_later :
    let calls : List (Clock × BindingCall) :=
      [(⟨4⟩, .setOutput "n" (.sequence [.float .nan])), (⟨7⟩, .setOutput "n" .null)]
    let invocation := (start ⟨"a"⟩ [] 0).afterCalls calls
    let error := StepError.serialization ⟨"a"⟩ "n" (.nonFinite "$[0]" .nan)
    invocation.outputs.keys = ["n"] ∧ invocation.fatal = some error ∧
      ∀ s : Supervisor, (s.commit invocation).2 = .error error ∧
        (s.commit invocation).1.table = s.table := by
  intro calls invocation error
  -- the first refusal stays the fatal one, though the second call is accepted
  have hfatal : invocation.fatal = some error := rfl
  obtain ⟨-, -, -, -, -, hends⟩ := calls_atomic ⟨"a"⟩ [] 0 calls
  obtain ⟨-, hcommit⟩ := hends error hfatal
  exact ⟨rfl, hfatal, fun s => ⟨(hcommit s).1, (hcommit s).2.1⟩⟩

end Invocation

end StepRelay
