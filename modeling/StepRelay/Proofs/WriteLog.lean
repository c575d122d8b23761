import Mathlib.Data.List.Induction
import StepRelay.Proofs.Invocation

/-!
# A store and the writes that made it

A store keeps no history. Still, what it holds and what it will accept follow from the writes that
were asked of it and from their outcomes. `write_cases` says all that a write can do; from it `Logs`
is kept by every write (`Logs.attempt`), and `writes_logged` reads the store off the log.
-/

namespace StepRelay

/-- The other one of the two kinds that a script can write. -/
def CellKind.rival? : CellKind → Option CellKind
  | .input => none
  | .state => some .output
  | .output => some .state

theorem CellKind.ne_of_rival? {kind rival : CellKind} (h : kind.rival? = some rival) :
    rival ≠ kind := by
  rintro rfl
  cases rival <;> cases h

/-- A write that is asked of a store, at a reading of the clock which the store shares with
others. -/
structure WriteCall where
  kind : CellKind
  name : String
  value : Value
  clock : Clock

namespace StepStore

/-! ## One write

A write looks at the kind it is for, then at the rival kind: a name there is a refusal. Otherwise it
puts one cell. That is all that later proofs need to know of `write`.
-/

/-- What an accepted write changes: the cell of one name among the cells of one kind. -/
structure Accepts (before after : StepStore) (kind : CellKind) (name : String) (value : Value)
    (time : LogicalTime) : Prop where
  step : after.step = before.step
  here : after.cells kind = put (before.cells kind) before.step name value kind time
  elsewhere : ∀ other, other ≠ kind → after.cells other = before.cells other

/-- A write is refused for an input, and for a name that is held by the rival kind. -/
theorem write_cases (store : StepStore) (clock : Clock) (name : String) (value : Value)
    (kind : CellKind) :
    (kind.rival? = none ∧
      store.write clock name value kind = .error (.readOnlyInput store.step name)) ∨
    (∃ rival, kind.rival? = some rival ∧ (store.cells rival).contains name = true ∧
      store.write clock name value kind = .error (.kindConflict store.step name rival kind)) ∨
    (∃ rival, kind.rival? = some rival ∧ (store.cells rival).contains name = false ∧
      ∃ after, store.write clock name value kind = .ok (after, clock.tick) ∧
        Accepts store after kind name value clock.tick.now) := by
  -- inputs are never written; state and outputs are each other's rivals
  cases kind with
  | input => exact .inl ⟨rfl, rfl⟩
  | state =>
    cases h : store.outputs.contains name with
    | true => exact .inr (.inl ⟨.output, rfl, h, by simp [write, h]⟩)
    | false =>
      have hwrite : store.write clock name value .state = .ok ({ store with
          state := put store.state store.step name value .state clock.tick.now }, clock.tick) := by
        simp [write, h]
      -- the cells of the other two kinds are not touched
      refine .inr (.inr ⟨.output, rfl, h, _, hwrite, rfl, rfl, ?_⟩)
      intro other hother
      cases other with
      | state => exact absurd rfl hother
      | input | output => rfl
  | output =>
    cases h : store.state.contains name with
    | true => exact .inr (.inl ⟨.state, rfl, h, by simp [write, h]⟩)
    | false =>
      have hwrite : store.write clock name value .output = .ok ({ store with
          outputs := put store.outputs store.step name value .output clock.tick.now },
          clock.tick) := by
        simp [write, h]
      refine .inr (.inr ⟨.state, rfl, h, _, hwrite, rfl, rfl, ?_⟩)
      intro other hother
      cases other with
      | output => exact absurd rfl hother
      | input | state => rfl

/-- Makes a write, which comes to an attempt; a refused one leaves the store as it is. -/
def attempt (store : StepStore) (call : WriteCall) : StepStore × Attempt :=
  match store.write call.clock call.name call.value call.kind with
  | .ok (after, _) => (after, ⟨call.kind, call.name, call.value, .ok ()⟩)
  | .error error => (store, ⟨call.kind, call.name, call.value, .error error⟩)

/-! ## What the log of a store says

The log holds every write that was asked for, with its outcome. A store is in step with it when its
cells are the accepted ones.
-/

/-- A store holds what the attempts of a log came to. -/
structure Logs (store : StepStore) (owner : StepId) (inputs : OrderedMap Cell)
    (log : List Attempt) : Prop where
  step : store.step = owner
  inputs : store.inputs = inputs
  fit : ∀ kind, kind ≠ .input → CellsFit (store.cells kind) owner kind
  held : ∀ kind, kind ≠ .input → store.values kind = .ofPairs (Attempt.accepted kind log)
  apart : ∀ name, name ∈ store.state.keys → name ∉ store.outputs.keys

/-- A store that was just made is in step with the empty log. -/
theorem logs_ofInputs (owner : StepId) (inputs : List Cell) :
    (ofInputs owner inputs).Logs owner (Cell.byName inputs) [] := by
  refine ⟨rfl, rfl, ?_, ?_, fun name hname => nomatch hname⟩
  · -- nothing has been written yet, so there is nothing to check
    intro kind hkind
    cases kind with
    | input => exact absurd rfl hkind
    | state | output => exact cellsFit_empty owner _
  · intro kind hkind
    cases kind with
    | input => exact absurd rfl hkind
    | state | output => rfl

/-- That the two kinds share no name may be said from either side. -/
theorem apart_iff (store : StepStore) {kind rival : CellKind} (h : kind.rival? = some rival) :
    (∀ name, name ∈ store.state.keys → name ∉ store.outputs.keys) ↔
      ∀ name, name ∈ (store.cells kind).keys → name ∉ (store.cells rival).keys := by
  cases kind with
  | input => cases h
  | state =>
    cases h
    rfl
  | output =>
    cases h
    -- the same statement with its two sides swapped
    exact ⟨fun h name hname hother => h name hother hname,
      fun h name hname hother => h name hother hname⟩

section Logs

variable {store : StepStore} {owner : StepId} {inputs : OrderedMap Cell} {log : List Attempt}

/-- The names held under a kind are those that were written so with success. -/
theorem Logs.mem_keys_iff (h : store.Logs owner inputs log) {kind : CellKind}
    (hkind : kind ≠ .input) (name : String) :
    name ∈ (store.cells kind).keys ↔ name ∈ (Attempt.accepted kind log).keys := by
  have hkeys := congrArg OrderedMap.keys (h.held kind hkind)
  rw [values, OrderedMap.keys_map, OrderedMap.keys_ofPairs] at hkeys
  rw [hkeys, List.mem_eraseDups]

/-- A refused attempt leaves what is held as it was. -/
theorem Logs.refused (h : store.Logs owner inputs log) (kind : CellKind) (name : String)
    (value : Value) (error : StepError) :
    store.Logs owner inputs (log ++ [⟨kind, name, value, .error error⟩]) := by
  refine ⟨h.step, h.inputs, h.fit, ?_, h.apart⟩
  intro other hother
  rw [h.held other hother, Attempt.accepted_concat]
  simp [Attempt.accepted?]

/-- An accepted attempt adds its value to the kind that it wrote. -/
theorem Logs.accepted (h : store.Logs owner inputs log) {after : StepStore} {kind rival : CellKind}
    (hrival : kind.rival? = some rival) {name : String}
    (hfree : (store.cells rival).contains name = false) {value : Value} {time : LogicalTime}
    (haccepts : store.Accepts after kind name value time) :
    after.Logs owner inputs (log ++ [⟨kind, name, value, .ok ()⟩]) := by
  have hkind : kind ≠ .input := by
    rintro rfl
    cases hrival
  have hhere := haccepts.here
  -- the four facts follow from where the cell was put: inputs, fit, values, and names kept apart
  rw [h.step] at hhere
  refine ⟨haccepts.step.trans h.step, ?_, ?_, ?_, ?_⟩
  · exact (haccepts.elsewhere .input (Ne.symm hkind)).trans h.inputs
  · intro other hother
    by_cases heq : other = kind
    · subst heq
      rw [hhere]
      exact (h.fit other hother).put name value time
    · rw [haccepts.elsewhere other heq]
      exact h.fit other hother
  · intro other hother
    rw [Attempt.accepted_concat, values]
    have hbefore : (store.cells other).map Cell.value = _ := h.held other hother
    by_cases heq : other = kind
    · subst heq
      rw [hhere, Invocation.map_put (h.fit other hother), hbefore]
      -- a value put on top of the old ones is one more accepted pair
      simp [Attempt.accepted?, OrderedMap.ofPairs_concat]
    · rw [haccepts.elsewhere other heq, hbefore]
      simp [Attempt.accepted?, Ne.symm heq]
  · rw [apart_iff after hrival, haccepts.elsewhere rival (CellKind.ne_of_rival? hrival), hhere,
      put_eq_insert (h.fit kind hkind)]
    intro other hother
    rw [OrderedMap.keys_insert] at hother
    -- only the written name can be new to the kind, and the rival kind does not hold it
    have hcases : other ∈ (store.cells kind).keys ∨ other = name := by
      split at hother
      · exact .inl hother
      · simpa using hother
    rcases hcases with hold | rfl
    · exact (apart_iff store hrival).1 h.apart other hold
    · rw [← OrderedMap.contains_iff, hfree]
      exact Bool.false_ne_true

/-- Every write leaves the store in step with the log. -/
theorem Logs.attempt (h : store.Logs owner inputs log) (call : WriteCall) :
    (store.attempt call).1.Logs owner inputs (log ++ [(store.attempt call).2]) := by
  -- two refusals and one acceptance
  rcases store.write_cases call.clock call.name call.value call.kind with
    ⟨-, hwrite⟩ | ⟨rival, -, -, hwrite⟩ | ⟨rival, hrival, hfree, after, hwrite, haccepts⟩
  · simp only [StepStore.attempt, hwrite]
    exact h.refused ..
  · simp only [StepStore.attempt, hwrite]
    exact h.refused ..
  · simp only [StepStore.attempt, hwrite]
    exact h.accepted hrival hfree haccepts

/-- A write is accepted exactly if its kind has a rival, and the log has no success of the rival
kind under the name. -/
theorem Logs.attempt_ok_iff (h : store.Logs owner inputs log) (call : WriteCall) :
    (store.attempt call).2.outcome = .ok () ↔
      ∃ rival, call.kind.rival? = some rival ∧
        call.name ∉ (Attempt.accepted rival log).keys := by
  -- what the store checks is what the log says
  have hheld {rival : CellKind} (hrival : call.kind.rival? = some rival) :
      (store.cells rival).contains call.name = true ↔
        call.name ∈ (Attempt.accepted rival log).keys := by
    have hne : rival ≠ .input := by
      rintro rfl
      cases hkind : call.kind <;> rw [hkind] at hrival <;> cases hrival
    rw [OrderedMap.contains_iff, h.mem_keys_iff hne]
  rcases store.write_cases call.clock call.name call.value call.kind with
    ⟨hnone, hwrite⟩ | ⟨rival, hrival, htaken, hwrite⟩ | ⟨rival, hrival, hfree, after, hwrite, -⟩
  · simp [StepStore.attempt, hwrite, hnone]
  · simp [StepStore.attempt, hwrite, hrival, (hheld hrival).1 htaken]
  · have hname : call.name ∉ (Attempt.accepted rival log).keys := by
      rw [← hheld hrival, hfree]
      exact Bool.false_ne_true
    simp [StepStore.attempt, hwrite, hrival, hname]

end Logs

/-! ## All writes

The induction is on the writes from their end, with one write per step.
-/

/-- The store after some writes. -/
def afterAll (store : StepStore) (calls : List WriteCall) : StepStore :=
  calls.foldl (fun store call => (store.attempt call).1) store

/-- What some writes came to, in order. -/
def attempts : StepStore → List WriteCall → List Attempt
  | _, [] => []
  | store, call :: rest => (store.attempt call).2 :: attempts (store.attempt call).1 rest

/-- One more write is made on what the others left. -/
theorem afterAll_concat (store : StepStore) (calls : List WriteCall) (call : WriteCall) :
    store.afterAll (calls ++ [call]) = ((store.afterAll calls).attempt call).1 := by
  simp [afterAll]

/-- One more write adds one attempt at the end. -/
theorem attempts_concat (store : StepStore) (calls : List WriteCall) (call : WriteCall) :
    store.attempts (calls ++ [call]) =
      store.attempts calls ++ [((store.afterAll calls).attempt call).2] := by
  induction calls generalizing store with
  | nil => rfl
  | cons first rest ih => simp [attempts, afterAll, ih]

/-- The attempts of the first writes are the first attempts. -/
theorem attempts_take (store : StepStore) (calls : List WriteCall) (i : Nat) :
    store.attempts (calls.take i) = (store.attempts calls).take i := by
  induction calls generalizing store i with
  | nil => simp [attempts]
  | cons first rest ih =>
    -- along both lists
    cases i with
    | zero => rfl
    | succ i => simp [attempts, ih]

/-- The attempt at a position is the write there, made on what the writes before it left. -/
theorem getElem?_attempts (store : StepStore) (calls : List WriteCall) (i : Nat) :
    (store.attempts calls)[i]? =
      calls[i]?.map fun call => ((store.afterAll (calls.take i)).attempt call).2 := by
  induction calls generalizing store i with
  | nil => rfl
  | cons first rest ih =>
    cases i with
    | zero => rfl
    | succ i => simp [attempts, afterAll, ih]

/-- Writes keep a store in step with their log. -/
theorem logs_attempts (owner : StepId) (inputs : List Cell) (calls : List WriteCall) :
    ((ofInputs owner inputs).afterAll calls).Logs owner (Cell.byName inputs)
      ((ofInputs owner inputs).attempts calls) := by
  induction calls using List.reverseRecOn with
  | nil => exact logs_ofInputs owner inputs
  | append_singleton calls call ih =>
    rw [afterAll_concat, attempts_concat]
    exact ih.attempt call

/-- An attempt says what was asked for. -/
theorem attempt_call (store : StepStore) (call : WriteCall) :
    (store.attempt call).2 =
      ⟨call.kind, call.name, call.value, (store.attempt call).2.outcome⟩ := by
  unfold attempt
  split <;> rfl

/-- A name that was written with success is of the kind for which it was. -/
theorem Logs.kindOf_eq {store : StepStore} {owner : StepId} {inputs : OrderedMap Cell}
    {log : List Attempt} (h : store.Logs owner inputs log) {kind : CellKind}
    (hkind : kind ≠ .input) {name : String} (hname : name ∈ (Attempt.accepted kind log).keys) :
    store.kindOf name = some kind := by
  rw [← h.mem_keys_iff hkind] at hname
  have hheld : (store.cells kind).contains name = true := (OrderedMap.contains_iff _ _).2 hname
  cases kind with
  | input => exact absurd rfl hkind
  | state => exact (kindOf_eq_state_iff store name).2 hheld
  | output =>
    -- a look-up tries the state first, which holds no output's name
    have hstate : store.state.contains name = false := by
      rw [Bool.eq_false_iff, ne_eq, OrderedMap.contains_iff]
      exact fun hstate => h.apart name hstate hname
    have houtputs : store.outputs.contains name = true := hheld
    simp [kindOf, cells, hstate, houtputs]

/-- **A store is a log of the writes of two kinds.** Whatever inputs a store began with and whatever
was asked of it since, at whichever readings of its clock:

* a write was accepted exactly if it was for one of the kinds that can be written, and no earlier
  one of the same name had been accepted for the other;
* no name is held as state and as output;
* each kind holds, in the order of the first accepted write, the value of the last accepted write,
  in a cell under its own name, of that kind and from the store's step;
* a name that was written with success is of the kind for which it was;
* the inputs are those of the beginning. -/
theorem writes_logged (owner : StepId) (inputs : List Cell) (calls : List WriteCall) :
    let store := (ofInputs owner inputs).afterAll calls
    let log := (ofInputs owner inputs).attempts calls
    (∀ i call, calls[i]? = some call → ∃ outcome,
      log[i]? = some ⟨call.kind, call.name, call.value, outcome⟩ ∧
      (outcome = .ok () ↔ ∃ rival, call.kind.rival? = some rival ∧
        call.name ∉ (Attempt.accepted rival (log.take i)).keys)) ∧
    (∀ name, ¬ (name ∈ store.state.keys ∧ name ∈ store.outputs.keys)) ∧
    (∀ kind, kind ≠ .input →
      (store.values kind).keys = (Attempt.accepted kind log).keys.eraseDups ∧
      (∀ name, (store.values kind).get? name = (Attempt.accepted kind log).last? name) ∧
      (∀ name cell, (store.cells kind).get? name = some cell →
        cell.name = name ∧ cell.origin = owner ∧ cell.kind = kind) ∧
      (∀ name ∈ (Attempt.accepted kind log).keys, store.kindOf name = some kind)) ∧
    store.inputs = (ofInputs owner inputs).inputs := by
  intro store log
  have hlogs : store.Logs owner (Cell.byName inputs) log := logs_attempts owner inputs calls
  refine ⟨?_, ?_, ?_, hlogs.inputs⟩
  · intro i call hcall
    -- the writes before this one have a log of their own, which is the first part of the whole log
    have hbefore := logs_attempts owner inputs (calls.take i)
    rw [attempts_take] at hbefore
    refine ⟨_, ?_, hbefore.attempt_ok_iff call⟩
    rw [getElem?_attempts, hcall, Option.map_some, ← attempt_call]
  · rintro name ⟨hstate, houtputs⟩
    exact hlogs.apart name hstate houtputs
  · intro kind hkind
    refine ⟨?_, ?_, hlogs.fit kind hkind, ?_⟩
    · rw [hlogs.held kind hkind, OrderedMap.keys_ofPairs]
    · intro name
      rw [hlogs.held kind hkind, OrderedMap.get?_ofPairs]
    · intro name hname
      exact hlogs.kindOf_eq hkind hname

end StepStore

end StepRelay
