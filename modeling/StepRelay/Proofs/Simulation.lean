import Mathlib.Data.List.Forall2
import StepRelay.Proofs.Execution
import StepRelay.Session

/-!
# Comparing two supervisors

Two supervisors may differ in something that none of their operations looks at. A `Simulation` says
what is left to compare, of supervisors and of the invocations on them, and that each single
operation keeps it. What is made of single operations keeps it then: the run of a script
(`runScript`), however far it has come (`advance`), whole executions (`execute`, `executeAsync`),
and every action of a session (`Sessions.act`).
-/

namespace StepRelay

open Supervisor

/-! ## Related options, lists and maps

The parts of a session are found by label or by index. What is found on both sides at one place is
related, or nothing is there on either side.
-/

section Related

variable {α β : Type} {r : α → β → Prop}

/-- Related options are both empty, or both hold something. -/
theorem rel_cases {x : Option α} {y : Option β} (h : Option.Rel r x y) :
    (x = none ∧ y = none) ∨ ∃ p q, x = some p ∧ y = some q ∧ r p q := by
  cases h with
  | some h => exact .inr ⟨_, _, rfl, rfl, h⟩
  | none => exact .inl ⟨rfl, rfl⟩

/-- Related lists hold related items at each place. -/
theorem rel_getElem? {xs : List α} {ys : List β} (h : List.Forall₂ r xs ys) (index : Nat) :
    Option.Rel r xs[index]? ys[index]? := by
  induction h generalizing index with
  | nil => exact .none
  | cons hhead _ ih =>
    cases index with
    | zero => exact .some hhead
    | succ index => exact ih index

/-- A related pair may be put in the same place of both. -/
theorem rel_set {xs : List α} {ys : List β} (h : List.Forall₂ r xs ys) {x : α} {y : β}
    (hxy : r x y) (index : Nat) : List.Forall₂ r (xs.set index x) (ys.set index y) := by
  induction h generalizing index with
  | nil => exact .nil
  | cons hhead hrest ih =>
    cases index with
    | zero => exact .cons hxy hrest
    | succ index => exact .cons hhead (ih index)

theorem rel_eraseIdx {xs : List α} {ys : List β} (h : List.Forall₂ r xs ys) (index : Nat) :
    List.Forall₂ r (xs.eraseIdx index) (ys.eraseIdx index) := by
  induction h generalizing index with
  | nil => exact .nil
  | cons hhead hrest ih =>
    cases index with
    | zero => exact hrest
    | succ index => exact .cons hhead (ih index)

namespace Entries

/-- The same keys in the same order, with related items. -/
def Rel (r : α → β → Prop) : Entries α → Entries β → Prop :=
  List.Forall₂ fun x y => x.1 = y.1 ∧ r x.2 y.2

variable {ours : Entries α} {theirs : Entries β} (h : Rel r ours theirs)

include h

/-- Related maps hold related items under each key. -/
theorem Rel.get? (key : String) : Option.Rel r (ours.get? key) (theirs.get? key) := by
  induction h with
  | nil => exact .none
  | @cons first other _ _ hhead _ ih =>
    obtain ⟨hkey, hitem⟩ := hhead
    simp only [Entries.get?, hkey]
    -- the keys are equal place by place, so both searches stop at the same place
    by_cases hfound : other.1 = key
    · rw [if_pos hfound, if_pos hfound]
      exact .some hitem
    · rw [if_neg hfound, if_neg hfound]
      exact ih

/-- A related pair may be put under one key in both. -/
theorem Rel.insert (key : String) {x : α} {y : β} (hxy : r x y) :
    Rel r (ours.insert key x) (theirs.insert key y) := by
  induction h with
  | nil => exact .cons ⟨rfl, hxy⟩ .nil
  | @cons first other _ _ hhead hrest ih =>
    simp only [Entries.insert, hhead.1]
    by_cases hfound : other.1 = key
    · rw [if_pos hfound, if_pos hfound]
      exact .cons ⟨rfl, hxy⟩ hrest
    · rw [if_neg hfound, if_neg hfound]
      exact .cons ⟨rfl, hhead.2⟩ ih

theorem Rel.erase (key : String) : Rel r (ours.erase key) (theirs.erase key) := by
  refine List.rel_filter ?_ h
  intro first other hhead
  show (first.1 != key) = true ↔ (other.1 != key) = true
  rw [hhead.1]

end Entries

end Related

/-! ## Simulations

The fields of a `Simulation` are the single operations of a supervisor, and nothing else has to be
proved of a relation. Scripts, executions and sessions are put together of them here, once for every
relation.
-/

/-- What two supervisors, and two invocations on them, have in common before and after every single
operation, with what the operation answers. -/
structure Simulation where
  states : Supervisor → Supervisor → Prop
  invocations : Invocation → Invocation → Prop
  step : ∀ {x y}, invocations x y → x.step = y.step
  inputs : ∀ {x y}, invocations x y → x.inputs = y.inputs
  markRunning : ∀ {x y}, invocations x y → invocations x.markRunning y.markRunning
  begin : ∀ {a b}, states a b → ∀ request,
    states (a.begin request).1 (b.begin request).1 ∧
      invocations (a.begin request).2 (b.begin request).2
  perform : ∀ {a b x y}, states a b → invocations x y → ∀ call,
    states (a.perform x call).1 (b.perform y call).1 ∧
      invocations (a.perform x call).2.1 (b.perform y call).2.1 ∧
      (a.perform x call).2.2 = (b.perform y call).2.2
  fail : ∀ {a b x y}, states a b → invocations x y → ∀ error,
    states (a.fail x error) (b.fail y error)
  commit : ∀ {a b x y}, states a b → invocations x y →
    states (a.commit x).1 (b.commit y).1 ∧ (a.commit x).2 = (b.commit y).2
  cancel : ∀ {a b}, states a b → ∀ inputs, states (a.cancel inputs).1 (b.cancel inputs).1
  log : ∀ {a b}, states a b → ∀ step level message,
    states (a.log step level message) (b.log step level message)

namespace Simulation

/-- Two scripts on their way that have come equally far. -/
structure Runnings (R : Simulation) (x y : Running) : Prop where
  invocation : R.invocations x.invocation y.invocation
  script : x.script = y.script
  transcript : x.transcript = y.transcript

/-- Two executions that answer the same, and leave the same of a cancelled script. -/
structure Executions (R : Simulation) (x y : Execution) : Prop where
  result : x.result = y.result
  transcript : x.transcript = y.transcript
  detached : Option.Rel R.Runnings x.detached y.detached

variable (R : Simulation) {a b : Supervisor} (h : R.states a b)

include h

/-- **A script makes the same calls in both, and gets the same answers.** -/
theorem runScript {x y : Invocation} (hxy : R.invocations x y) (script : Script)
    (transcript : List Exchange) :
    let ours := Supervisor.runScript script a x transcript
    let theirs := Supervisor.runScript script b y transcript
    R.states ours.1 theirs.1 ∧ R.invocations ours.2.1 theirs.2.1 ∧ ours.2.2 = theirs.2.2 := by
  induction script generalizing a b x y transcript with
  | ends outcome => exact ⟨h, hxy, rfl⟩
  | call call next ih =>
    -- the answers are equal, so the script goes on in the same way
    obtain ⟨hperform, hinvocation, hanswer⟩ := R.perform h hxy call
    simp only [Supervisor.runScript, hanswer]
    exact ih _ hperform hinvocation _

theorem settle {x y : Invocation} (hxy : R.invocations x y) (outcome : Outcome) :
    R.states (a.settle x outcome).1 (b.settle y outcome).1 ∧
      (a.settle x outcome).2 = (b.settle y outcome).2 := by
  have hstep := R.step hxy
  simp only [Supervisor.settle, hstep]
  cases outcome.error? y.step with
  | none => exact R.commit h hxy
  | some error => exact ⟨R.fail h hxy error, rfl⟩

section

variable {x y : Running} (hxy : R.Runnings x y)

include hxy

/-- What is left of a script is run alike. -/
theorem runRest :
    let ours := Supervisor.runScript x.script a x.invocation x.transcript
    let theirs := Supervisor.runScript y.script b y.invocation y.transcript
    R.states ours.1 theirs.1 ∧ R.invocations ours.2.1 theirs.2.1 ∧ ours.2.2 = theirs.2.2 := by
  rw [hxy.script, hxy.transcript]
  exact R.runScript h hxy.invocation y.script y.transcript

/-- Two scripts that come to their ends. -/
theorem join :
    let ours := Supervisor.runScript x.script a x.invocation x.transcript
    let theirs := Supervisor.runScript y.script b y.invocation y.transcript
    R.states (ours.1.settle ours.2.1 ours.2.2.2).1 (theirs.1.settle theirs.2.1 theirs.2.2.2).1 ∧
      (ours.1.settle ours.2.1 ours.2.2.2).2 = (theirs.1.settle theirs.2.1 theirs.2.2.2).2 ∧
      ours.2.2.1 = theirs.2.2.1 := by
  intro ours theirs
  obtain ⟨hran, hinvocation, hend⟩ := R.runRest h hxy
  obtain ⟨hsettled, hresult⟩ := R.settle hran hinvocation ours.2.2.2
  rw [← hend]
  exact ⟨hsettled, hresult, rfl⟩

/-- A script whose execution was cancelled comes to its end alike. -/
theorem finishDetached : R.states (a.finishDetached x).1 (b.finishDetached y).1 ∧
    (a.finishDetached x).2 = (b.finishDetached y).2 := by
  obtain ⟨hran, -, hend⟩ := R.runRest h hxy
  exact ⟨hran, congrArg Prod.fst hend⟩

/-- **A script on its way makes the next call in both, or has ended in both.** -/
theorem next? :
    Option.Rel (fun ours theirs => R.states ours.1 theirs.1 ∧ R.Runnings ours.2 theirs.2)
      (a.next? x) (b.next? y) := by
  obtain ⟨x, script, transcript⟩ := x
  obtain ⟨y, _, _⟩ := y
  obtain ⟨hinvocation, rfl, rfl⟩ := hxy
  -- the scripts are equal, so both have ended or both make the same call
  cases script with
  | ends outcome => exact .none
  | call call next =>
    obtain ⟨hperform, hafter, hanswer⟩ := R.perform h hinvocation call
    rw [next?_of_call, next?_of_call, hanswer]
    exact .some ⟨hperform, hafter, rfl, rfl⟩

theorem advance (calls : Nat) :
    R.states (a.advance calls x).1 (b.advance calls y).1 ∧
      R.Runnings (a.advance calls x).2.1 (b.advance calls y).2.1 ∧
      (a.advance calls x).2.2 = (b.advance calls y).2.2 := by
  induction calls generalizing a b x y with
  | zero => exact ⟨h, hxy, rfl⟩
  | succ calls ih =>
    rcases rel_cases (R.next? h hxy) with ⟨hours, htheirs⟩ | ⟨after, other, hours, htheirs, hnext⟩
    · simp only [Supervisor.advance, hours, htheirs]
      exact ⟨h, hxy, trivial⟩
    · simp only [Supervisor.advance, hours, htheirs]
      exact ih hnext.1 hnext.2

end

/-- A script is launched on related invocations. -/
theorem launch (request : StepRequest) (script : Script) :
    R.states (a.begin request).1 (b.begin request).1 ∧
      R.Runnings ⟨(a.begin request).2.markRunning, script, []⟩
        ⟨(b.begin request).2.markRunning, script, []⟩ := by
  obtain ⟨hbegun, hinvocation⟩ := R.begin h request
  exact ⟨hbegun, R.markRunning hinvocation, rfl, rfl⟩

/-- **Executions are answered alike.** -/
theorem execute (request : StepRequest) (script : Script) :
    R.states (a.execute request script).1 (b.execute request script).1 ∧
      R.Executions (a.execute request script).2 (b.execute request script).2 := by
  obtain ⟨hbegun, hrunning⟩ := R.launch h request script
  obtain ⟨hjoined, hresult, htranscript⟩ := R.join hbegun hrunning
  exact ⟨hjoined, hresult, htranscript, .none⟩

/-- **Cancelled executions as well**: the cancellation comes at the same call. -/
theorem executeAsync (request : StepRequest) (script : Script) (cancellation : Cancellation) :
    R.states (a.executeAsync request script cancellation).1
        (b.executeAsync request script cancellation).1 ∧
      R.Executions (a.executeAsync request script cancellation).2
        (b.executeAsync request script cancellation).2 := by
  obtain ⟨hbegun, hrunning⟩ := R.launch h request script
  have hinvocation := (R.begin h request).2
  cases cancellation with
  | never => exact R.execute h request script
  | beforeStart => exact ⟨R.fail hbegun hinvocation _, rfl, rfl, .none⟩
  | afterCalls calls =>
    have hinputs := R.inputs hinvocation
    obtain ⟨hadvanced, hafter, hmade⟩ := R.advance hbegun hrunning calls
    simp only [Supervisor.executeAsync, hinputs]
    generalize (a.begin request).1.advance calls _ = ours at *
    generalize (b.begin request).1.advance calls _ = theirs at *
    obtain ⟨s, running, made⟩ := ours
    obtain ⟨t, other, _⟩ := theirs
    simp only at hadvanced hafter hmade
    subst hmade
    cases made with
    | true =>
      -- the cancellation comes at the same call in both
      exact ⟨R.cancel hadvanced _, rfl, hafter.transcript, .some hafter⟩
    | false =>
      -- the script has ended before it in both
      obtain ⟨hjoined, hresult, htranscript⟩ := R.join hadvanced hafter
      exact ⟨hjoined, hresult, htranscript, .none⟩

end Simulation

/-! ## Sessions

A session adds the live invocations and the detached scripts, both of which are compared place by
place.
-/

namespace Simulation

/-- Sessions that have in common what is compared. -/
structure Sessions (R : Simulation) (a b : Session) : Prop where
  supervisor : R.states a.supervisor b.supervisor
  live : Entries.Rel R.invocations a.live.entries b.live.entries
  detached : List.Forall₂ R.Runnings a.detached b.detached

/-- Replies that show the same. -/
inductive Replies (R : Simulation) : Reply → Reply → Prop where
  | begun {x y : Invocation} (h : R.invocations x y) : Replies R (.begun x) (.begun y)
  | executed {x y : Execution} (h : R.Executions x y) : Replies R (.executed x) (.executed y)
  | same (reply : Reply) : Replies R reply reply

section Sessions

variable {R : Simulation} {a b : Session} (h : R.Sessions a b)

include h

/-- Under each label both sessions have a live invocation, or neither has. -/
theorem Sessions.live_cases (label : String) :
    (a.live.get? label = none ∧ b.live.get? label = none) ∨
      ∃ x y, a.live.get? label = some x ∧ b.live.get? label = some y ∧ R.invocations x y :=
  rel_cases (h.live.get? label)

theorem Sessions.detached_cases (index : Nat) :
    (a.detached[index]? = none ∧ b.detached[index]? = none) ∨
      ∃ x y, a.detached[index]? = some x ∧ b.detached[index]? = some y ∧ R.Runnings x y :=
  rel_cases (rel_getElem? h.detached index)

/-- An invocation that has made a call takes the place of what it was. -/
theorem Sessions.written (label : String) {ours theirs : Invocation.Written}
    (hsupervisor : R.states { a.supervisor with clock := ours.clock }
      { b.supervisor with clock := theirs.clock })
    (hinvocation : R.invocations ours.invocation theirs.invocation)
    (houtcome : ours.outcome = theirs.outcome) :
    R.Sessions (a.afterWrite label ours).1 (b.afterWrite label theirs).1 ∧
      R.Replies (a.afterWrite label ours).2 (b.afterWrite label theirs).2 := by
  refine ⟨⟨hsupervisor, h.live.insert label hinvocation, h.detached⟩, ?_⟩
  simp only [Session.afterWrite, houtcome]
  exact .same _

/-- An invocation that has ended is taken from both. -/
theorem Sessions.ended {ours theirs : Supervisor} (hsupervisor : R.states ours theirs)
    (label : String) :
    R.Sessions { a with supervisor := ours, live := a.live.erase label }
      { b with supervisor := theirs, live := b.live.erase label } :=
  ⟨hsupervisor, h.live.erase label, h.detached⟩

/-- An execution may leave a script behind in both. -/
theorem Sessions.executed {ours theirs : Supervisor × Execution}
    (hsupervisor : R.states ours.1 theirs.1) (hexecution : R.Executions ours.2 theirs.2) :
    R.Sessions (a.afterExecution ours).1 (b.afterExecution theirs).1 ∧
      R.Replies (a.afterExecution ours).2 (b.afterExecution theirs).2 := by
  -- a script is left in both or in neither
  have hleft : List.Forall₂ R.Runnings ours.2.detached.toList theirs.2.detached.toList := by
    rcases rel_cases hexecution.detached with ⟨hnone, hother⟩ | ⟨x, y, hsome, hother, hrunning⟩
    · rw [hnone, hother]
      exact .nil
    · rw [hsome, hother]
      exact .cons hrunning .nil
  exact ⟨⟨hsupervisor, h.live, List.rel_append h.detached hleft⟩, .executed hexecution⟩

/-- **Whatever is done to two sessions that have in common what is compared** leaves two such
sessions, and is answered alike. -/
theorem Sessions.act (action : Action) :
    R.Sessions (a.act action).1 (b.act action).1 ∧
      R.Replies (a.act action).2 (b.act action).2 := by
  cases action with
  | begin label request =>
    obtain ⟨hsupervisor, hinvocation⟩ := R.begin h.supervisor request
    exact ⟨⟨hsupervisor, h.live.insert label hinvocation, h.detached⟩, .begun hinvocation⟩
  | set label name value =>
    rcases h.live_cases label with ⟨hours, htheirs⟩ | ⟨x, y, hours, htheirs, hxy⟩
    · simp only [Session.act, hours, htheirs]
      exact ⟨h, .same _⟩
    · -- the write is the script's call of the same name
      obtain ⟨hsupervisor, hinvocation, houtcome⟩ := R.perform h.supervisor hxy (.set name value)
      simp only [Session.act, hours, htheirs]
      exact h.written label hsupervisor hinvocation houtcome
  | setOutput label name value =>
    rcases h.live_cases label with ⟨hours, htheirs⟩ | ⟨x, y, hours, htheirs, hxy⟩
    · simp only [Session.act, hours, htheirs]
      exact ⟨h, .same _⟩
    · obtain ⟨hsupervisor, hinvocation, houtcome⟩ :=
        R.perform h.supervisor hxy (.setOutput name value)
      simp only [Session.act, hours, htheirs]
      exact h.written label hsupervisor hinvocation houtcome
  | commit label =>
    rcases h.live_cases label with ⟨hours, htheirs⟩ | ⟨x, y, hours, htheirs, hxy⟩
    · simp only [Session.act, hours, htheirs]
      exact ⟨h, .same _⟩
    · obtain ⟨hsupervisor, hresult⟩ := R.commit h.supervisor hxy
      simp only [Session.act, hours, htheirs, hresult]
      exact ⟨h.ended hsupervisor label, .same _⟩
  | fail label error =>
    rcases h.live_cases label with ⟨hours, htheirs⟩ | ⟨x, y, hours, htheirs, hxy⟩
    · simp only [Session.act, hours, htheirs]
      exact ⟨h, .same _⟩
    · simp only [Session.act, hours, htheirs]
      exact ⟨h.ended (R.fail h.supervisor hxy error) label, .same _⟩
  | log step level message =>
    exact ⟨⟨R.log h.supervisor step level message, h.live, h.detached⟩, .same _⟩
  | execute request script =>
    obtain ⟨hsupervisor, hexecution⟩ := R.execute h.supervisor request script
    exact h.executed hsupervisor hexecution
  | executeAsync request script cancellation =>
    obtain ⟨hsupervisor, hexecution⟩ := R.executeAsync h.supervisor request script cancellation
    exact h.executed hsupervisor hexecution
  | resume index =>
    rcases h.detached_cases index with ⟨hours, htheirs⟩ | ⟨x, y, hours, htheirs, hxy⟩
    · simp only [Session.act, hours, htheirs]
      exact ⟨h, .same _⟩
    · rcases rel_cases (R.next? h.supervisor hxy) with
        ⟨hnone, hnoother⟩ | ⟨after, other, hafter, hother, hsupervisor, hrunning⟩
      · simp only [Session.act, hours, htheirs, hnone, hnoother]
        exact ⟨h, .same _⟩
      · simp only [Session.act, hours, htheirs, hafter, hother]
        exact ⟨⟨hsupervisor, h.live, rel_set h.detached hrunning index⟩, .same _⟩
  | finish index =>
    rcases h.detached_cases index with ⟨hours, htheirs⟩ | ⟨x, y, hours, htheirs, hxy⟩
    · simp only [Session.act, hours, htheirs]
      exact ⟨h, .same _⟩
    · obtain ⟨hsupervisor, htranscript⟩ := R.finishDetached h.supervisor hxy
      simp only [Session.act, hours, htheirs, htranscript]
      exact ⟨⟨hsupervisor, h.live, rel_eraseIdx h.detached index⟩, .same _⟩

end Sessions

end Simulation

end StepRelay
