import Mathlib.Data.List.Induction
import StepRelay.Proofs.Execution
import StepRelay.Session

/-!
# Runs

`Session.turns` lists what was done in a run and what was replied. Two things are read off it: which
writes were asked of the invocation open under a label (`asked`), and who published a name last
(`LastPublish`). `opened_of_live` says that every open invocation is what those writes have made of
it, and `traced_run` that the table traces every name to its last publisher. Each comes from one
lemma on what a single action can do: `act_live` for the open invocations, `act_publishes` for the
table.

## The argument

* Turns and runs are taken apart at their end (`turns_concat`, `run_concat`), so an induction over a
  run adds one action.
* What is open afterwards was begun by the action, or was open before and took at most one write
  (`act_live`). What is published has landed in the table (`act_publishes`).
* The first gives `opened_of_live` by induction, and with it that every open store is tidy
  (`tidy_of_live`), which the second one asks for.
* The table is followed one name at a time: a turn either leaves the trace of a name alone
  (`Traced.concat_of_kept`) or becomes its end (`traced_of_lands`).
-/

namespace StepRelay

/-! ## What was published, and when

A publication is known by the position of its turn. Adding a turn at the end changes nothing at the
positions before it, which is all that the inductions need.
-/

/-- An action of a run and its reply. -/
structure Turn where
  action : Action
  reply : Reply

/-- What a reply tells to have been published. -/
def Reply.publication? : Reply → Option Publication
  | .ended (.ok publication) => some publication
  | .executed execution => execution.result.toOption
  | _ => none

namespace Turn

/-- The write that a turn asks of the invocation under a label, with its outcome. -/
def attempt? (label : String) : Turn → Option Attempt
  | ⟨.set target name value, .written outcome⟩ =>
    if target = label then some ⟨.state, name, value, outcome⟩ else none
  | ⟨.setOutput target name value, .written outcome⟩ =>
    if target = label then some ⟨.output, name, value, outcome⟩ else none
  | _ => none

/-- The writes asked of the invocation under a label, in order. -/
def asked (label : String) (turns : List Turn) : List Attempt := turns.filterMap (attempt? label)

/-- The publication of the turn at a position. -/
def publicationAt (turns : List Turn) (i : Nat) : Option Publication :=
  turns[i]?.bind fun turn => turn.reply.publication?

/-- The turn at `i` published `name`, and none after it did. -/
structure LastPublish (turns : List Turn) (name : String) (i : Nat) (publication : Publication) :
    Prop where
  published : publicationAt turns i = some publication
  names : name ∈ publication.values.keys
  last : ∀ j later, i < j → publicationAt turns j = some later → name ∉ later.values.keys

/-- What was published before is not changed by one turn more. -/
theorem publicationAt_concat_of_lt {turns : List Turn} {i : Nat} (h : i < turns.length)
    (turn : Turn) : publicationAt (turns ++ [turn]) i = publicationAt turns i := by
  rw [publicationAt, publicationAt, List.getElem?_append_left h]

theorem publicationAt_concat_length (turns : List Turn) (turn : Turn) :
    publicationAt (turns ++ [turn]) turns.length = turn.reply.publication? := by
  simp [publicationAt]

/-- What was published was published by one of the turns. -/
theorem lt_length_of_publicationAt {turns : List Turn} {i : Nat} {publication : Publication}
    (h : publicationAt turns i = some publication) : i < turns.length := by
  obtain ⟨turn, hturn, -⟩ := Option.bind_eq_some_iff.1 h
  exact (List.getElem?_eq_some_iff.1 hturn).1

/-- A turn that does not publish the name leaves its last publisher the last. -/
theorem LastPublish.concat {turns : List Turn} {name : String} {i : Nat}
    {publication : Publication} (h : LastPublish turns name i publication) {turn : Turn}
    (hturn : ∀ later, turn.reply.publication? = some later → name ∉ later.values.keys) :
    LastPublish (turns ++ [turn]) name i publication := by
  have hi := lt_length_of_publicationAt h.published
  refine ⟨?_, h.names, ?_⟩
  · rw [publicationAt_concat_of_lt hi, h.published]
  · intro j later hij hlater
    have hj := lt_length_of_publicationAt hlater
    rw [List.length_append, List.length_singleton] at hj
    -- a later publisher was there before, or it is the new turn
    rcases Nat.lt_succ_iff_lt_or_eq.1 hj with hj | rfl
    · rw [publicationAt_concat_of_lt hj] at hlater
      exact h.last j later hij hlater
    · rw [publicationAt_concat_length] at hlater
      exact hturn later hlater

/-- A turn that publishes the name is its last publisher. -/
theorem lastPublish_length {turn : Turn} {name : String} {publication : Publication}
    (h : turn.reply.publication? = some publication) (hname : name ∈ publication.values.keys)
    (turns : List Turn) : LastPublish (turns ++ [turn]) name turns.length publication := by
  refine ⟨by rw [publicationAt_concat_length, h], hname, ?_⟩
  -- no turn is behind it
  intro j later hj hlater
  have hlt := lt_length_of_publicationAt hlater
  rw [List.length_append, List.length_singleton] at hlt
  omega

/-- No publisher of the name comes after the last one. -/
theorem LastPublish.le {turns : List Turn} {name : String} {i j : Nat}
    {publication other : Publication} (h : LastPublish turns name i publication)
    (hpublished : publicationAt turns j = some other) (hname : name ∈ other.values.keys) :
    j ≤ i := by
  by_contra hlt
  exact h.last j other (Nat.lt_of_not_le hlt) hpublished hname

theorem LastPublish.unique {turns : List Turn} {name : String} {i j : Nat} {a b : Publication}
    (ha : LastPublish turns name i a) (hb : LastPublish turns name j b) : i = j ∧ a = b := by
  have hij : i = j := Nat.le_antisymm (hb.le ha.published ha.names) (ha.le hb.published hb.names)
  subst hij
  exact ⟨rfl, Option.some.inj (ha.published.symm.trans hb.published)⟩

end Turn

namespace Session

/-! ## The turns of a run

A run is a fold over its actions, and its turns are the actions with their replies. Everything that
follows is proved for one action more at the end, so both are described in that form first.
-/

/-- The actions of a run with their replies. -/
def turns : Session → List Action → List Turn
  | _, [] => []
  | session, action :: rest =>
    ⟨action, (session.act action).2⟩ :: turns (session.act action).1 rest

theorem run_concat (session : Session) (actions : List Action) (action : Action) :
    session.run (actions ++ [action]) = ((session.run actions).act action).1 := by
  simp [run]

/-- One turn more, by what the run has led to. -/
theorem turns_concat (session : Session) (actions : List Action) (action : Action) :
    session.turns (actions ++ [action]) =
      session.turns actions ++ [⟨action, ((session.run actions).act action).2⟩] := by
  induction actions generalizing session with
  | nil => rfl
  | cons first rest ih => simp [turns, run, ih]

@[simp] theorem length_turns (session : Session) (actions : List Action) :
    (session.turns actions).length = actions.length := by
  induction actions generalizing session with
  | nil => rfl
  | cons first rest ih => simp [turns, ih]

/-- The turn at a position is the action there, done where the actions before it have led. -/
theorem getElem?_turns (session : Session) (actions : List Action) (i : Nat) :
    (session.turns actions)[i]? = actions[i]?.map fun action =>
      ⟨action, ((session.run (actions.take i)).act action).2⟩ := by
  induction actions generalizing session i with
  | nil => rfl
  | cons first rest ih =>
    cases i with
    | zero => rfl
    | succ i => simp [turns, ih, run]

theorem run_take_succ (session : Session) {actions : List Action} {i : Nat} {action : Action}
    (h : actions[i]? = some action) :
    session.run (actions.take (i + 1)) = ((session.run (actions.take i)).act action).1 := by
  rw [List.take_add_one, h, Option.toList_some, run_concat]

/-! ## What an action does to the open invocations

`act_live` is the inversion lemma for the open invocations: what is open afterwards was begun by the
action, or it was open before and took at most one write. Everything that is known of an open
invocation is got from it by induction over the run.
-/

/-- An open invocation has taken the write that a turn asked of it, if it did. -/
structure Takes (label : String) (turn : Turn) (before after : Invocation) : Prop where
  continues : before.Continues after
  reflects : ∀ attempts, before.Reflects attempts →
    after.Reflects (attempts ++ (Turn.attempt? label turn).toList)

/-- An invocation that no write was asked of stays as it was. -/
theorem takes_of_no_attempt {label : String} {turn : Turn} (h : Turn.attempt? label turn = none)
    (invocation : Invocation) : Takes label turn invocation invocation := by
  refine ⟨.refl invocation, ?_⟩
  intro attempts hreflects
  rw [h, Option.toList_none, List.append_nil]
  exact hreflects

/-- A write touches the invocation that it is asked of and no other one. -/
theorem afterWrite_live {session : Session} {target label : String}
    {written : Invocation.Written} {invocation : Invocation}
    (h : (session.afterWrite target written).1.live.get? label = some invocation) :
    (target = label ∧ invocation = written.invocation) ∨
      (target ≠ label ∧ session.live.get? label = some invocation) := by
  rw [afterWrite, OrderedMap.get?_insert] at h
  by_cases htarget : target = label
  · rw [if_pos htarget, Option.some.injEq] at h
    exact .inl ⟨htarget, h.symm⟩
  · rw [if_neg htarget] at h
    exact .inr ⟨htarget, h⟩

/-- What is open after an invocation has ended was open before. -/
theorem live_of_erase {live : OrderedMap Invocation} {target label : String}
    {invocation : Invocation} (h : (live.erase target).get? label = some invocation) :
    live.get? label = some invocation := by
  rw [OrderedMap.get?_erase] at h
  split at h
  · cases h
  · exact h

/-- The invocation that is open under a label after an action was begun by it, or was open before
and has taken the write that the action asked of it. -/
theorem act_live {session : Session} {action : Action} {label : String}
    {invocation : Invocation}
    (h : (session.act action).1.live.get? label = some invocation) :
    (∃ request, action = .begin label request ∧
      invocation = (session.supervisor.begin request).2) ∨
    ((∀ request, action ≠ .begin label request) ∧
      ∃ before, session.live.get? label = some before ∧
        Takes label ⟨action, (session.act action).2⟩ before invocation) := by
  -- most actions leave the invocation as it was
  have untouched (hbegin : ∀ request, action ≠ .begin label request)
      (hlive : session.live.get? label = some invocation)
      (hattempt : Turn.attempt? label ⟨action, (session.act action).2⟩ = none) :
      (∀ request, action ≠ .begin label request) ∧
      ∃ before, session.live.get? label = some before ∧
        Takes label ⟨action, (session.act action).2⟩ before invocation :=
    ⟨hbegin, invocation, hlive, takes_of_no_attempt hattempt invocation⟩
  cases action with
  | begin target request =>
    rw [act, OrderedMap.get?_insert] at h
    by_cases htarget : target = label
    · -- begun under this label, or under another one
      subst htarget
      rw [if_pos rfl, Option.some.injEq] at h
      exact .inl ⟨request, rfl, h.symm⟩
    · rw [if_neg htarget] at h
      refine .inr (untouched ?_ h rfl)
      rintro other ⟨⟩
      exact htarget rfl
  | set target name value =>
    cases hlive : session.live.get? target with
    | none =>
      simp only [act, hlive] at h
      exact .inr (untouched (by nofun) h (by simp [act, hlive, Turn.attempt?]))
    | some before =>
      simp only [act, hlive] at h
      rcases afterWrite_live h with ⟨rfl, rfl⟩ | ⟨htarget, hkept⟩
      · refine .inr ⟨by nofun, before, hlive, before.continues_set .., ?_⟩
        intro attempts hreflects
        -- the write is one attempt more, accepted or refused
        simpa [act, hlive, afterWrite, Turn.attempt?] using hreflects.set ..
      · refine .inr (untouched (by nofun) hkept ?_)
        simp [act, hlive, afterWrite, Turn.attempt?, htarget]
  | setOutput target name value =>
    cases hlive : session.live.get? target with
    | none =>
      simp only [act, hlive] at h
      exact .inr (untouched (by nofun) h (by simp [act, hlive, Turn.attempt?]))
    | some before =>
      simp only [act, hlive] at h
      rcases afterWrite_live h with ⟨rfl, rfl⟩ | ⟨htarget, hkept⟩
      · refine .inr ⟨by nofun, before, hlive, before.continues_setOutput .., ?_⟩
        intro attempts hreflects
        simpa [act, hlive, afterWrite, Turn.attempt?] using hreflects.setOutput ..
      · refine .inr (untouched (by nofun) hkept ?_)
        simp [act, hlive, afterWrite, Turn.attempt?, htarget]
  | commit target | fail target =>
    refine .inr (untouched (by nofun) ?_ rfl)
    cases hlive : session.live.get? target with
    | none => simpa only [act, hlive] using h
    | some before =>
      simp only [act, hlive] at h
      exact live_of_erase h
  | log | execute | executeAsync => exact .inr (untouched (by nofun) h rfl)
  | resume index =>
    refine .inr (untouched (by nofun) ?_ rfl)
    simp only [act] at h
    split at h
    · exact h
    · split at h <;> exact h
  | finish index =>
    refine .inr (untouched (by nofun) ?_ rfl)
    simp only [act] at h
    split at h <;> exact h

/-! ## What an action does to the table

`act_publishes` is the one for the table. It asks that the open stores be tidy, which `act_live`
gives of every run.
-/

/-- What is published by an action lands in the table; an action that publishes nothing leaves the
table alone. -/
def Publishes (before : Table) : Option Publication → Table → Prop
  | some publication, after => publication.Lands before after
  | none, after => after = before

/-- An end that settled has published what it answers. -/
theorem publishes_of_settles {before after : Table} {result : Except StepError Publication}
    (h : Settles before result after) : Publishes before result.toOption after := by
  cases result with
  | ok publication => exact h
  | error error => exact h

/-- **What an action tells to have published is what has landed in the table.** Only commits and
executions publish anything. -/
theorem act_publishes {session : Session}
    (htidy : ∀ label invocation, session.live.get? label = some invocation →
      invocation.store.Tidy) (action : Action) :
    Publishes session.supervisor.table (session.act action).2.publication?
      (session.act action).1.supervisor.table := by
  cases action with
  | begin label request => exact session.supervisor.begin_table request
  | set label name value =>
    simp only [act]
    split <;> rfl
  | setOutput label name value =>
    simp only [act]
    split <;> rfl
  | commit label =>
    cases hlive : session.live.get? label with
    | none =>
      simp only [act, hlive]
      rfl
    | some invocation =>
      -- the only action on an open invocation that touches the table
      have hcommit := publishes_of_settles
        (session.supervisor.commit_settles (htidy label invocation hlive))
      simp only [act, hlive]
      cases hresult : (session.supervisor.commit invocation).2 with
      | ok publication => rwa [hresult] at hcommit
      | error error => rwa [hresult] at hcommit
  | fail label error =>
    simp only [act]
    split
    · rfl
    · exact session.supervisor.fail_table ..
  | log step level message => exact session.supervisor.log_table step level message
  | execute request script =>
    exact publishes_of_settles (session.supervisor.execute_settles request script)
  | executeAsync request script cancellation =>
    exact publishes_of_settles (session.supervisor.executeAsync_settles ..)
  | resume index =>
    simp only [act]
    split
    · rfl
    · split
      · rfl
      · next hnext => exact (Supervisor.next?_keeps hnext).1
  | finish index =>
    simp only [act]
    split
    · rfl
    · exact Supervisor.finishDetached_table ..

/-! ## The open invocations of a run

A label may be used again, so an invocation is known by its label and by the last action that began
one under it.
-/

/-- The action at `start` is the last one that began an invocation under `label`. -/
structure OpenSince (actions : List Action) (label : String) (request : StepRequest)
    (start : Nat) : Prop where
  begun : actions[start]? = some (.begin label request)
  last : ∀ i other, start < i → actions[i]? ≠ some (.begin label other)

/-- An invocation was begun by an action of the run. -/
theorem OpenSince.lt_length {actions : List Action} {label : String} {request : StepRequest}
    {start : Nat} (h : OpenSince actions label request start) : start < actions.length :=
  (List.getElem?_eq_some_iff.1 h.begun).1

/-- There is one last begin under a label. -/
theorem OpenSince.unique {actions : List Action} {label : String} {request other : StepRequest}
    {i j : Nat} (hi : OpenSince actions label request i) (hj : OpenSince actions label other j) :
    i = j ∧ request = other := by
  have hij : i = j := by
    -- the later of two would be a begin behind the last one
    rcases Nat.lt_trichotomy i j with h | h | h
    · exact absurd hj.begun (hi.last j other h)
    · exact h
    · exact absurd hi.begun (hj.last i request h)
  subst hij
  have heq := Option.some.inj (hi.begun.symm.trans hj.begun)
  exact ⟨rfl, by injection heq⟩

/-- The last action is one, if it begins an invocation. -/
theorem openSince_length (actions : List Action) (label : String) (request : StepRequest) :
    OpenSince (actions ++ [.begin label request]) label request actions.length := by
  refine ⟨by simp, ?_⟩
  intro i other hi hbegun
  have hlt := (List.getElem?_eq_some_iff.1 hbegun).1
  rw [List.length_append, List.length_singleton] at hlt
  omega

/-- It stays the last one until another invocation is begun under the label. -/
theorem OpenSince.concat {actions : List Action} {label : String} {request : StepRequest}
    {start : Nat} (h : OpenSince actions label request start) {action : Action}
    (haction : ∀ other, action ≠ .begin label other) :
    OpenSince (actions ++ [action]) label request start := by
  refine ⟨by rw [List.getElem?_append_left h.lt_length, h.begun], ?_⟩
  intro i other hi hbegun
  -- an action of the run, or the new one
  by_cases hlt : i < actions.length
  · rw [List.getElem?_append_left hlt] at hbegun
    exact h.last i other hi hbegun
  · rw [List.getElem?_append_right (Nat.le_of_not_lt hlt), List.getElem?_singleton] at hbegun
    split at hbegun
    · exact haction other (Option.some.inj hbegun)
    · cases hbegun

/-- What an open invocation has become: it is of the step that began it, it observed the table of
that moment, and it holds what the writes asked of it since have come to. -/
structure Opened (session : Session) (actions : List Action) (label : String)
    (request : StepRequest) (start : Nat) (invocation : Invocation) : Prop where
  since : OpenSince actions label request start
  step : invocation.store.step = request.step
  observed : invocation.observed =
    (session.run (actions.take start)).supervisor.table.version
  reflects : invocation.Reflects
    (Turn.asked label ((session.turns actions).drop (start + 1)))

/-- A run keeps every open invocation in step with the writes asked of it. -/
theorem opened_of_live {session : Session} (hempty : session.live = ∅) {actions : List Action}
    {label : String} {invocation : Invocation}
    (h : (session.run actions).live.get? label = some invocation) :
    ∃ request start, Opened session actions label request start invocation := by
  induction actions using List.reverseRecOn generalizing invocation with
  | nil =>
    simp [run, hempty] at h
  | append_singleton actions action ih =>
    rw [run_concat] at h
    rcases act_live h with ⟨request, rfl, rfl⟩ | ⟨hbegin, before, hbefore, htakes⟩
    · -- it was begun just now, on the table that the run has left, and nothing was asked of it yet
      refine ⟨request, actions.length, openSince_length actions label request, rfl, ?_, ?_⟩
      · rw [List.take_left]
        rfl
      · rw [List.drop_eq_nil_of_le (by simp)]
        exact Supervisor.begin_reflects ..
    · -- it was open before, and the action may have asked one more write of it
      obtain ⟨request, start, hopened⟩ := ih hbefore
      have hstart := hopened.since.lt_length
      refine ⟨request, start, hopened.since.concat hbegin, ?_, ?_, ?_⟩
      · rw [htakes.continues.step, hopened.step]
      · rw [htakes.continues.observed, hopened.observed,
          List.take_append_of_le_length (Nat.le_of_lt hstart)]
      · have hlength : start + 1 ≤ (session.turns actions).length := by
          rw [length_turns]
          exact hstart
        have hasked := htakes.reflects _ hopened.reflects
        rw [turns_concat, List.drop_append_of_le_length hlength, Turn.asked,
          List.filterMap_append]
        cases hattempt : Turn.attempt? label ⟨action, ((session.run actions).act action).2⟩ with
        | none => simpa [hattempt, Turn.asked] using hasked
        | some attempt => simpa [hattempt, Turn.asked] using hasked

/-- The store of an open invocation is in order. -/
theorem tidy_of_live {session : Session} (hempty : session.live = ∅) {actions : List Action}
    {label : String} {invocation : Invocation}
    (h : (session.run actions).live.get? label = some invocation) : invocation.store.Tidy := by
  obtain ⟨_, _, hopened⟩ := opened_of_live hempty h
  exact hopened.reflects.tidy

/-! ## The table of a run

The invariant is `Traced`, of the table, the turns so far and one name.
-/

/-- What the next action of a run publishes lands in the table that the run has left. -/
theorem run_act_publishes {session : Session} (hempty : session.live = ∅) (actions : List Action)
    (action : Action) :
    Publishes (session.run actions).supervisor.table
      ((session.run actions).act action).2.publication?
      ((session.run actions).act action).1.supervisor.table := by
  refine act_publishes ?_ action
  intro label invocation hlive
  exact tidy_of_live hempty hlive

/-- What an action within a run publishes lands in the table that the actions before it left. -/
theorem run_publishes {session : Session} (hempty : session.live = ∅) {actions : List Action}
    {i : Nat} {action : Action} (h : actions[i]? = some action) :
    Publishes (session.run (actions.take i)).supervisor.table
      (Turn.publicationAt (session.turns actions) i)
      (session.run (actions.take (i + 1))).supervisor.table := by
  rw [Turn.publicationAt, getElem?_turns, h, run_take_succ session h]
  exact run_act_publishes hempty (actions.take i) action

/-- Publishing raises the version by one, and nothing else changes it. -/
theorem version_le_of_publishes {before after : Table} {published : Option Publication}
    (h : Publishes before published after) : before.version ≤ after.version := by
  cases published with
  | none => exact Nat.le_of_eq (congrArg Table.version h.symm)
  | some publication => exact h.version ▸ Nat.le_succ before.version

/-- The version never falls along a run. -/
theorem version_mono {session : Session} (hempty : session.live = ∅) (actions : List Action)
    {i j : Nat} (h : i ≤ j) :
    (session.run (actions.take i)).supervisor.table.version ≤
      (session.run (actions.take j)).supervisor.table.version := by
  induction h with
  | refl => exact Nat.le_refl _
  | @step j _ ih =>
    cases hj : actions[j]? with
    | none =>
      -- the run is over by then
      rw [List.getElem?_eq_none_iff] at hj
      have htake : actions.take (j + 1) = actions.take j := by
        rw [List.take_of_length_le (Nat.le_succ_of_le hj), List.take_of_length_le hj]
      rwa [htake]
    | some action => exact Nat.le_trans ih (version_le_of_publishes (run_publishes hempty hj))

/-- A table traces a name to its last publisher: what it holds there came from the last turn that
published the name, at the version which that turn made, and it holds nothing there if no turn
published the name. -/
structure Traced (table : Table) (turns : List Turn) (name : String) : Prop where
  held : ∀ old, table.cells.get? name = some old →
    ∃ i publication, Turn.LastPublish turns name i publication ∧
      publication.step = old.cell.origin ∧ publication.tableVersion = old.publishedAt
  free : table.cells.get? name = none → ∀ i publication,
    Turn.publicationAt turns i = some publication → name ∉ publication.values.keys

/-- A name that was published has a last publisher. -/
theorem Traced.exists_lastPublish {table : Table} {turns : List Turn} {name : String}
    (h : Traced table turns name) {i : Nat} {publication : Publication}
    (hpublished : Turn.publicationAt turns i = some publication)
    (hname : name ∈ publication.values.keys) :
    ∃ j last, Turn.LastPublish turns name j last := by
  cases hold : table.cells.get? name with
  | none => exact absurd hname (h.free hold i publication hpublished)
  | some old =>
    obtain ⟨j, last, hlast, -, -⟩ := h.held old hold
    exact ⟨j, last, hlast⟩

/-- A table holds something for every name that has a last publisher. -/
theorem Traced.exists_get?_of_lastPublish {table : Table} {turns : List Turn} {name : String}
    (h : Traced table turns name) {i : Nat} {publication : Publication}
    (hlast : Turn.LastPublish turns name i publication) :
    ∃ old, table.cells.get? name = some old := by
  cases hold : table.cells.get? name with
  | none => exact absurd hlast.names (h.free hold i publication hlast.published)
  | some old => exact ⟨old, rfl⟩

/-- A turn that does not publish the name leaves its cell and its history as they were. -/
theorem Traced.concat_of_kept {before after : Table} {turns : List Turn} {name : String}
    (h : Traced before turns name) {turn : Turn}
    (hkept : after.cells.get? name = before.cells.get? name)
    (hname : ∀ later, turn.reply.publication? = some later → name ∉ later.values.keys) :
    Traced after (turns ++ [turn]) name := by
  constructor
  · intro old hold
    obtain ⟨i, publication, hlast, hstep, hversion⟩ := h.held old (hkept ▸ hold)
    exact ⟨i, publication, hlast.concat hname, hstep, hversion⟩
  · intro hnone i publication hpublished
    have hi := Turn.lt_length_of_publicationAt hpublished
    rw [List.length_append, List.length_singleton] at hi
    -- a publication of the longer run is one of the shorter run or that of the new turn
    rcases Nat.lt_succ_iff_lt_or_eq.1 hi with hi | rfl
    · rw [Turn.publicationAt_concat_of_lt hi] at hpublished
      exact h.free (hkept ▸ hnone) i publication hpublished
    · rw [Turn.publicationAt_concat_length] at hpublished
      exact hname publication hpublished

/-- A turn that publishes the name becomes its last publisher. -/
theorem traced_of_lands {before after : Table} {publication : Publication} {name : String}
    (hlands : publication.Lands before after) (hname : name ∈ publication.values.keys)
    {turn : Turn} (hturn : turn.reply.publication? = some publication) (turns : List Turn) :
    Traced after (turns ++ [turn]) name := by
  obtain ⟨value, hvalue⟩ := OrderedMap.exists_get?_of_mem_keys hname
  obtain ⟨cell, hcell, -, horigin⟩ := hlands.written name value hvalue
  constructor
  · -- the cell is the one that has landed
    intro old hold
    rw [hcell, Option.some.injEq] at hold
    subst hold
    exact ⟨turns.length, publication, Turn.lastPublish_length hturn hname turns, horigin.symm,
      hlands.stamped⟩
  · intro hnone
    rw [hcell] at hnone
    cases hnone

/-- **One turn more, and the table still traces the name**, whether the turn published it or not. -/
theorem Traced.concat {before after : Table} {turns : List Turn} {name : String}
    (h : Traced before turns name) {turn : Turn}
    (hturn : Publishes before turn.reply.publication? after) :
    Traced after (turns ++ [turn]) name := by
  cases hpublication : turn.reply.publication? with
  | none =>
    rw [hpublication] at hturn
    have hsame : after = before := hturn
    refine h.concat_of_kept (by rw [hsame]) ?_
    intro later hlater
    rw [hpublication] at hlater
    cases hlater
  | some publication =>
    rw [hpublication] at hturn
    have hlands : publication.Lands before after := hturn
    -- the history of the name goes on only if the publication contains it
    by_cases hname : name ∈ publication.values.keys
    · exact traced_of_lands hlands hname hpublication turns
    · refine h.concat_of_kept (hlands.kept name hname) ?_
      intro later hlater
      rw [hpublication, Option.some.injEq] at hlater
      exact hlater ▸ hname

/-- The table of a run traces every name to its last publisher. -/
theorem traced_run {session : Session} (hempty : session.live = ∅)
    (htable : session.supervisor.table.cells = ∅) (actions : List Action) (name : String) :
    Traced (session.run actions).supervisor.table (session.turns actions) name := by
  induction actions using List.reverseRecOn with
  | nil =>
    refine ⟨?_, by nofun⟩
    intro old hold
    simp [run, htable] at hold
  | append_singleton actions action ih =>
    rw [run_concat, turns_concat]
    exact ih.concat (run_act_publishes hempty actions action)

end Session

end StepRelay
