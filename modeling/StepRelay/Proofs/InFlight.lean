import Mathlib.Data.Set.Card
import StepRelay.Proofs.LogRetention

/-!
# Invocations in flight

An invocation is in flight from its begin until a commit or a failure ends it. `inFlight` collects
the begins of a run for which this is so, by the actions and their replies alone. A begin adds
itself, an end takes away the begin to which it belongs, and no other action changes the collection.
An invocation whose label was given to another one can no longer be ended: it is in flight for good.
-/

namespace StepRelay

/-! ## Begins without an end

A begin is in flight as long as no action has ended its invocation. The collection is a set of
positions, all of them in the run, and so finite.
-/

namespace Session

/-- The begins of a run whose invocations have not ended. -/
def inFlight (session : Session) (actions : List Action) : Set Nat :=
  {start | ∃ label request, session.Stands actions label request start none}

/-- A begin stands without an end if no action has ended it. -/
theorem stands_none_iff {session : Session} {actions : List Action} {label : String}
    {request : StepRequest} {start : Nat} :
    session.Stands actions label request start none ↔
      actions[start]? = some (.begin label request) ∧
        ∀ finish, ¬ session.Finishes actions label request start finish := by
  constructor
  · rintro (⟨begun, h⟩ | _)
    exact ⟨begun, h⟩
  · rintro ⟨begun, h⟩
    exact .running begun h

/-- A begin is in flight if no action has ended it. -/
theorem mem_inFlight_iff {session : Session} {actions : List Action} {label : String}
    {request : StepRequest} {start : Nat} (h : actions[start]? = some (.begin label request)) :
    start ∈ session.inFlight actions ↔
      ∀ finish, ¬ session.Finishes actions label request start finish := by
  constructor
  · rintro ⟨other, asked, hstands⟩
    obtain ⟨hbegun, hnot⟩ := stands_none_iff.1 hstands
    rw [h, Option.some.injEq, Action.begin.injEq] at hbegun
    obtain ⟨rfl, rfl⟩ := hbegun
    exact hnot
  · exact fun hnot => ⟨label, request, .running h hnot⟩

/-- What is in flight was begun in the run. -/
theorem lt_length_of_mem_inFlight {session : Session} {actions : List Action} {start : Nat}
    (h : start ∈ session.inFlight actions) : start < actions.length := by
  obtain ⟨label, request, hstands⟩ := h
  exact (List.getElem?_eq_some_iff.1 (stands_none_iff.1 hstands).1).1

theorem finite_inFlight (session : Session) (actions : List Action) :
    (session.inFlight actions).Finite :=
  (Set.finite_lt_nat actions.length).subset fun _ => lt_length_of_mem_inFlight

/-- An end is an action of the run, and comes behind its begin. -/
theorem Finishes.lt_length {session : Session} {actions : List Action} {label : String}
    {request : StepRequest} {start finish : Nat}
    (h : session.Finishes actions label request start finish) :
    start < finish ∧ finish < actions.length := by
  obtain ⟨turn, result, hturn, -⟩ := h.ended
  have hfinish := (List.getElem?_eq_some_iff.1 hturn).1
  have hstart := h.since.lt_length
  rw [length_turns] at hfinish
  rw [List.length_take] at hstart
  omega

/-- Whether an invocation has finished at a turn is not changed by what comes later. -/
theorem finishes_take_iff {session : Session} {actions : List Action} {label : String}
    {request : StepRequest} {start finish later : Nat} (h : finish < later) :
    session.Finishes (actions.take later) label request start finish ↔
      session.Finishes actions label request start finish := by
  -- all that is asked of an end lies before it
  have htake : (actions.take later).take finish = actions.take finish := by
    rw [List.take_take, Nat.min_eq_left h.le]
  have hget : (actions.take later)[finish]? = actions[finish]? := List.getElem?_take_of_lt h
  have hturn : (session.turns (actions.take later))[finish]? =
      (session.turns actions)[finish]? := by
    rw [getElem?_turns, getElem?_turns, hget, htake]
  constructor
  · rintro ⟨since, haction, hended⟩
    rw [htake] at since
    rw [hget] at haction
    rw [hturn] at hended
    exact ⟨since, haction, hended⟩
  · rintro ⟨since, haction, hended⟩
    rw [← htake] at since
    rw [← hget] at haction
    rw [← hturn] at hended
    exact ⟨since, haction, hended⟩

/-- **Whether the last action ends an invocation** is told by that action and its reply. -/
theorem finishes_length_iff {session : Session} {actions : List Action} {action : Action}
    {label : String} {request : StepRequest} {start : Nat} :
    session.Finishes (actions ++ [action]) label request start actions.length ↔
      OpenSince actions label request start ∧
        (action = .commit label ∨ ∃ error, action = .fail label error) ∧
        ∃ result, ((session.run actions).act action).2 = .ended result := by
  have hget : (actions ++ [action])[actions.length]? = some action := List.getElem?_concat_length
  -- the last turn is the answer to the last action, in the state before it
  have hturn : (session.turns (actions ++ [action]))[actions.length]? =
      some ⟨action, ((session.run actions).act action).2⟩ := by
    rw [getElem?_turns, hget, List.take_left]
    rfl
  constructor
  · rintro ⟨since, haction, turn, result, hended, hreply⟩
    rw [List.take_left] at since
    rw [hget, Option.some.injEq] at haction
    simp only [Option.some.injEq] at haction
    rw [hturn, Option.some.injEq] at hended
    subst hended
    exact ⟨since, haction, result, hreply⟩
  · rintro ⟨since, haction, result, hreply⟩
    refine ⟨by rwa [List.take_left], ?_, _, result, hturn, hreply⟩
    rw [hget]
    simpa using haction

/-- What a run has finished it had finished before its last action, or this action finishes it. -/
theorem finishes_concat_iff {session : Session} {actions : List Action} {action : Action}
    {label : String} {request : StepRequest} {start finish : Nat} :
    session.Finishes (actions ++ [action]) label request start finish ↔
      session.Finishes actions label request start finish ∨
      (finish = actions.length ∧ OpenSince actions label request start ∧
        (action = .commit label ∨ ∃ error, action = .fail label error) ∧
        ∃ result, ((session.run actions).act action).2 = .ended result) := by
  rcases Nat.lt_trichotomy finish actions.length with hlt | rfl | hlt
  · -- an end before the last action is one of the shorter run
    have hbefore := @finishes_take_iff session (actions ++ [action]) label request start _ _ hlt
    rw [List.take_left] at hbefore
    rw [hbefore]
    exact ⟨.inl, fun h => h.resolve_right fun hlast => Nat.ne_of_lt hlt hlast.1⟩
  · -- the last action itself
    rw [finishes_length_iff]
    refine ⟨fun h => .inr ⟨rfl, h⟩, fun h => h.elim (fun hbefore => ?_) And.right⟩
    exact absurd hbefore.lt_length.2 (Nat.lt_irrefl _)
  · constructor
    · -- no action comes later
      intro hfinishes
      have hlast := hfinishes.lt_length.2
      rw [List.length_append, List.length_singleton] at hlast
      omega
    · rintro (hfinishes | ⟨rfl, -⟩)
      · exact absurd (hfinishes.lt_length.2.trans hlt) (Nat.lt_irrefl _)
      · exact absurd hlt (Nat.lt_irrefl _)

/-- Nothing is open under the label of the invocation begun last, once this has finished. -/
theorem live_of_finishes {session : Session} {actions : List Action} {label : String}
    {request : StepRequest} {start finish : Nat} (since : OpenSince actions label request start)
    (h : session.Finishes actions label request start finish) :
    (session.run actions).live.get? label = none := by
  induction actions using List.reverseRecOn with
  | nil => exact absurd h.lt_length.2 (Nat.not_lt_zero _)
  | append_singleton actions action ih =>
    rw [run_concat]
    rcases finishes_concat_iff.1 h with hfinishes | ⟨-, -, haction, result, hended⟩
    · -- the last action did not begin another one under the label
      have hstart : start < actions.length := hfinishes.lt_length.1.trans hfinishes.lt_length.2
      have hbefore : OpenSince actions label request start := by
        refine ⟨?_, fun i other hi hbegun => ?_⟩
        · rw [← since.begun, List.getElem?_append_left hstart]
        · have hlt := (List.getElem?_eq_some_iff.1 hbegun).1
          refine since.last i other hi ?_
          rwa [List.getElem?_append_left hlt]
      have hnone := ih hbefore hfinishes
      cases hlive : ((session.run actions).act action).1.live.get? label with
      | none => rfl
      | some invocation =>
        rcases act_live hlive with ⟨other, rfl, -⟩ | ⟨-, before, hbefore, -⟩
        · exact absurd (by simp) (since.last actions.length other hstart)
        · rw [hnone] at hbefore
          cases hbefore
    · -- the last action ended it
      cases hlive : (session.run actions).live.get? label with
      | none => rcases haction with rfl | ⟨error, rfl⟩ <;> simp [act, hlive] at hended
      | some invocation =>
        rcases haction with rfl | ⟨error, rfl⟩ <;>
          simp [act, hlive, OrderedMap.get?_erase]

/-! ## What an action does to them

The three lemmas on `actions ++ [action]` are what an induction over a run needs: a begin, an end,
and everything else.
-/

/-- The action ends the invocation that was begun at `start`. -/
def Ends (session : Session) (actions : List Action) (action : Action) (start : Nat) : Prop :=
  ∃ label request, OpenSince actions label request start ∧
    (action = .commit label ∨ ∃ error, action = .fail label error) ∧
    ∃ result, ((session.run actions).act action).2 = .ended result

/-- **In flight after an action** is what it begins, and what was in flight before and is not ended
by it. -/
theorem mem_inFlight_concat_iff {session : Session} {actions : List Action} {action : Action}
    {start : Nat} :
    start ∈ session.inFlight (actions ++ [action]) ↔
      (start = actions.length ∧ ∃ label request, action = .begin label request) ∨
      (start ∈ session.inFlight actions ∧ ¬ session.Ends actions action start) := by
  constructor
  · rintro ⟨label, request, hstands⟩
    obtain ⟨hbegun, hnot⟩ := stands_none_iff.1 hstands
    have hstart := (List.getElem?_eq_some_iff.1 hbegun).1
    rw [List.length_append, List.length_singleton] at hstart
    rcases Nat.lt_succ_iff_lt_or_eq.1 hstart with hstart | rfl
    · rw [List.getElem?_append_left hstart] at hbegun
      -- begun before: the last action has not ended it either
      refine .inr ⟨?_, ?_⟩
      · rw [mem_inFlight_iff hbegun]
        exact fun finish hfinishes => hnot finish (finishes_concat_iff.2 (.inl hfinishes))
      · rintro ⟨other, asked, since, hends⟩
        obtain ⟨rfl, rfl⟩ : label = other ∧ request = asked := by
          have hsame := hbegun.symm.trans since.begun
          rw [Option.some.injEq, Action.begin.injEq] at hsame
          exact hsame
        exact hnot actions.length (finishes_concat_iff.2 (.inr ⟨rfl, since, hends⟩))
    · rw [List.getElem?_concat_length, Option.some.injEq] at hbegun
      -- begun by the last action
      exact .inl ⟨rfl, label, request, hbegun⟩
  · rintro (⟨rfl, label, request, rfl⟩ | ⟨⟨label, request, hstands⟩, hends⟩)
    · -- what has just been begun has not been ended
      have hbegun : (actions ++ [.begin label request])[actions.length]? =
          some (.begin label request) := List.getElem?_concat_length
      refine ⟨label, request, .running hbegun fun finish hfinishes => ?_⟩
      have hlast := hfinishes.lt_length
      rw [List.length_append, List.length_singleton] at hlast
      omega
    · obtain ⟨hbegun, hnot⟩ := stands_none_iff.1 hstands
      have hstart := (List.getElem?_eq_some_iff.1 hbegun).1
      refine ⟨label, request, .running ?_ fun finish hfinishes => ?_⟩
      · rw [List.getElem?_append_left hstart, hbegun]
      · rcases finishes_concat_iff.1 hfinishes with hbefore | ⟨-, since, hended⟩
        · exact hnot finish hbefore
        · exact hends ⟨label, request, since, hended⟩

theorem inFlight_concat_begin (session : Session) (actions : List Action) (label : String)
    (request : StepRequest) :
    session.inFlight (actions ++ [.begin label request]) =
      insert actions.length (session.inFlight actions) := by
  ext start
  rw [mem_inFlight_concat_iff, Set.mem_insert_iff]
  refine or_congr (and_iff_left ⟨label, request, rfl⟩) (and_iff_left ?_)
  rintro ⟨other, asked, -, haction, -⟩
  rcases haction with haction | ⟨error, haction⟩ <;> cases haction

/-- An action that neither begins nor ends an invocation leaves all of them in flight. -/
theorem inFlight_concat_of_not_ended {session : Session} {actions : List Action}
    {action : Action} (hbegin : ∀ label request, action ≠ .begin label request)
    (hended : ∀ result, ((session.run actions).act action).2 ≠ .ended result) :
    session.inFlight (actions ++ [action]) = session.inFlight actions := by
  ext start
  rw [mem_inFlight_concat_iff]
  constructor
  · rintro (⟨-, label, request, haction⟩ | ⟨hstart, -⟩)
    · exact absurd haction (hbegin label request)
    · exact hstart
  · -- nothing was ended, so in particular not this one
    intro hstart
    refine .inr ⟨hstart, ?_⟩
    rintro ⟨-, -, -, -, result, hresult⟩
    exact hended result hresult

/-- The invocation that an action ends was in flight, and it is the only one that no longer is. -/
theorem inFlight_concat_ended {session : Session} {actions : List Action} {label : String}
    {action : Action} (haction : action = .commit label ∨ ∃ error, action = .fail label error)
    {result : Except StepError Publication}
    (hended : ((session.run actions).act action).2 = .ended result) {request : StepRequest}
    {start : Nat} (since : OpenSince actions label request start) :
    start ∈ session.inFlight actions ∧
      session.inFlight (actions ++ [action]) = session.inFlight actions \ {start} := by
  have hends : session.Ends actions action start :=
    ⟨label, request, since, haction, result, hended⟩
  constructor
  · rw [mem_inFlight_iff since.begun]
    -- had it finished before, its label would not be live
    intro finish hfinishes
    have hnone := live_of_finishes since hfinishes
    rcases haction with rfl | ⟨error, rfl⟩ <;> simp [act, hnone] at hended
  · ext other
    rw [mem_inFlight_concat_iff, Set.mem_sdiff, Set.mem_singleton_iff]
    constructor
    · rintro (⟨-, target, asked, rfl⟩ | ⟨hother, hnot⟩)
      · rcases haction with haction | ⟨error, haction⟩ <;> cases haction
      · refine ⟨hother, ?_⟩
        rintro rfl
        exact hnot hends
    · rintro ⟨hother, hne⟩
      refine .inr ⟨hother, ?_⟩
      rintro ⟨target, asked, hsince, hsame, -⟩
      -- the label tells which invocation it is
      obtain rfl : target = label := by
        rcases haction with rfl | ⟨error, rfl⟩ <;>
          rcases hsame with hsame | ⟨error, hsame⟩ <;> cases hsame <;> rfl
      exact hne (hsince.unique since).1

end Session

end StepRelay
