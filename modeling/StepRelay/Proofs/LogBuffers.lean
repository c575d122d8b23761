import Mathlib.Data.Set.Finite.Lattice
import StepRelay.Proofs.InFlight

/-!
# What a log buffer holds, and for how long

The buffer of a step holds the newest entries among all that the step has logged since its last
record left the archive (`scriptLogs_since`). As long as the step has a record or an invocation in
flight, a record of it is still to leave the archive and will take the buffer along. What is logged
for a step that has neither strays: nothing is there to take it along, so it stays, and the buffer
outlives its step (`buffered_logs_owned`).

## The argument

* A buffer is emptied where its step is evicted and nowhere else (`scriptLogs_of_evictsAt`), so its
  content is told by the last such place (`exists_sinceEviction`, `scriptLogs_since_eviction`).
* A step that has neither a record nor an invocation in flight has no eviction ahead of it. What is
  logged for it strays, and only a host or an orphaned script can do that (`Gone.logger`).
* Strays can be added one by one without end (`exists_strays`), since a host may log under any step
  that is gone, and all but finitely many are (`infinite_gone`).
-/

namespace StepRelay

/-! ## Records and buffers

What an archive of limited room says about the steps that have records, and what archiving a record
does to the buffer of one step.
-/

/-- The last items of a list are none only if the list has none or none is taken. -/
theorem rtake_ne_nil_iff {α : Type} {count : Nat} {items : List α} :
    items.rtake count ≠ [] ↔ 0 < count ∧ items ≠ [] := by
  rw [List.rtake, Ne, List.drop_eq_nil_iff, ← List.length_pos_iff]
  omega

namespace Archive

/-- A push leaves no more records than the archive has room for. -/
theorem length_push_le (archive : Archive) (record : Record) :
    (archive.push record).1.records.length ≤ archive.room := by
  have hlength : (archive.push record).1.records.length =
      archive.records.length - (archive.records.length + 1 - archive.room) + 1 := by
    simp [push]
  have hroom : 1 ≤ archive.room := Nat.le_max_right ..
  omega

/-- No more steps have records than there are records. -/
theorem encard_has_le (archive : Archive) :
    {step | archive.Has step}.encard ≤ archive.records.length := by
  have hset : {step | archive.Has step} = ↑(archive.records.map Record.step).toFinset := by
    ext step
    simp [Has]
  rw [hset, Set.encard_coe_eq_coe_finsetCard, Nat.cast_le]
  exact (List.toFinset_card_le _).trans_eq (List.length_map _)

end Archive

namespace Supervisor

/-- Archiving a record empties the buffer of a step if it takes the step's last record, and leaves
it as it is otherwise. -/
theorem scriptLogs_archiveRecord (s : Supervisor) (record : Record) (step : StepId) :
    let after := s.archiveRecord record
    (s.archive.Has step ∧ ¬ after.archive.Has step → after.scriptLogs step = []) ∧
      (¬ (s.archive.Has step ∧ ¬ after.archive.Has step) →
        after.scriptLogs step = s.scriptLogs step) := by
  intro after
  -- the buffer as the operation leaves it, and what it means to be evicted
  have hlogs : after.scriptLogs step =
      if step ∈ (s.archive.push record).2 then [] else s.scriptLogs step := by
    rw [scriptLogs, archiveRecord_logs, StepLogs.entries_clearAll]
    rfl
  have hevicts : s.archive.Has step ∧ ¬ after.archive.Has step ↔
      step ∈ (s.archive.push record).2 := by
    rw [Archive.mem_evicted_iff, s.archiveRecord_archive]
  rw [hlogs, hevicts]
  exact ⟨fun hmem => if_pos hmem, fun hmem => if_neg hmem⟩

end Supervisor

namespace Session

/-! ## Since the last eviction

A buffer is emptied by an eviction and by nothing else, and between two evictions it is a window on
what was logged. So its content is told by where the last eviction of the step was.
-/

/-- What a run has logged was logged by one of its actions. -/
theorem mem_history_iff {session : Session} {actions : List Action} {entry : LogEntry} :
    entry ∈ session.history actions ↔ ∃ i action, actions[i]? = some action ∧
      entry ∈ (session.run (actions.take i)).logged action := by
  induction actions generalizing session with
  | nil => simp [history]
  | cons first rest ih =>
    rw [history, List.mem_append, ih]
    constructor
    · rintro (hfirst | ⟨i, action, haction, hentry⟩)
      · exact ⟨0, first, rfl, hfirst⟩
      · exact ⟨i + 1, action, haction, hentry⟩
    · rintro ⟨_ | i, action, haction, hentry⟩
      · -- logged by the first action, or later
        obtain rfl := Option.some.inj haction
        exact .inl hentry
      · exact .inr ⟨i, action, haction, hentry⟩

/-- The action at a position of a run lets the step log something. -/
def LogsAt (session : Session) (actions : List Action) (step : StepId) (i : Nat) : Prop :=
  ∃ action, actions[i]? = some action ∧
    ∃ entry ∈ (session.run (actions.take i)).logged action, entry.step = step

/-- From this position on no action has evicted the step, and the one before has, or there is
none. -/
structure SinceEviction (session : Session) (actions : List Action) (step : StepId) (since : Nat) :
    Prop where
  evicted : since = 0 ∨ ∃ k, since = k + 1 ∧ session.EvictsAt actions step k
  kept : ∀ k, since ≤ k → ¬ session.EvictsAt actions step k

/-- What evicts a step is an action of the run. -/
theorem EvictsAt.lt_length {session : Session} {actions : List Action} {step : StepId} {k : Nat}
    (h : session.EvictsAt actions step k) : k < actions.length := by
  obtain ⟨action, haction, -⟩ := h
  exact (List.getElem?_eq_some_iff.1 haction).1

/-- **There is a last eviction of a step, or none at all.** Induction over the actions that are
looked at. -/
theorem exists_sinceEviction (session : Session) (actions : List Action) (step : StepId) :
    ∃ since, session.SinceEviction actions step since := by
  -- the last eviction below a bound, by induction on the bound
  have hbelow : ∀ bound, ∃ since,
      (since = 0 ∨ ∃ k, since = k + 1 ∧ session.EvictsAt actions step k) ∧
        ∀ k, since ≤ k → k < bound → ¬ session.EvictsAt actions step k := by
    intro bound
    induction bound with
    | zero => exact ⟨0, .inl rfl, fun k _ hk => absurd hk (Nat.not_lt_zero k)⟩
    | succ bound ih =>
      by_cases hevicts : session.EvictsAt actions step bound
      · exact ⟨bound + 1, .inr ⟨bound, rfl, hevicts⟩, by omega⟩
      · obtain ⟨since, hsince, hkept⟩ := ih
        refine ⟨since, hsince, fun k hk hbound => ?_⟩
        rcases Nat.lt_succ_iff_lt_or_eq.1 hbound with hlt | rfl
        · exact hkept k hk hlt
        · exact hevicts
  obtain ⟨since, hsince, hkept⟩ := hbelow actions.length
  exact ⟨since, hsince, fun k hk hevicts => hkept k hk hevicts.lt_length hevicts⟩

section Kept

variable {session : Session} (sound : session.supervisor.logs.Sound)
  (silent : ∀ step, session.supervisor.scriptLogs step = [])

include sound

/-- An action that evicts a step empties its buffer, and lets it log nothing. -/
theorem scriptLogs_of_evictsAt {actions : List Action} {step : StepId} {k : Nat}
    (h : session.EvictsAt actions step k) :
    (session.run (actions.take (k + 1))).supervisor.scriptLogs step = [] ∧
      ¬ session.LogsAt actions step k := by
  obtain ⟨action, haction, hevicts⟩ := h
  rw [run_take_succ session haction]
  rcases act_scriptLogs (run_sound sound (actions.take k)).1 action step with
    ⟨-, hnone, hempty⟩ | ⟨hnot, -⟩
  · refine ⟨hempty, ?_⟩
    rintro ⟨other, hother, entry, hentry, hstep⟩
    -- the action at this position is the one that evicts, and it logs nothing for the step
    obtain rfl := Option.some.inj (haction.symm.trans hother)
    rw [List.filter_eq_nil_iff] at hnone
    exact hnone entry hentry (beq_iff_eq.2 hstep)
  · exact absurd hevicts hnot

include silent

/-- **From there on the buffer fills**: it holds the newest entries that were logged since. -/
theorem scriptLogs_since_eviction {actions : List Action} {step : StepId} {since : Nat}
    (h : session.SinceEviction actions step since) :
    (session.run actions).supervisor.scriptLogs step =
      (((session.run (actions.take since)).history (actions.drop since)).filter
        (·.step == step)).rtake session.supervisor.logs.capacity := by
  obtain ⟨hsound, hcapacity⟩ := run_sound sound (actions.take since)
  -- at the start of the window the buffer is empty
  have hempty : (session.run (actions.take since)).supervisor.scriptLogs step = [] := by
    rcases h.evicted with rfl | ⟨k, rfl, hevicts⟩
    · exact silent step
    · exact (scriptLogs_of_evictsAt sound hevicts).1
  -- and no action within it evicts the step
  have hkept : ∀ k, ¬ (session.run (actions.take since)).EvictsAt (actions.drop since) step k := by
    intro k hk
    rw [evictsAt_drop] at hk
    exact h.kept _ (Nat.le_add_right since k) hk
  rw [← session.run_drop actions since, run_scriptLogs hsound hkept, hempty, List.nil_append,
    hcapacity]

/-- A buffer is not empty exactly if it can hold something and the step has logged since the last
eviction. -/
theorem scriptLogs_ne_nil_iff {actions : List Action} {step : StepId} :
    (session.run actions).supervisor.scriptLogs step ≠ [] ↔
      0 < session.supervisor.logs.capacity ∧ ∃ i, session.LogsAt actions step i ∧
        ∀ k, i < k → ¬ session.EvictsAt actions step k := by
  obtain ⟨since, hsince⟩ := session.exists_sinceEviction actions step
  rw [scriptLogs_since_eviction sound silent hsince, rtake_ne_nil_iff]
  refine and_congr_right fun _ => ?_
  constructor
  · intro hsome
    obtain ⟨entry, hfiltered⟩ := List.exists_mem_of_ne_nil _ hsome
    obtain ⟨hentry, hstep⟩ := List.mem_filter.1 hfiltered
    obtain ⟨i, action, haction, hlogged⟩ := mem_history_iff.1 hentry
    rw [List.getElem?_drop] at haction
    rw [← run_append, ← List.take_add] at hlogged
    refine ⟨since + i, ⟨action, haction, entry, hlogged, beq_iff_eq.1 hstep⟩, fun k hk => ?_⟩
    exact hsince.kept k (by omega)
  · rintro ⟨i, ⟨action, haction, entry, hlogged, hstep⟩, hnot⟩
    -- the entry is younger than the last eviction, since no action that evicts the step lets it log
    have hle : since ≤ i := by
      rcases hsince.evicted with rfl | ⟨k, rfl, hevicts⟩
      · exact Nat.zero_le i
      · rcases Nat.lt_trichotomy i k with hlt | rfl | hlt
        · exact absurd hevicts (hnot k hlt)
        · exact absurd ⟨action, haction, entry, hlogged, hstep⟩
            (scriptLogs_of_evictsAt sound hevicts).2
        · exact hlt
    obtain ⟨more, rfl⟩ := Nat.exists_eq_add_of_le hle
    refine List.ne_nil_of_mem (List.mem_filter.2
      ⟨mem_history_iff.2 ⟨more, action, ?_, ?_⟩, beq_iff_eq.2 hstep⟩)
    · rw [List.getElem?_drop, haction]
    · rw [← run_append, ← List.take_add]
      exact hlogged

end Kept

/-- What evicts a step is the end of an invocation. -/
theorem EvictsAt.ends {session : Session} {actions : List Action} {step : StepId} {k : Nat}
    (h : session.EvictsAt actions step k) :
    ∃ turn, (session.turns actions)[k]? = some turn ∧ turn.ends = true := by
  obtain ⟨action, haction, hhas, hnone⟩ := h
  rcases (session.run (actions.take k)).act_effect action with ⟨-, hlogged⟩ | ⟨hends, -⟩
  · rw [hlogged.archive] at hnone
    exact absurd hhas hnone
  · refine ⟨_, ?_, hends⟩
    rw [getElem?_turns, haction]
    rfl

/-- **What a log buffer holds.** After every run, and for every pair of capacities, the buffer of a
step holds the newest entries, as many as it can, among all that have been logged for the step since
an action last pushed its last record out of the archive, or since the start if none has. Such an
action ends an invocation. Archiving a record leaves the buffer of its own step alone, and that of
every step that still has a record. -/
theorem scriptLogs_since (config : Config) (outlet : LogOutlet) (actions : List Action)
    (step : StepId) :
    let session := new config outlet
    (∃ since, session.SinceEviction actions step since ∧
      (session.run actions).supervisor.scriptLogs step =
        (((session.run (actions.take since)).history (actions.drop since)).filter
          (·.step == step)).rtake config.scriptLogCapacity) ∧
    (∀ k, session.EvictsAt actions step k →
      ∃ turn, (session.turns actions)[k]? = some turn ∧ turn.ends = true) ∧
    (∀ (s : Supervisor) (record : Record),
      record.step = step ∨ (s.archiveRecord record).archive.Has step →
        (s.archiveRecord record).scriptLogs step = s.scriptLogs step) := by
  intro session
  refine ⟨?_, fun k => EvictsAt.ends, ?_⟩
  · obtain ⟨since, hsince⟩ := session.exists_sinceEviction actions step
    refine ⟨since, hsince, ?_⟩
    exact scriptLogs_since_eviction (StepLogs.sound_new config.scriptLogCapacity) (fun _ => rfl)
      hsince
  · intro s record hstep
    refine (s.scriptLogs_archiveRecord record step).2 ?_
    -- the record's own step has a record now, so it is not evicted
    rintro ⟨-, hnone⟩
    apply hnone
    rcases hstep with rfl | hhas
    · rw [s.archiveRecord_archive]
      exact s.archive.has_push record
    · exact hhas

/-! ## Buffers that outlive their step

A buffer is only taken along by the last record of its step. A step that is gone has no record and
will not get one, unless it begins again; what is logged for it then is in nobody's care.
-/

/-- The step has an invocation that has begun and not ended. -/
def HasInFlight (session : Session) (actions : List Action) (step : StepId) : Prop :=
  ∃ label request start, session.Stands actions label request start none ∧ request.step = step

/-- The step has neither a record nor an invocation in flight. -/
structure Gone (session : Session) (actions : List Action) (step : StepId) : Prop where
  record : ¬ (session.run actions).supervisor.archive.Has step
  invocation : ¬ session.HasInFlight actions step

/-- The step logs something at `i`, but it is gone then, and it has not been evicted since. -/
structure StraysAt (session : Session) (actions : List Action) (step : StepId) (i : Nat) :
    Prop where
  logs : session.LogsAt actions step i
  gone : session.Gone (actions.take (i + 1)) step
  kept : ∀ k, i < k → ¬ session.EvictsAt actions step k

/-- A record that no action evicts is still there in the end. -/
theorem has_of_not_evictsAt {session : Session} {actions : List Action} {step : StepId} {j : Nat}
    (h : (session.run (actions.take j)).supervisor.archive.Has step)
    (hnot : ∀ k, j ≤ k → ¬ session.EvictsAt actions step k) :
    (session.run actions).supervisor.archive.Has step := by
  have hlater : ∀ n, j ≤ n → (session.run (actions.take n)).supervisor.archive.Has step := by
    intro n hn
    induction n, hn using Nat.le_induction with
    | base => exact h
    | succ n hn ih =>
      cases haction : actions[n]? with
      | none =>
        rw [List.getElem?_eq_none_iff] at haction
        rw [List.take_of_length_le (Nat.le_succ_of_le haction)]
        rwa [List.take_of_length_le haction] at ih
      | some action =>
        rw [run_take_succ session haction]
        -- an action that took the last record would have evicted the step
        by_contra hnone
        exact hnot n hn ⟨action, haction, ih, hnone⟩
  have hall := hlater (max j actions.length) (Nat.le_max_left ..)
  rwa [List.take_of_length_le (Nat.le_max_right ..)] at hall

/-- If a step is gone in the end and was not evicted since a moment, it was gone at that moment. -/
theorem Gone.earlier {session : Session} (hempty : session.live = ∅) {actions : List Action}
    {step : StepId} (h : session.Gone actions step) {j : Nat}
    (hnot : ∀ k, j ≤ k → ¬ session.EvictsAt actions step k) :
    session.Gone (actions.take j) step := by
  refine ⟨fun hhas => h.record (has_of_not_evictsAt hhas hnot), ?_⟩
  rintro ⟨label, request, start, hstands, rfl⟩
  obtain ⟨hbegun, hopen⟩ := stands_none_iff.1 hstands
  have hstart : start < (actions.take j).length := (List.getElem?_eq_some_iff.1 hbegun).1
  rw [List.getElem?_take_of_lt (by simpa using hstart.trans_le (List.length_take_le ..))] at hbegun
  -- it has ended since, and left a record
  by_cases hfinish : ∃ finish, session.Finishes actions label request start finish
  · obtain ⟨finish, hfinishes⟩ := hfinish
    have hlate : j ≤ finish := by
      by_contra hearly
      exact hopen finish ((finishes_take_iff (Nat.lt_of_not_le hearly)).2 hfinishes)
    obtain ⟨kept, record, hstep, hrecords⟩ := hfinishes.record hempty
    have hhas : (session.run (actions.take (finish + 1))).supervisor.archive.Has request.step :=
      ⟨record, hrecords ▸ List.mem_append_right _ (List.mem_singleton_self record), hstep⟩
    exact h.record (has_of_not_evictsAt hhas fun k hk => hnot k (by omega))
  · exact h.invocation
      ⟨label, request, start, .running hbegun fun finish hf => hfinish ⟨finish, hf⟩, rfl⟩

/-- What a detached script logs is of its own step. -/
theorem detached_of_mem_logged {session : Session} {index : Nat} {action : Action}
    (haction : action = .resume index ∨ action = .finish index) {entry : LogEntry}
    (h : entry ∈ session.logged action) :
    ∃ running, session.detached[index]? = some running ∧
      running.invocation.step = entry.step := by
  -- only a detached script that exists logs anything
  cases hrunning : session.detached[index]? with
  | none =>
    rcases haction with rfl | rfl <;>
    · simp only [logged, hrunning] at h
      cases h
  | some running =>
    refine ⟨running, rfl, ?_⟩
    rcases haction with rfl | rfl
    · obtain ⟨invocation, script, transcript⟩ := running
      cases script with
      | ends outcome =>
        simp only [logged, hrunning] at h
        cases h
      | call call next =>
        simp only [logged, hrunning] at h
        exact (Call.step_of_mem_entries h).symm
    · simp only [logged, hrunning] at h
      exact (step_of_mem_entries h).symm

/-- Who can log for a step that is gone: a host, or the rest of a script whose execution was
cancelled. -/
theorem Gone.logger {session : Session} {actions : List Action} {step : StepId} {i : Nat}
    (hlogs : session.LogsAt actions step i) (h : session.Gone (actions.take (i + 1)) step) :
    ∃ action, actions[i]? = some action ∧
      ((∃ level message, action = .log step level message) ∨
        ∃ index running, (action = .resume index ∨ action = .finish index) ∧
          (session.run (actions.take i)).detached[index]? = some running ∧
          running.invocation.step = step) := by
  obtain ⟨action, haction, entry, hentry, hstep⟩ := hlogs
  refine ⟨action, haction, ?_⟩
  have hnone := h.record
  rw [run_take_succ session haction] at hnone
  let before := session.run (actions.take i)
  -- an execution leaves a record
  have archived (executed : Supervisor × Supervisor.Execution) (request : StepRequest)
      (hexecutes : Supervisor.Executes request before.supervisor executed)
      (hsame : request.step = step) : executed.1.archive.Has step := by
    obtain ⟨ran, -, record, hrecord, harchive, -⟩ := hexecutes
    rw [harchive, ← hsame, ← hrecord]
    exact ran.archive.has_push record
  cases action with
  -- hosts that work on an invocation do not log
  | begin | set | setOutput | commit | fail => cases hentry
  | log own level message =>
    obtain rfl := List.mem_singleton.1 hentry
    exact .inl ⟨level, message, by rw [← hstep]⟩
  | execute request script =>
    exact absurd (archived _ request (before.supervisor.executes_execute request script)
      ((step_of_mem_entries hentry).symm.trans hstep)) hnone
  | executeAsync request script cancellation =>
    exact absurd (archived _ request
      (before.supervisor.executes_executeAsync request script cancellation)
      ((step_of_mem_entries hentry).symm.trans hstep)) hnone
  | resume index =>
    obtain ⟨running, hrunning, hown⟩ := detached_of_mem_logged (.inl rfl) hentry
    exact .inr ⟨index, running, .inl rfl, hrunning, hown.trans hstep⟩
  | finish index =>
    obtain ⟨running, hrunning, hown⟩ := detached_of_mem_logged (.inr rfl) hentry
    exact .inr ⟨index, running, .inr rfl, hrunning, hown.trans hstep⟩

/-! ## How many buffers there are

Each buffer has a record, an invocation in flight or a stray entry to account for it, and the
archive bounds the number of records.
-/

/-- The archive has room for as many records as it started with, and no more records than that. -/
theorem length_records_run_le {session : Session}
    (h : session.supervisor.archive.records.length ≤ session.supervisor.archive.room)
    (actions : List Action) :
    (session.run actions).supervisor.archive.records.length ≤
      session.supervisor.archive.room := by
  have hroom : (session.run actions).supervisor.archive.records.length ≤
        (session.run actions).supervisor.archive.room ∧
      (session.run actions).supervisor.archive.room = session.supervisor.archive.room := by
    induction actions using List.reverseRecOn with
    | nil => exact ⟨h, rfl⟩
    | append_singleton actions action ih =>
      rw [run_concat]
      -- an action leaves the archive alone, or pushes one record
      rcases (session.run actions).act_effect action with
        ⟨-, hlogged⟩ | ⟨-, -, ran, -, hlogged, record, -, harchive, -⟩
      · rw [hlogged.archive]
        exact ih
      · rw [harchive, ← ih.2, ← hlogged.archive]
        exact ⟨ran.archive.length_push_le record, rfl⟩
  exact hroom.2 ▸ hroom.1

/-! ## How many can stray

A host may log under any step at all, at any time. So a run can be prolonged by as many strays as
one likes: only finitely many steps are anything but gone, and logging for one that is gone changes
nothing for the others.
-/

/-- A host that logs ends nothing and archives nothing, so what is gone stays gone. -/
theorem Gone.concat_log {session : Session} {actions : List Action} {step : StepId}
    (h : session.Gone actions step) (own : StepId) (level : LogLevel) (message : String) :
    session.Gone (actions ++ [.log own level message]) step := by
  constructor
  · rw [run_concat]
    exact (session.run actions).supervisor.log_archive own level message ▸ h.record
  · rintro ⟨label, request, start, hstands, rfl⟩
    -- an invocation in flight afterwards would have been in flight before
    obtain ⟨hbegun, hopen⟩ := stands_none_iff.1 hstands
    have hsame : session.inFlight (actions ++ [.log own level message]) =
        session.inFlight actions :=
      inFlight_concat_of_not_ended (fun _ _ => nofun) fun _ => nofun
    have hflight : start ∈ session.inFlight actions := hsame ▸ ⟨label, request, hstands⟩
    rw [List.getElem?_append_left (lt_length_of_mem_inFlight hflight)] at hbegun
    exact h.invocation ⟨label, request, start,
      .running hbegun fun finish hf => hopen finish (finishes_concat_iff.2 (.inl hf)), rfl⟩

/-- Nothing is evicted by a host that logs. -/
theorem evictsAt_concat_log {session : Session} {actions : List Action} {step own : StepId}
    {level : LogLevel} {message : String} {k : Nat}
    (h : session.EvictsAt (actions ++ [.log own level message]) step k) :
    session.EvictsAt actions step k := by
  obtain ⟨action, haction, hhas, hnone⟩ := h
  by_cases hlt : k < actions.length
  · rw [List.getElem?_append_left hlt] at haction
    rw [List.take_append_of_le_length hlt.le] at hhas hnone
    exact ⟨action, haction, hhas, hnone⟩
  · -- the last action is what the host logs, and the archive is the same behind it
    obtain rfl := List.mem_singleton.1
      (List.mem_of_getElem? (List.getElem?_append_right (Nat.le_of_not_lt hlt) ▸ haction))
    refine absurd ?_ hnone
    show (Supervisor.log _ own level message).archive.Has step
    rwa [Supervisor.log_archive]

/-- What strays still strays when a host logs again. -/
theorem StraysAt.concat_log {session : Session} {actions : List Action} {step : StepId} {i : Nat}
    (h : session.StraysAt actions step i) (own : StepId) (level : LogLevel) (message : String) :
    session.StraysAt (actions ++ [.log own level message]) step i := by
  obtain ⟨action, haction, hentry⟩ := h.logs
  have hlt : i < actions.length := (List.getElem?_eq_some_iff.1 haction).1
  refine ⟨⟨action, ?_, ?_⟩, ?_, fun k hk hevicts => h.kept k hk (evictsAt_concat_log hevicts)⟩
  · rw [List.getElem?_append_left hlt, haction]
  · rwa [List.take_append_of_le_length hlt.le]
  · rw [List.take_append_of_le_length hlt]
    exact h.gone

/-- What a host logs for a step that is gone strays. -/
theorem Gone.straysAt_log {session : Session} {actions : List Action} {step : StepId}
    (h : session.Gone actions step) (level : LogLevel) (message : String) :
    session.StraysAt (actions ++ [.log step level message]) step actions.length := by
  refine ⟨⟨.log step level message, List.getElem?_concat_length, ?_⟩, ?_, ?_⟩
  · exact ⟨⟨step, level, message⟩, List.mem_singleton_self _, rfl⟩
  · rw [List.take_of_length_le (by simp)]
    exact h.concat_log step level message
  · intro k hk hevicts
    exact absurd (evictsAt_concat_log hevicts).lt_length (Nat.not_lt_of_gt hk)

/-- A host that logs once for each of some steps leaves every other step gone that was, and makes
those of the steps stray that were gone. The induction adds what is logged last. -/
theorem strays_of_logs (session : Session) (actions : List Action) (steps : List StepId) :
    let ran := actions ++ steps.map (Action.log · .info "")
    (∀ step, session.Gone actions step → session.Gone ran step) ∧
      ∀ step ∈ steps, session.Gone actions step → ∃ i, session.StraysAt ran step i := by
  intro ran
  -- on the console lines from the end: the last one makes its own step stray
  induction steps using List.reverseRecOn with
  | nil =>
    refine ⟨fun step hgone => ?_, nofun⟩
    rwa [show ran = actions from List.append_nil actions]
  | append_singleton steps last ih =>
    obtain ⟨hgone, hstrays⟩ := ih
    have hran : ran = actions ++ steps.map (Action.log · .info "") ++ [.log last .info ""] := by
      rw [List.append_assoc, ← List.map_singleton (f := (Action.log · .info "")),
        ← List.map_append]
    rw [hran]
    refine ⟨fun step h => (hgone step h).concat_log last .info "", fun step hmem h => ?_⟩
    -- an earlier stray stays one, and the new line adds one
    rcases List.mem_append.1 hmem with hmem | hlast
    · obtain ⟨i, hi⟩ := hstrays step hmem h
      exact ⟨i, hi.concat_log last .info ""⟩
    · obtain rfl := List.mem_singleton.1 hlast
      exact ⟨_, (hgone step h).straysAt_log .info ""⟩

/-- All but finitely many steps are gone: the others have a record, or have been asked for. -/
theorem infinite_gone (session : Session) (actions : List Action) :
    {step | session.Gone actions step}.Infinite := by
  have hrecords : {step | (session.run actions).supervisor.archive.Has step}.Finite :=
    Set.finite_of_encard_le_coe ((session.run actions).supervisor.archive.encard_has_le)
  have hflight : {step | session.HasInFlight actions step}.Finite := by
    -- a begin is of one step, so finitely many begins are of finitely many
    have hsteps : ∀ start : Nat, {step | ∃ label request,
        actions[start]? = some (.begin label request) ∧ request.step = step}.Subsingleton := by
      rintro start _ ⟨label, request, hbegun, rfl⟩ _ ⟨other, asked, hother, rfl⟩
      rw [hbegun, Option.some.injEq, Action.begin.injEq] at hother
      rw [hother.2]
    have hall := (session.finite_inFlight actions).biUnion fun start _ => (hsteps start).finite
    refine hall.subset ?_
    rintro step ⟨label, request, start, hstands, hstep⟩
    exact Set.mem_biUnion (show start ∈ session.inFlight actions from ⟨label, request, hstands⟩)
      ⟨label, request, (stands_none_iff.1 hstands).1, hstep⟩
  have : Infinite StepId := .of_injective StepId.mk fun _ _ => StepId.mk.inj
  refine (hrecords.union hflight).infinite_compl.mono ?_
  intro step hstep
  exact ⟨fun hhas => hstep (.inl hhas), fun hin => hstep (.inr hin)⟩

/-- **Nothing bounds how many steps stray**: after any run a host can log for as many more as it
likes that are gone. -/
theorem exists_strays (session : Session) (actions : List Action) (n : Nat) :
    ∃ more, n ≤ {step | ∃ i, session.StraysAt (actions ++ more) step i}.encard := by
  obtain ⟨steps, hgone, hcard⟩ := (session.infinite_gone actions).exists_subset_card_eq n
  obtain ⟨-, hstrays⟩ := session.strays_of_logs actions steps.toList
  refine ⟨steps.toList.map (Action.log · .info ""), ?_⟩
  rw [← hcard, ← Set.encard_coe_eq_coe_finsetCard]
  exact Set.encard_le_encard fun step hstep =>
    hstrays step (Finset.mem_toList.2 hstep) (hgone hstep)

/-- **What outlives a step in the log buffers.** After every run, whatever was done in it and in
whichever order, and for every pair of capacities:

* a step with buffered logs has a record, or an invocation in flight, or something was logged for it
  while it had neither, and its last record has not left the archive since;
* conversely what was logged so is there, if the buffer can hold anything;
* only a host does so, or the rest of a script of the step whose execution was cancelled;
* there are no more steps with buffered logs than there are records kept, steps in flight, and steps
  for which something was logged so;
* but nothing bounds the number of these: the run can go on so that there are as many as one
  likes. -/
theorem buffered_logs_owned (config : Config) (outlet : LogOutlet) (actions : List Action) :
    let session := new config outlet
    let ran := (session.run actions).supervisor
    let strays := fun step => ∃ i, session.StraysAt actions step i
    (∀ step, ran.scriptLogs step ≠ [] →
      ran.archive.Has step ∨ session.HasInFlight actions step ∨ strays step) ∧
    (∀ step, strays step → 0 < config.scriptLogCapacity → ran.scriptLogs step ≠ []) ∧
    (∀ step i, session.StraysAt actions step i → ∃ action, actions[i]? = some action ∧
      ((∃ level message, action = .log step level message) ∨
        ∃ index running, (action = .resume index ∨ action = .finish index) ∧
          (session.run (actions.take i)).detached[index]? = some running ∧
          running.invocation.step = step)) ∧
    {step | ran.scriptLogs step ≠ []}.encard ≤
      max config.archiveCapacity 1 + {step | session.HasInFlight actions step}.encard +
        {step | strays step}.encard ∧
    ∀ n : Nat, ∃ more, n ≤ {step | ∃ i, session.StraysAt (actions ++ more) step i}.encard := by
  intro session ran strays
  have hfilled := fun step => @scriptLogs_ne_nil_iff session
    (StepLogs.sound_new config.scriptLogCapacity) (fun _ => rfl) actions step
  -- by the entry in the buffer: what has logged it is there still, or has been gone since
  have howned : ∀ step, ran.scriptLogs step ≠ [] →
      ran.archive.Has step ∨ session.HasInFlight actions step ∨ strays step := by
    intro step hsome
    obtain ⟨-, i, hlogs, hkept⟩ := (hfilled step).1 hsome
    by_cases hhas : ran.archive.Has step
    · exact .inl hhas
    · by_cases hflight : session.HasInFlight actions step
      · exact .inr (.inl hflight)
      · have hgone : session.Gone actions step := ⟨hhas, hflight⟩
        exact .inr (.inr ⟨i, hlogs, hgone.earlier rfl hkept, hkept⟩)
  refine ⟨howned, ?_, fun step i hstrays => hstrays.gone.logger hstrays.logs, ?_,
    session.exists_strays actions⟩
  · rintro step ⟨i, hstrays⟩ hcapacity
    exact (hfilled step).2 ⟨hcapacity, i, hstrays.logs, hstrays.kept⟩
  · have hrecords : {step | ran.archive.Has step}.encard ≤ max config.archiveCapacity 1 := by
      refine ran.archive.encard_has_le.trans ?_
      exact_mod_cast @length_records_run_le session (Nat.zero_le _) actions
    -- the three reasons for a buffer cover all of them
    have hcover : {step | ran.scriptLogs step ≠ []} ⊆ {step | ran.archive.Has step} ∪
        {step | session.HasInFlight actions step} ∪ {step | strays step} := by
      intro step hsome
      rw [Set.union_assoc]
      exact howned step hsome
    calc {step | ran.scriptLogs step ≠ []}.encard
        ≤ ({step | ran.archive.Has step} ∪ {step | session.HasInFlight actions step} ∪
            {step | strays step}).encard := Set.encard_le_encard hcover
      _ ≤ {step | ran.archive.Has step}.encard + {step | session.HasInFlight actions step}.encard +
            {step | strays step}.encard :=
          (Set.encard_union_le _ _).trans (add_le_add_left (Set.encard_union_le _ _) _)
      _ ≤ _ := add_le_add_left (add_le_add_left hrecords _) _

/-- An execution of the step `a` is cancelled before its script makes its only call, which is to
log. The step `b` commits, and only then does the script go on. -/
def straying : List Action :=
  [.executeAsync { step := ⟨"a"⟩ } (.call (.log .info "late") fun _ => .ends .returned)
      (.afterCalls 0),
    .begin "b1" { step := ⟨"b"⟩ }, .commit "b1", .resume 0]

/-- Not every step with buffered logs has a record or an invocation in flight, even if only scripts
log. -/
theorem not_every_buffer_owned :
    ¬ ∀ (config : Config) (outlet : LogOutlet) (actions : List Action) (step : StepId),
      (∀ own level message, Action.log own level message ∉ actions) →
      ((new config outlet).run actions).supervisor.scriptLogs step ≠ [] →
      ((new config outlet).run actions).supervisor.archive.Has step ∨
        (new config outlet).HasInFlight actions step := by
  intro hall
  have hquiet : ∀ own level message, Action.log own level message ∉ straying := by
    simp [straying]
  have hlogs : (forgetful.run straying).supervisor.scriptLogs ⟨"a"⟩ =
      [⟨⟨"a"⟩, .info, "late"⟩] := rfl
  have howned := hall { archiveCapacity := 1 } .trace straying ⟨"a"⟩ hquiet
    (hlogs ▸ List.cons_ne_nil _ _)
  rcases howned with ⟨record, hrecord, hstep⟩ | ⟨label, request, start, hstands, hstep⟩
  · obtain ⟨only, honly, hb⟩ : ∃ only,
        (forgetful.run straying).supervisor.archive.records = [only] ∧ only.step = ⟨"b"⟩ :=
      ⟨_, rfl, rfl⟩
    obtain rfl := List.mem_singleton.1 (honly ▸ hrecord)
    exact absurd (hb.symm.trans hstep) (by decide)
  · -- the only invocation that a host has begun is one of `b`
    have hbegun := List.mem_of_getElem? (stands_none_iff.1 hstands).1
    simp only [straying, List.mem_cons, List.not_mem_nil, reduceCtorEq, false_or, or_false,
      Action.begin.injEq] at hbegun
    rw [hbegun.2] at hstep
    exact absurd hstep (by decide)

end Session

end StepRelay
