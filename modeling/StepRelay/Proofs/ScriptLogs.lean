import Mathlib.Data.List.DropRight
import StepRelay.Proofs.Kept

/-!
# What the script logs hold

A buffer keeps the newest entries of a step up to its capacity, and it is forgotten when the step's
last record leaves the archive. `act_effect` says all that an action can do to the logs and the
archive: it lets entries be logged, and then may end one invocation, whose record pushes others out.
Of a run follow what the buffer of a step holds as long as it is not forgotten (`run_scriptLogs`),
and when what was logged since is all there can be (`length_scriptLogs_run_le`).

## The argument

* A ring keeps the newest entries (`push_entries`), so recording several of them leaves the newest
  of the old ones and the new ones together (`Sound.recordAll`).
* A push evicts exactly the steps that lose their last record by it (`mem_evicted_iff`), and never
  the step whose record comes in.
* Scripts let entries be logged (`makes_runScript`), ends archive (`archives_commit`,
  `archives_recordFailure`), and an execution does one after the other (`executes_execute`,
  `executes_executeAsync`).
* So an action either empties the buffer of a step or appends what the step logs (`act_scriptLogs`),
  and the results on runs are inductions over that.
-/

namespace StepRelay

/-! ## Newest items

`List.rtake` takes items from the end. Cutting off repeatedly while a list grows at its end is
cutting off once, which is why the buffer of a step can be told from all that it logged.
-/

/-- What is dropped first would be dropped later anyway. -/
theorem rtake_append_rtake {α : Type} (count : Nat) (first second : List α) :
    (first.rtake count ++ second).rtake count = (first ++ second).rtake count := by
  rw [List.rtake_eq_reverse_take_reverse, List.rtake_eq_reverse_take_reverse,
    List.rtake_eq_reverse_take_reverse, List.reverse_append, List.reverse_append,
    List.reverse_reverse, List.take_append, List.take_append, List.take_take]
  congr 3
  omega

/-- If there is room for all, none is dropped. -/
theorem rtake_eq_self {α : Type} {count : Nat} {items : List α} (h : items.length ≤ count) :
    items.rtake count = items := by
  rw [List.rtake, Nat.sub_eq_zero_of_le h, List.drop_zero]

theorem length_rtake_le {α : Type} (count : Nat) (items : List α) :
    (items.rtake count).length ≤ count := by
  rw [List.rtake, List.length_drop]
  omega

/-- Items at the end are among the newest exactly if there are not too many of them. -/
theorem suffix_rtake_iff {α : Type} {count : Nat} {first last : List α} :
    last <:+ (first ++ last).rtake count ↔ last.length ≤ count := by
  constructor
  · intro h
    exact Nat.le_trans h.length_le (length_rtake_le ..)
  · intro h
    have hdrop : (first ++ last).length - count ≤ first.length := by
      rw [List.length_append]
      omega
    rw [List.rtake, List.drop_append_of_le_length hdrop]
    exact List.suffix_append ..

/-! ## Buffers

All rings have the same capacity, which no type says; `Sound` does. Given that, a buffer is the
newest part of everything that was recorded for its step.
-/

namespace StepLogs

/-- Each ring has the common capacity, and no more entries than that. -/
def Sound (logs : StepLogs) : Prop :=
  ∀ key ring, logs.rings.get? key = some ring →
    ring.capacity = logs.capacity ∧ ring.entries.length ≤ logs.capacity

/-- Keeps entries one after the other. -/
def recordAll (logs : StepLogs) (entries : List LogEntry) : StepLogs := entries.foldl record logs

/-- Forgets steps one after the other. -/
def clearAll (logs : StepLogs) (steps : List StepId) : StepLogs := steps.foldl clear logs

/-- **A ring keeps the newest entries**, as many as its capacity. -/
theorem push_entries {ring : LogRing} (h : ring.entries.length ≤ ring.capacity) (entry : LogEntry) :
    (ring.push entry).entries = (ring.entries ++ [entry]).rtake ring.capacity ∧
      (ring.push entry).capacity = ring.capacity := by
  unfold LogRing.push
  split
  · -- no room at all: the ring has nothing, and takes nothing
    next hzero =>
    rw [hzero, Nat.le_zero, List.length_eq_zero_iff] at h
    rw [hzero, h, List.rtake_zero]
    exact ⟨rfl, rfl⟩
  · split
    · -- no room left: the oldest entry goes
      next hzero hfull =>
      have hlength : (ring.entries ++ [entry]).length - ring.capacity = 1 := by
        rw [List.length_append, List.length_singleton]
        omega
      refine ⟨?_, rfl⟩
      rw [List.rtake, hlength, List.drop_append_of_le_length (by omega)]
    · -- room for one more
      next hfree =>
      refine ⟨(rtake_eq_self ?_).symm, rfl⟩
      rw [List.length_append, List.length_singleton]
      omega

/-- The ring to which an entry of a step goes. -/
theorem Sound.ring {logs : StepLogs} (h : logs.Sound) (step : StepId) :
    let ring := (logs.rings.get? step.id).getD { capacity := logs.capacity }
    ring.capacity = logs.capacity ∧ ring.entries.length ≤ logs.capacity ∧
      ring.entries = logs.entries step := by
  cases hring : logs.rings.get? step.id with
  | none => simp [entries, hring]
  | some ring =>
    obtain ⟨hcapacity, hlength⟩ := h step.id ring hring
    simp [entries, hring, hcapacity, hlength]

/-- No buffer holds more than the capacity. -/
theorem Sound.length_entries_le {logs : StepLogs} (h : logs.Sound) (step : StepId) :
    (logs.entries step).length ≤ logs.capacity := by
  obtain ⟨-, hlength, hentries⟩ := h.ring step
  rwa [hentries] at hlength

/-- **One entry more**: it goes to the buffer of its step, and no other buffer changes. -/
theorem Sound.record {logs : StepLogs} (h : logs.Sound) (entry : LogEntry) :
    (logs.record entry).Sound ∧
      ∀ step, (logs.record entry).entries step =
        (logs.entries step ++ [entry].filter (·.step == step)).rtake logs.capacity := by
  obtain ⟨hcapacity, hlength, hentries⟩ := h.ring entry.step
  unfold StepLogs.record
  generalize (logs.rings.get? entry.step.id).getD { capacity := logs.capacity } = ring at *
  rw [← hcapacity] at hlength
  obtain ⟨hpushed, hkept⟩ := push_entries hlength entry
  rw [hentries, hcapacity] at hpushed
  rw [hcapacity] at hkept
  constructor
  · -- the ring of the step has the capacity and no more entries than that
    intro key other hother
    rw [OrderedMap.get?_insert] at hother
    split at hother
    · rw [← Option.some.inj hother, hkept, hpushed]
      exact ⟨rfl, length_rtake_le ..⟩
    · exact h key other hother
  · intro step
    by_cases hstep : entry.step = step
    · -- the buffer of the step itself
      subst hstep
      simp [StepLogs.entries, OrderedMap.get?_insert, hpushed]
    · -- another one, into which the entry does not go
      have hid : entry.step.id ≠ step.id := fun hid => hstep (congrArg StepId.mk hid)
      have hnone : [entry].filter (·.step == step) = [] := by simp [hstep]
      rw [hnone, List.append_nil, rtake_eq_self (h.length_entries_le step), StepLogs.entries,
        OrderedMap.get?_insert, if_neg hid, StepLogs.entries]

/-- **Several entries more**: each buffer has the newest of its entries and of those of its step. -/
theorem Sound.recordAll {logs : StepLogs} (h : logs.Sound) (entries : List LogEntry) :
    (logs.recordAll entries).Sound ∧ (logs.recordAll entries).capacity = logs.capacity ∧
      ∀ step, (logs.recordAll entries).entries step =
        (logs.entries step ++ entries.filter (·.step == step)).rtake logs.capacity := by
  induction entries generalizing logs with
  | nil =>
    refine ⟨h, rfl, ?_⟩
    intro step
    rw [List.filter_nil, List.append_nil, rtake_eq_self (h.length_entries_le step)]
    rfl
  | cons entry rest ih =>
    obtain ⟨hsound, hentry⟩ := h.record entry
    obtain ⟨hrest, hcapacity, hentries⟩ := ih hsound
    refine ⟨hrest, hcapacity, ?_⟩
    intro step
    have hcons := hentries step
    rw [hentry step] at hcons
    have hfilter : (entry :: rest).filter (·.step == step) =
        [entry].filter (·.step == step) ++ rest.filter (·.step == step) := by
      rw [← List.filter_append, List.singleton_append]
    -- cutting off after each entry is cutting off at the end
    rw [hfilter, ← List.append_assoc, ← rtake_append_rtake]
    exact hcons

/-- Forgetting a step empties its buffer, and no other. -/
theorem entries_clear (logs : StepLogs) (step other : StepId) :
    (logs.clear step).entries other = if other = step then [] else logs.entries other := by
  rw [StepLogs.clear, StepLogs.entries, OrderedMap.get?_erase]
  by_cases hother : other = step
  · rw [if_pos hother, if_pos (congrArg StepId.id hother).symm]
  · have hid : step.id ≠ other.id := fun hid => hother (congrArg StepId.mk hid).symm
    rw [if_neg hother, if_neg hid, StepLogs.entries]

theorem entries_clearAll (logs : StepLogs) (steps : List StepId) (step : StepId) :
    (logs.clearAll steps).entries step = if step ∈ steps then [] else logs.entries step := by
  induction steps generalizing logs with
  | nil => simp [StepLogs.clearAll]
  | cons first rest ih =>
    refine (ih (logs.clear first)).trans ?_
    rw [entries_clear]
    by_cases hstep : step = first <;> simp [hstep]

/-- The other rings are sound as before. -/
theorem Sound.clear {logs : StepLogs} (h : logs.Sound) (step : StepId) :
    (logs.clear step).Sound := by
  intro key ring hring
  rw [StepLogs.clear, OrderedMap.get?_erase] at hring
  split at hring
  · cases hring
  · exact h key ring hring

theorem Sound.clearAll {logs : StepLogs} (h : logs.Sound) (steps : List StepId) :
    (logs.clearAll steps).Sound ∧ (logs.clearAll steps).capacity = logs.capacity := by
  induction steps generalizing logs with
  | nil => exact ⟨h, rfl⟩
  | cons first rest ih => exact ih (h.clear first)

/-- Without rings there is nothing to be unsound. -/
theorem sound_new (capacity : Nat) : Sound { capacity } := by
  intro key ring hring
  cases hring

end StepLogs

/-! ## Evictions

A push reports the steps of which it has dropped the last record. A step that still has a record
further on is not reported, though one of its records was dropped.
-/

/-- Erasing repetitions loses no item. -/
theorem mem_eraseReps {α : Type} [BEq α] [LawfulBEq α] {item : α} {items : List α} :
    item ∈ items.eraseReps ↔ item ∈ items := by
  -- the definition runs an accumulator, so the statement is about it
  have hloop : ∀ (rest : List α) (first : α) (before : List α),
      item ∈ List.eraseRepsBy.loop (· == ·) first rest before ↔ item ∈ before ++ first :: rest := by
    intro rest
    induction rest with
    | nil =>
      intro first before
      simp [List.eraseRepsBy.loop, or_comm]
    | cons second rest ih =>
      intro first before
      rw [List.eraseRepsBy.loop]
      cases hsame : first == second with
      | true =>
        rw [ih, beq_iff_eq.1 hsame]
        simp
      | false =>
        rw [ih]
        simp [or_left_comm]
  cases items with
  | nil => rfl
  | cons first rest => exact hloop rest first []

namespace Archive

/-- The step has a record. -/
def Has (archive : Archive) (step : StepId) : Prop := ∃ record ∈ archive.records, record.step = step

/-- A step has a record right after it was archived. -/
theorem has_push (archive : Archive) (record : Record) :
    (archive.push record).1.Has record.step := by
  obtain ⟨evicted, kept, -, hpushed⟩ := archive.push_records record
  exact ⟨record, by simp [hpushed], rfl⟩

/-- **The steps that a push reports are those that have lost their last record.** -/
theorem mem_evicted_iff (archive : Archive) (record : Record) (step : StepId) :
    step ∈ (archive.push record).2 ↔ archive.Has step ∧ ¬ (archive.push record).1.Has step := by
  rw [push, mem_eraseReps, List.mem_filter, List.mem_map, Bool.not_eq_true', List.any_eq_false]
  constructor
  · rintro ⟨⟨old, hold, hstep⟩, hnone⟩
    refine ⟨⟨old, List.mem_of_mem_take hold, hstep⟩, ?_⟩
    -- what is left after the push is what was looked through
    rintro ⟨kept, hkept, hsame⟩
    exact hnone kept hkept (beq_iff_eq.2 hsame)
  · rintro ⟨⟨old, hold, hstep⟩, hnone⟩
    have hgone : ∀ kept ∈
        archive.records.drop (archive.records.length + 1 - archive.room) ++ [record],
        ¬ (kept.step == step) = true :=
      fun kept hkept hsame => hnone ⟨kept, hkept, beq_iff_eq.1 hsame⟩
    refine ⟨⟨old, ?_, hstep⟩, hgone⟩
    -- the old record is not among those that were kept
    rw [← List.take_append_drop (archive.records.length + 1 - archive.room) archive.records,
      List.mem_append] at hold
    refine hold.resolve_right fun hkept => ?_
    exact hgone old (List.mem_append_left _ hkept) (beq_iff_eq.2 hstep)

/-- The step whose record is pushed is not among them. -/
theorem not_mem_evicted (archive : Archive) (record : Record) :
    record.step ∉ (archive.push record).2 := by
  rw [mem_evicted_iff]
  rintro ⟨-, hnone⟩
  exact hnone (archive.has_push record)

end Archive

/-! ## What the supervisor's operations do to the logs

There are two things that an operation may do: let entries be logged (`Logged`), and archive an
invocation (`Archives`). Scripts do the one, ends do the other, and an execution does both in this
order.
-/

/-- The entries that a call of a step's script logs. -/
def Call.entries (step : StepId) : Call → List LogEntry
  | .log level message => [⟨step, level, message⟩]
  | _ => []

/-- The entries that the calls of a step's script log. -/
def Exchange.entries (step : StepId) (transcript : List Exchange) : List LogEntry :=
  transcript.flatMap fun exchange => exchange.call.entries step

/-- What a call logs is of the step of its script. -/
theorem Call.step_of_mem_entries {step : StepId} {call : Call} {entry : LogEntry}
    (h : entry ∈ call.entries step) : entry.step = step := by
  cases call with
  | log level message => rw [List.mem_singleton.1 h]
  | inputs | set | setOutput | state | pause => cases h

theorem step_of_mem_entries {step : StepId} {transcript : List Exchange} {entry : LogEntry}
    (h : entry ∈ Exchange.entries step transcript) : entry.step = step := by
  obtain ⟨exchange, -, hentry⟩ := List.mem_flatMap.1 h
  exact Call.step_of_mem_entries hentry

namespace Supervisor

/-- A log call keeps one entry, whatever the outlet is. -/
theorem log_logs (s : Supervisor) (step : StepId) (level : LogLevel) (message : String) :
    (s.log step level message).logs = s.logs.record ⟨step, level, message⟩ := by
  unfold log
  dsimp only
  split <;> rfl

/-- Entries were logged, and nothing was archived. -/
structure Logged (entries : List LogEntry) (before after : Supervisor) : Prop where
  archive : after.archive = before.archive
  logs : after.logs = before.logs.recordAll entries

/-- What is logged first stands first. -/
theorem Logged.trans {first second : List LogEntry} {a b c : Supervisor} (hab : Logged first a b)
    (hbc : Logged second b c) : Logged (first ++ second) a c := by
  refine ⟨hbc.archive.trans hab.archive, ?_⟩
  rw [hbc.logs, hab.logs, StepLogs.recordAll, StepLogs.recordAll, StepLogs.recordAll,
    List.foldl_append]

theorem logged_begin (s : Supervisor) (request : StepRequest) :
    s.Logged [] (s.begin request).1 := by
  refine ⟨s.begin_archive request, ?_⟩
  simp only [begin, emit, traceLine]
  rw [foldl_keeps Supervisor.logs]
  · rfl
  · exact fun _ _ => rfl

/-- A script of `step` has made the calls by which the second transcript is longer, which have
logged what such calls log. -/
def Makes (step : StepId) (before : Supervisor) (transcript : List Exchange) (after : Supervisor)
    (extended : List Exchange) : Prop :=
  ∃ made, extended = transcript ++ made ∧ before.Logged (Exchange.entries step made) after

theorem Makes.refl (step : StepId) (s : Supervisor) (transcript : List Exchange) :
    s.Makes step transcript s transcript :=
  ⟨[], (List.append_nil _).symm, rfl, rfl⟩

theorem Makes.trans {step : StepId} {a b c : Supervisor} {first second third : List Exchange}
    (hab : a.Makes step first b second) (hbc : b.Makes step second c third) :
    a.Makes step first c third := by
  obtain ⟨made, rfl, hmade⟩ := hab
  obtain ⟨more, rfl, hmore⟩ := hbc
  refine ⟨made ++ more, List.append_assoc .., ?_⟩
  rw [Exchange.entries, List.flatMap_append]
  exact hmade.trans hmore

/-- **A call logs what it asks to be logged, and nothing else.** -/
theorem logged_perform (s : Supervisor) (invocation : Invocation) (call : Call) :
    s.Logged (call.entries invocation.step) (s.perform invocation call).1 := by
  refine ⟨s.perform_archive invocation call, ?_⟩
  cases call with
  | log level message => exact s.log_logs invocation.step level message
  | inputs | set | setOutput | state | pause => rfl

theorem makes_perform (s : Supervisor) (invocation : Invocation) (call : Call)
    (transcript : List Exchange) :
    s.Makes invocation.step transcript (s.perform invocation call).1
      (transcript ++ [⟨call, (s.perform invocation call).2.2⟩]) := by
  refine ⟨_, rfl, ?_⟩
  rw [Exchange.entries, List.flatMap_singleton]
  exact s.logged_perform invocation call

theorem makes_runScript (script : Script) (s : Supervisor) (invocation : Invocation)
    (transcript : List Exchange) :
    let ran := runScript script s invocation transcript
    s.Makes invocation.step transcript ran.1 ran.2.2.1 := by
  induction script generalizing s invocation transcript with
  | ends outcome => exact .refl ..
  | call call next ih =>
    -- the invocation is of the same step after the call
    have hstep : (s.perform invocation call).2.1.step = invocation.step :=
      (continues_perform s invocation call).step
    have hrest := ih (s.perform invocation call).2.2 (s.perform invocation call).1
      (s.perform invocation call).2.1 (transcript ++ [⟨call, (s.perform invocation call).2.2⟩])
    rw [hstep] at hrest
    exact (s.makes_perform invocation call transcript).trans hrest

/-- A script on its way makes the next one. -/
theorem makes_next? {s s' : Supervisor} {running running' : Running}
    (h : s.next? running = some (s', running')) :
    s.Makes running.invocation.step running.transcript s' running'.transcript ∧
      running'.invocation.step = running.invocation.step := by
  obtain ⟨call, rfl, hinvocation, htranscript⟩ := next?_eq_some h
  rw [hinvocation, htranscript]
  exact ⟨s.makes_perform running.invocation call running.transcript,
    (continues_perform s running.invocation call).step⟩

theorem makes_advance (calls : Nat) (s : Supervisor) (running : Running) :
    let advanced := s.advance calls running
    s.Makes running.invocation.step running.transcript advanced.1 advanced.2.1.transcript ∧
      advanced.2.1.invocation.step = running.invocation.step := by
  induction calls generalizing s running with
  | zero => exact ⟨.refl .., rfl⟩
  | succ calls ih =>
    rw [advance]
    cases hnext : s.next? running with
    | none => exact ⟨.refl .., rfl⟩
    | some after =>
      obtain ⟨hmade, hstep⟩ := makes_next? hnext
      obtain ⟨hrest, hsame⟩ := ih after.1 after.2
      rw [hstep] at hrest hsame
      exact ⟨hmade.trans hrest, hsame⟩

/-- An invocation of `step` was archived, and the steps that lost their last record by it have lost
their logs with it. -/
def Archives (step : StepId) (before after : Supervisor) : Prop :=
  ∃ record : Record, record.step = step ∧ after.archive = (before.archive.push record).1 ∧
    after.logs = before.logs.clearAll (before.archive.push record).2

/-- Archiving a record forgets the steps that it evicts. -/
theorem archiveRecord_logs (s : Supervisor) (record : Record) :
    (s.archiveRecord record).logs = s.logs.clearAll (s.archive.push record).2 := by
  simp only [archiveRecord, StepLogs.clearAll]
  exact (List.foldl_hom Supervisor.logs fun _ _ => rfl).symm

/-- What is done before to neither the archive nor the logs makes no difference. -/
theorem archives_archiveRecord {s told : Supervisor} (harchive : told.archive = s.archive)
    (hlogs : told.logs = s.logs) {record : Record} {step : StepId} (hstep : record.step = step) :
    s.Archives step (told.archiveRecord record) := by
  refine ⟨record, hstep, harchive ▸ told.archiveRecord_archive record, ?_⟩
  rw [← harchive, ← hlogs]
  exact told.archiveRecord_logs record

/-- **A failure archives its invocation.** -/
theorem archives_recordFailure (s : Supervisor) (step : StepId)
    (inputs state outputs : OrderedMap Value) (error : StepError) :
    s.Archives step (s.recordFailure step inputs state outputs error) := by
  unfold recordFailure
  exact archives_archiveRecord rfl rfl rfl

/-- **And so does a commit.** -/
theorem archives_commit (s : Supervisor) (invocation : Invocation) :
    s.Archives invocation.step (s.commit invocation).1 := by
  cases hfatal : invocation.fatal with
  | some error =>
    rw [commit_of_fatal hfatal]
    exact archives_recordFailure ..
  | none =>
    simp only [commit, hfatal]
    -- what comes before the archiving touches neither records nor logs
    refine archives_archiveRecord ?_ ?_ rfl
    · simp only [emit_archive, traceLine_archive]
      rw [foldl_keeps Supervisor.archive]
      exact fun _ _ => rfl
    · simp only [emit, traceLine]
      rw [foldl_keeps Supervisor.logs]
      exact fun _ _ => rfl

theorem archives_settle (s : Supervisor) (invocation : Invocation) (outcome : Outcome) :
    s.Archives invocation.step (s.settle invocation outcome).1 := by
  unfold settle
  split
  · exact s.archives_commit invocation
  · exact archives_recordFailure ..

/-- An execution logs what the calls of its transcript log, and then archives its invocation. -/
def Executes (request : StepRequest) (before : Supervisor) (executed : Supervisor × Execution) :
    Prop :=
  ∃ ran, before.Logged (Exchange.entries request.step executed.2.transcript) ran ∧
    ran.Archives request.step executed.1

/-- What was logged before the calls, and what they log. -/
theorem Makes.logged {s reached ran : Supervisor} {step : StepId}
    {transcript extended : List Exchange} (h : reached.Makes step transcript ran extended)
    (hreached : s.Logged (Exchange.entries step transcript) reached) :
    s.Logged (Exchange.entries step extended) ran := by
  obtain ⟨made, rfl, hmade⟩ := h
  rw [Exchange.entries, List.flatMap_append]
  exact hreached.trans hmade

theorem executes_join {s reached : Supervisor} {request : StepRequest} {running : Running}
    (hreached : s.Logged (Exchange.entries request.step running.transcript) reached)
    (hstep : running.invocation.step = request.step) :
    let ran := runScript running.script reached running.invocation running.transcript
    let settled := ran.1.settle ran.2.1 ran.2.2.2
    Executes request s (settled.1, { result := settled.2, transcript := ran.2.2.1 }) := by
  intro ran settled
  have hmade := makes_runScript running.script reached running.invocation running.transcript
  have hended : ran.2.1.step = request.step := (continues_runScript ..).step.trans hstep
  rw [hstep] at hmade
  refine ⟨ran.1, hmade.logged hreached, ?_⟩
  rw [← hended]
  exact ran.1.archives_settle ran.2.1 ran.2.2.2

/-- The invocation that a script is run on is of the step of the request. -/
theorem step_markRunning_begin (s : Supervisor) (request : StepRequest) :
    (s.begin request).2.markRunning.step = request.step :=
  (Invocation.continues_markRunning (s.begin request).2).step

/-- **An execution logs what its script calls for, and then archives its invocation.** -/
theorem executes_execute (s : Supervisor) (request : StepRequest) (script : Script) :
    Executes request s (s.execute request script) :=
  @executes_join s _ request ⟨(s.begin request).2.markRunning, script, []⟩ (s.logged_begin request)
    (s.step_markRunning_begin request)

/-- **And so does one that may be cancelled**; what its script logs later is no part of it. -/
theorem executes_executeAsync (s : Supervisor) (request : StepRequest) (script : Script)
    (cancellation : Cancellation) :
    Executes request s (s.executeAsync request script cancellation) := by
  cases cancellation with
  | never => exact s.executes_execute request script
  | beforeStart => exact ⟨(s.begin request).1, s.logged_begin request, archives_recordFailure ..⟩
  | afterCalls calls =>
    obtain ⟨hmade, hstep⟩ :=
      makes_advance calls (s.begin request).1 ⟨(s.begin request).2.markRunning, script, []⟩
    rw [s.step_markRunning_begin] at hmade hstep
    have hreached := hmade.logged (s.logged_begin request)
    simp only [executeAsync]
    split
    · -- cancelled: what the script has logged so far
      next ran running hadvance =>
      rw [hadvance] at hreached
      exact ⟨ran, hreached, archives_recordFailure ..⟩
    · next ran running hadvance =>
      rw [hadvance] at hreached hstep
      exact executes_join hreached hstep

end Supervisor

/-! ## Actions

`act_effect` is the inversion lemma of this module. It is put together of one lemma for each kind of
action, and everything about runs is drawn from it.
-/

/-- Whether the turn has ended an invocation. -/
def Turn.ends (turn : Turn) : Bool :=
  match turn.reply with
  | .ended _ | .executed _ => true
  | .begun _ | .written _ | .finished _ | .done | .unknown => false

namespace Session

/-- The entries that an action lets be logged, in order. -/
def logged (session : Session) : Action → List LogEntry
  | .log step level message => [⟨step, level, message⟩]
  | .execute request script =>
    Exchange.entries request.step (session.supervisor.execute request script).2.transcript
  | .executeAsync request script cancellation =>
    Exchange.entries request.step
      (session.supervisor.executeAsync request script cancellation).2.transcript
  | .resume index =>
    match session.detached[index]? with
    | some ⟨invocation, .call call _, _⟩ => call.entries invocation.step
    | _ => []
  | .finish index =>
    match session.detached[index]? with
    | some running =>
      Exchange.entries running.invocation.step
        ((session.supervisor.finishDetached running).2.drop running.transcript.length)
    | none => []
  | .begin .. | .set .. | .setOutput .. | .commit _ | .fail .. => []

/-- The entries that a run lets be logged, in order. -/
def history : Session → List Action → List LogEntry
  | _, [] => []
  | session, action :: rest => session.logged action ++ history (session.act action).1 rest

/-- What two parts of a run log, one behind the other. -/
theorem history_append (session : Session) (first second : List Action) :
    session.history (first ++ second) =
      session.history first ++ (session.run first).history second := by
  induction first generalizing session with
  | nil => rfl
  | cons action rest ih => rw [List.cons_append, history, history, ih, List.append_assoc]; rfl

section Effect

variable (session : Session)

/-- A write to an open invocation logs nothing, and neither does one under a label that is not
open. -/
theorem act_effect_write {action : Action}
    (haction : ∃ label name value, action = .set label name value ∨
      action = .setOutput label name value) :
    Turn.ends ⟨action, (session.act action).2⟩ = false ∧
      session.supervisor.Logged (session.logged action) (session.act action).1.supervisor := by
  obtain ⟨label, name, value, rfl | rfl⟩ := haction
  · simp only [act]
    split
    · exact ⟨rfl, rfl, rfl⟩
    · exact ⟨rfl, rfl, rfl⟩
  · simp only [act]
    split
    · exact ⟨rfl, rfl, rfl⟩
    · exact ⟨rfl, rfl, rfl⟩

/-- A detached script that makes its next call logs what this call does. -/
theorem act_effect_resume (index : Nat) :
    Turn.ends ⟨.resume index, (session.act (.resume index)).2⟩ = false ∧
      session.supervisor.Logged (session.logged (.resume index))
        (session.act (.resume index)).1.supervisor := by
  cases hrunning : session.detached[index]? with
  | none =>
    simp only [act, logged, hrunning]
    exact ⟨rfl, rfl, rfl⟩
  | some running =>
    obtain ⟨invocation, script, transcript⟩ := running
    cases script with
    | ends outcome =>
      simp only [act, logged, hrunning]
      exact ⟨rfl, rfl, rfl⟩
    | call call next =>
      simp only [act, logged, hrunning]
      exact ⟨rfl, session.supervisor.logged_perform invocation call⟩

/-- A detached script that runs to its end logs what the calls do that it makes from here on: its
transcript has them behind those that it made before. -/
theorem act_effect_finish (index : Nat) :
    Turn.ends ⟨.finish index, (session.act (.finish index)).2⟩ = false ∧
      session.supervisor.Logged (session.logged (.finish index))
        (session.act (.finish index)).1.supervisor := by
  cases hrunning : session.detached[index]? with
  | none =>
    simp only [act, logged, hrunning]
    exact ⟨rfl, rfl, rfl⟩
  | some running =>
    simp only [act, logged, hrunning]
    obtain ⟨made, htranscript, hmade⟩ := Supervisor.makes_runScript running.script
      session.supervisor running.invocation running.transcript
    -- what is logged is what was made since it was detached
    have hdrop : (session.supervisor.finishDetached running).2.drop running.transcript.length =
        made := by
      simp only [Supervisor.finishDetached]
      rw [htranscript, List.drop_left]
    rw [hdrop]
    exact ⟨rfl, hmade⟩

/-- A commit or a failure logs nothing, and archives a record if there is an invocation to end. -/
theorem act_effect_end {action : Action}
    (haction : ∃ label, action = .commit label ∨ ∃ error, action = .fail label error) :
    let after := (session.act action).1.supervisor
    (Turn.ends ⟨action, (session.act action).2⟩ = false ∧
        session.supervisor.Logged (session.logged action) after) ∨
      (Turn.ends ⟨action, (session.act action).2⟩ = true ∧
        session.logged action = [] ∧ ∃ step, session.supervisor.Archives step after) := by
  -- a label that is not live makes no difference to anything
  obtain ⟨label, rfl | ⟨error, rfl⟩⟩ := haction
  · simp only [act]
    split
    · exact .inl ⟨rfl, rfl, rfl⟩
    · next invocation hlive =>
      exact .inr ⟨rfl, rfl, invocation.step, session.supervisor.archives_commit invocation⟩
  · simp only [act]
    split
    · exact .inl ⟨rfl, rfl, rfl⟩
    · next invocation hlive =>
      exact .inr ⟨rfl, rfl, invocation.step, Supervisor.archives_recordFailure ..⟩

/-- All that an action can do to the logs and to the archive: entries are logged, and then, if it
ends an invocation, this is archived, and nothing was logged but by its step. -/
theorem act_effect (action : Action) :
    let turn : Turn := ⟨action, (session.act action).2⟩
    let after := (session.act action).1.supervisor
    (turn.ends = false ∧ session.supervisor.Logged (session.logged action) after) ∨
      (turn.ends = true ∧ ∃ step ran, (∀ entry ∈ session.logged action, entry.step = step) ∧
        session.supervisor.Logged (session.logged action) ran ∧ ran.Archives step after) := by
  intro turn after
  have hended (haction : ∃ label, action = .commit label ∨ ∃ error, action = .fail label error) :
      (turn.ends = false ∧ session.supervisor.Logged (session.logged action) after) ∨
        (turn.ends = true ∧ ∃ step ran, (∀ entry ∈ session.logged action, entry.step = step) ∧
          session.supervisor.Logged (session.logged action) ran ∧ ran.Archives step after) := by
    rcases session.act_effect_end haction with hnothing | ⟨hends, hsilent, step, harchives⟩
    · exact .inl hnothing
    · rw [hsilent]
      exact .inr ⟨hends, step, session.supervisor, List.forall_mem_nil _, ⟨rfl, rfl⟩, harchives⟩
  cases action with
  | begin label request => exact .inl ⟨rfl, session.supervisor.logged_begin request⟩
  | set label name value => exact .inl (session.act_effect_write ⟨label, name, value, .inl rfl⟩)
  | setOutput label name value =>
    exact .inl (session.act_effect_write ⟨label, name, value, .inr rfl⟩)
  | commit label => exact hended ⟨label, .inl rfl⟩
  | fail label error => exact hended ⟨label, .inr ⟨error, rfl⟩⟩
  | log step level message =>
    exact .inl ⟨rfl, session.supervisor.log_archive .., session.supervisor.log_logs ..⟩
  | execute request script =>
    -- the calls of the script log, and then the record goes into the archive
    obtain ⟨ran, hlogged, harchives⟩ := session.supervisor.executes_execute request script
    exact .inr ⟨rfl, request.step, ran, fun _ => step_of_mem_entries, hlogged, harchives⟩
  | executeAsync request script cancellation =>
    obtain ⟨ran, hlogged, harchives⟩ :=
      session.supervisor.executes_executeAsync request script cancellation
    exact .inr ⟨rfl, request.step, ran, fun _ => step_of_mem_entries, hlogged, harchives⟩
  | resume index => exact .inl (session.act_effect_resume index)
  | finish index => exact .inl (session.act_effect_finish index)

end Effect

/-- The action pushes the last record of a step out of the archive. -/
def Evicts (session : Session) (action : Action) (step : StepId) : Prop :=
  session.supervisor.archive.Has step ∧ ¬ (session.act action).1.supervisor.archive.Has step

/-- Every action keeps the buffers sound, and their capacity. -/
theorem act_sound {session : Session} (h : session.supervisor.logs.Sound) (action : Action) :
    (session.act action).1.supervisor.logs.Sound ∧
      (session.act action).1.supervisor.logs.capacity = session.supervisor.logs.capacity := by
  rcases session.act_effect action with
    ⟨-, hlogged⟩ | ⟨-, step, ran, -, hlogged, record, -, -, hclear⟩
  · -- nothing is archived, or a record is, and its push forgets some steps
    obtain ⟨hsound, hcapacity, -⟩ := h.recordAll (session.logged action)
    rw [hlogged.logs]
    exact ⟨hsound, hcapacity⟩
  · obtain ⟨hsound, hcapacity, -⟩ := h.recordAll (session.logged action)
    rw [← hlogged.logs] at hsound hcapacity
    obtain ⟨hcleared, hsame⟩ := hsound.clearAll (ran.archive.push record).2
    rw [hclear]
    exact ⟨hcleared, hsame.trans hcapacity⟩

/-- An action empties the buffer of a step if it evicts it, which no action does that lets it log,
and else adds what the step logs. -/
theorem act_scriptLogs {session : Session} (h : session.supervisor.logs.Sound) (action : Action)
    (step : StepId) :
    let fresh := (session.logged action).filter (·.step == step)
    (session.Evicts action step ∧ fresh = [] ∧
      (session.act action).1.supervisor.scriptLogs step = []) ∨
    (¬ session.Evicts action step ∧ (session.act action).1.supervisor.scriptLogs step =
      (session.supervisor.scriptLogs step ++ fresh).rtake session.supervisor.logs.capacity) := by
  obtain ⟨-, -, hentries⟩ := h.recordAll (session.logged action)
  rcases session.act_effect action with
    ⟨-, hlogged⟩ | ⟨-, ended, ran, hown, hlogged, record, hrecord, harchive, hclear⟩
  · right
    refine ⟨?_, ?_⟩
    · rintro ⟨hhas, hnone⟩
      rw [hlogged.archive] at hnone
      exact hnone hhas
    · rw [Supervisor.scriptLogs, hlogged.logs, hentries]
      rfl
  · rw [← hlogged.logs] at hentries
    have hevicts : step ∈ (ran.archive.push record).2 ↔ session.Evicts action step := by
      rw [Archive.mem_evicted_iff, ← harchive, hlogged.archive]
      rfl
    rw [Supervisor.scriptLogs, hclear, StepLogs.entries_clearAll, hentries]
    by_cases hstep : step ∈ (ran.archive.push record).2
    · refine .inl ⟨hevicts.1 hstep, ?_, if_pos hstep⟩
      rw [List.filter_eq_nil_iff]
      intro entry hentry hsame
      -- what was logged is of the step that has just been archived
      have hended : record.step = step :=
        hrecord.trans ((hown entry hentry).symm.trans (beq_iff_eq.1 hsame))
      exact ran.archive.not_mem_evicted record (hended ▸ hstep)
    · exact .inr ⟨fun hevict => hstep (hevicts.2 hevict), if_neg hstep⟩

/-! ## Runs

A buffer is followed along a run from a moment on. Either an action evicts its step, and then it is
empty; or none does, and then it gains what is logged.
-/

/-- The action at a position of a run evicts the step. -/
def EvictsAt (session : Session) (actions : List Action) (step : StepId) (k : Nat) : Prop :=
  ∃ action, actions[k]? = some action ∧ (session.run (actions.take k)).Evicts action step

theorem run_append (session : Session) (first second : List Action) :
    session.run (first ++ second) = (session.run first).run second :=
  List.foldl_append

theorem run_drop (session : Session) (actions : List Action) (start : Nat) :
    (session.run (actions.take start)).run (actions.drop start) = session.run actions := by
  rw [← run_append, List.take_append_drop]

/-- What is logged later is the end of what is logged. -/
theorem history_drop_suffix (session : Session) (actions : List Action) {start later : Nat}
    (h : start ≤ later) :
    (session.run (actions.take later)).history (actions.drop later) <:+
      (session.run (actions.take start)).history (actions.drop start) := by
  obtain ⟨more, rfl⟩ := Nat.exists_eq_add_of_le h
  rw [← List.take_append_drop more (actions.drop start), history_append, ← run_append,
    ← List.take_add, List.drop_drop]
  exact List.suffix_append ..

/-- Positions in the rest of a run are counted from its start. -/
theorem evictsAt_drop (session : Session) (actions : List Action) (step : StepId) (start k : Nat) :
    (session.run (actions.take start)).EvictsAt (actions.drop start) step k ↔
      session.EvictsAt actions step (start + k) := by
  rw [EvictsAt, EvictsAt, List.getElem?_drop, List.take_add, run_append]

theorem run_sound {session : Session} (h : session.supervisor.logs.Sound) (actions : List Action) :
    (session.run actions).supervisor.logs.Sound ∧
      (session.run actions).supervisor.logs.capacity = session.supervisor.logs.capacity := by
  induction actions generalizing session with
  | nil => exact ⟨h, rfl⟩
  | cons action rest ih =>
    obtain ⟨hact, hcapacity⟩ := act_sound h action
    obtain ⟨hrest, hsame⟩ := ih hact
    exact ⟨hrest, hsame.trans hcapacity⟩

/-- A buffer that a run does not empty has the newest of its old entries and of what the run
logs. -/
theorem run_scriptLogs {session : Session} (h : session.supervisor.logs.Sound)
    {actions : List Action} {step : StepId} (hkept : ∀ k, ¬ session.EvictsAt actions step k) :
    (session.run actions).supervisor.scriptLogs step =
      (session.supervisor.scriptLogs step ++
        (session.history actions).filter (·.step == step)).rtake
          session.supervisor.logs.capacity := by
  induction actions generalizing session with
  | nil =>
    rw [history, List.filter_nil, List.append_nil]
    exact (rtake_eq_self (h.length_entries_le step)).symm
  | cons action rest ih =>
    obtain ⟨hact, hcapacity⟩ := act_sound h action
    have hrest := ih hact fun k => hkept (k + 1)
    -- the first action does not evict the step, so it adds what the step logs
    rcases act_scriptLogs h action step with ⟨hevicts, -⟩ | ⟨-, hfresh⟩
    · exact absurd ⟨action, rfl, hevicts⟩ (hkept 0)
    · rw [history, List.filter_append, ← List.append_assoc, ← rtake_append_rtake, ← hfresh,
        ← hcapacity]
      exact hrest

/-- A buffer never gains more than what the run logs. -/
theorem length_scriptLogs_run_le {session : Session} (h : session.supervisor.logs.Sound)
    (actions : List Action) (step : StepId) :
    ((session.run actions).supervisor.scriptLogs step).length ≤
      (session.supervisor.scriptLogs step).length +
        ((session.history actions).filter (·.step == step)).length := by
  induction actions generalizing session with
  | nil => exact Nat.le_add_right ..
  | cons action rest ih =>
    have hrest := ih (act_sound h action).1
    -- an action adds at most what it lets the step log
    have hact : ((session.act action).1.supervisor.scriptLogs step).length ≤
        (session.supervisor.scriptLogs step).length +
          ((session.logged action).filter (·.step == step)).length := by
      rcases act_scriptLogs h action step with ⟨-, -, hempty⟩ | ⟨-, hfresh⟩
      · rw [hempty]
        exact Nat.zero_le _
      · rw [hfresh, List.rtake, List.length_drop, List.length_append]
        omega
    rw [history, List.filter_append, List.length_append]
    refine Nat.le_trans hrest ?_
    omega

/-- After its eviction a step's buffer holds no more than the step has logged since. -/
theorem length_scriptLogs_le_of_evictsAt {session : Session} (h : session.supervisor.logs.Sound)
    {actions : List Action} {step : StepId} {k : Nat} (hk : session.EvictsAt actions step k) :
    ((session.run actions).supervisor.scriptLogs step).length ≤
      (((session.run (actions.take (k + 1))).history (actions.drop (k + 1))).filter
        (·.step == step)).length := by
  obtain ⟨evicting, hevicting, hevicts⟩ := hk
  have hempty : (session.run (actions.take (k + 1))).supervisor.scriptLogs step = [] := by
    rw [session.run_take_succ hevicting]
    rcases act_scriptLogs (run_sound h (actions.take k)).1 evicting step with
      ⟨-, -, hempty⟩ | ⟨hnot, -⟩
    · exact hempty
    · exact absurd hevicts hnot
  have hsince := length_scriptLogs_run_le (run_sound h (actions.take (k + 1))).1
    (actions.drop (k + 1)) step
  rwa [run_drop, hempty, List.length_nil, Nat.zero_add] at hsince

/-- Unless its step is evicted later on, a logged entry stands in the newest part of what the buffer
held before it and the step has logged since. -/
theorem scriptLogs_of_not_evictsAt {session : Session} (h : session.supervisor.logs.Sound)
    {actions : List Action} {i : Nat} {action : Action} (haction : actions[i]? = some action)
    {earlier later : List LogEntry} {entry : LogEntry}
    (hlogged : (session.run (actions.take i)).logged action = earlier ++ entry :: later)
    (hkept : ∀ k, i < k → ¬ session.EvictsAt actions entry.step k) :
    (session.run actions).supervisor.scriptLogs entry.step =
      (((session.run (actions.take i)).supervisor.scriptLogs entry.step ++
          earlier.filter (·.step == entry.step)) ++
        entry :: (later ++ (session.run (actions.take (i + 1))).history
          (actions.drop (i + 1))).filter (·.step == entry.step)).rtake
        session.supervisor.logs.capacity := by
  obtain ⟨hbefore, hbeforeCapacity⟩ := run_sound h (actions.take i)
  obtain ⟨hlogging, hcapacity⟩ := run_sound h (actions.take (i + 1))
  -- the action that logs the entry does not evict its step
  have hfresh : (session.run (actions.take (i + 1))).supervisor.scriptLogs entry.step =
      ((session.run (actions.take i)).supervisor.scriptLogs entry.step ++
        (earlier ++ entry :: later).filter (·.step == entry.step)).rtake
          session.supervisor.logs.capacity := by
    rw [session.run_take_succ haction]
    rcases act_scriptLogs hbefore action entry.step with ⟨-, hnone, -⟩ | ⟨-, hfresh⟩
    · simp [hlogged] at hnone
    · rwa [hlogged, hbeforeCapacity] at hfresh
  have hrest : ∀ k, ¬ (session.run (actions.take (i + 1))).EvictsAt (actions.drop (i + 1))
      entry.step k := by
    intro k hk
    rw [evictsAt_drop] at hk
    exact hkept (i + 1 + k) (by omega) hk
  have hran := run_scriptLogs hlogging hrest
  rw [run_drop, hcapacity, hfresh, rtake_append_rtake] at hran
  rw [hran]
  simp

/-- **What it takes to lose an entry.** Whatever else happens in a run, an entry is in its step's
buffer in the end, with all that the step has logged since, exactly if the step has logged fewer
entries since than the buffer can hold, and its last record has not left the archive since. -/
theorem suffix_scriptLogs_iff {session : Session} (h : session.supervisor.logs.Sound)
    {actions : List Action} {i : Nat} {action : Action} (haction : actions[i]? = some action)
    {earlier later : List LogEntry} {entry : LogEntry}
    (hlogged : (session.run (actions.take i)).logged action = earlier ++ entry :: later) :
    let newer := (later ++
      (session.run (actions.take (i + 1))).history (actions.drop (i + 1))).filter
        (·.step == entry.step)
    entry :: newer <:+ (session.run actions).supervisor.scriptLogs entry.step ↔
      newer.length < session.supervisor.logs.capacity ∧
        ∀ k, i < k → ¬ session.EvictsAt actions entry.step k := by
  intro newer
  by_cases hevicted : ∃ k, i < k ∧ session.EvictsAt actions entry.step k
  · -- what has been logged since the eviction is newer, too, and there is nothing else
    obtain ⟨k, hk, hevicts⟩ := hevicted
    have hnewer : ((session.run (actions.take (k + 1))).history (actions.drop (k + 1))).filter
        (·.step == entry.step) <:+ newer :=
      ((session.history_drop_suffix actions (Nat.succ_le_succ hk.le)).trans
        (List.suffix_append ..)).filter _
    have hshort := Nat.le_trans (length_scriptLogs_le_of_evictsAt h hevicts) hnewer.length_le
    refine ⟨fun hsuffix => ?_, fun hboth => absurd hevicts (hboth.2 k hk)⟩
    have hlong := hsuffix.length_le
    rw [List.length_cons] at hlong
    omega
  · -- the step was not evicted since, so the buffer is the newest part of all that it logged
    have hkept : ∀ k, i < k → ¬ session.EvictsAt actions entry.step k :=
      fun k hk hevicts => hevicted ⟨k, hk, hevicts⟩
    rw [scriptLogs_of_not_evictsAt h haction hlogged hkept, suffix_rtake_iff, List.length_cons,
      Nat.succ_le_iff]
    exact ⟨fun hlength => ⟨hlength, hkept⟩, And.left⟩

end Session

end StepRelay
