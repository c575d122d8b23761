import StepRelay.Proofs.ScriptLogs

/-!
# Log entries of invocations that are open or archived

An invocation stands (`Session.Stands`) while it has not finished, and then while its record is in
the archive. The archive gains a record at its end whenever an invocation ends and loses records at
its front only (`suffix_records_run`), so an invocation's step is safe from eviction while its
record is there. What can be lost are entries from before the finish: the record of an earlier
invocation of the step may leave the archive while this one is open (`entry_kept_iff`).
-/

namespace StepRelay

namespace Session

/-! ## Records along a run

Records come in at the end of the archive, one for each invocation that ends, and go at its front.
So the archive is always the newest part of all records there were, and a count of the ends tells
whether a record is among them.
-/

/-- **An action pushes one record if it ends an invocation, and none if it does not.** What it
leaves are the newest of the records and of what it has pushed. -/
theorem act_records (session : Session) (action : Action) :
    ∃ pushed : List Record,
      pushed.length = (if Turn.ends ⟨action, (session.act action).2⟩ then 1 else 0) ∧
      (session.act action).1.supervisor.archive.records <:+
        session.supervisor.archive.records ++ pushed := by
  rcases session.act_effect action with
    ⟨hends, hlogged⟩ | ⟨hends, -, ran, -, hlogged, record, -, harchive, -⟩
  · refine ⟨[], by simp [hends], ?_⟩
    rw [hlogged.archive]
    exact ⟨[], (List.append_nil _).symm⟩
  · refine ⟨[record], by simp [hends], ?_⟩
    -- the new record stands at the end, behind those that are kept
    obtain ⟨evicted, kept, hrecords, hpushed⟩ := ran.archive.push_records record
    rw [harchive, hpushed, ← hlogged.archive, hrecords, List.append_assoc]
    exact List.suffix_append ..

/-- So a run pushes as many records as it ends invocations, and leaves the newest. -/
theorem suffix_records_run (session : Session) (actions : List Action) :
    ∃ pushed : List Record, pushed.length = (session.turns actions).countP Turn.ends ∧
      (session.run actions).supervisor.archive.records <:+
        session.supervisor.archive.records ++ pushed := by
  induction actions generalizing session with
  | nil => exact ⟨[], rfl, [], (List.append_nil _).symm⟩
  | cons action rest ih =>
    obtain ⟨first, hfirst, hact⟩ := session.act_records action
    obtain ⟨more, hmore, hrest⟩ := ih (session.act action).1
    refine ⟨first ++ more, ?_, ?_⟩
    · rw [List.length_append, hfirst, hmore, turns, List.countP_cons]
      omega
    · -- what the first action evicts is not in the end of the list any more
      obtain ⟨evicted, hevicted⟩ := hact
      rw [← List.append_assoc, ← hevicted, List.append_assoc]
      exact hrest.trans (List.suffix_append ..)

/-- What evicts a step is a record of another one. -/
theorem Evicts.last_record {session : Session} {action : Action} {step : StepId}
    (h : session.Evicts action step) :
    ∃ record, (session.act action).1.supervisor.archive.records.getLast? = some record ∧
      record.step ≠ step := by
  obtain ⟨hhas, hnone⟩ := h
  rcases session.act_effect action with
    ⟨-, hlogged⟩ | ⟨-, -, ran, -, hlogged, record, -, harchive, -⟩
  · rw [hlogged.archive] at hnone
    exact absurd hhas hnone
  · obtain ⟨-, kept, -, hpushed⟩ := ran.archive.push_records record
    rw [← harchive] at hpushed
    -- the record that was pushed last cannot be of a step that has none
    refine ⟨record, by rw [hpushed, List.getLast?_concat], fun hstep => hnone ⟨record, ?_, hstep⟩⟩
    rw [hpushed]
    exact List.mem_append_right _ (List.mem_singleton_self record)

/-- The turns of a run are those of its first part and then those of the rest. -/
theorem turns_append (session : Session) (first second : List Action) :
    session.turns (first ++ second) = session.turns first ++ (session.run first).turns second := by
  induction first generalizing session with
  | nil => rfl
  | cons action rest ih =>
    rw [List.cons_append, turns, turns, ih]
    rfl

/-- The turns from a moment on are those of the run from there. -/
theorem drop_turns (session : Session) (actions : List Action) (start : Nat) :
    (session.turns actions).drop start =
      (session.run (actions.take start)).turns (actions.drop start) := by
  induction actions generalizing session start with
  | nil => simp [turns]
  | cons action rest ih =>
    cases start with
    | zero => rfl
    | succ start => exact ih (session.act action).1 start

/-- As long as fewer invocations have ended since than there are records, the record with which a
run began is there. -/
theorem has_of_recent {session : Session} {kept : List Record} {record : Record}
    (h : session.supervisor.archive.records = kept ++ [record]) {actions : List Action}
    (hrecent : (session.turns actions).countP Turn.ends <
      (session.run actions).supervisor.archive.records.length) (k : Nat) :
    (session.run (actions.take k)).supervisor.archive.Has record.step := by
  obtain ⟨first, hfirst, hreached⟩ := session.suffix_records_run (actions.take k)
  obtain ⟨more, hmore, hfinal⟩ :=
    (session.run (actions.take k)).suffix_records_run (actions.drop k)
  -- all ends of the run, before the moment and behind it
  have hcount : (session.turns actions).countP Turn.ends = first.length + more.length := by
    rw [hfirst, hmore, ← List.countP_append, ← turns_append, List.take_append_drop]
  have hlength := hfinal.length_le
  rw [run_drop, List.length_append] at hlength
  -- so too few have been pushed for the record to be gone
  rw [h, List.append_assoc, List.singleton_append] at hreached
  have hstill : record :: first <:+ (session.run (actions.take k)).supervisor.archive.records := by
    refine List.suffix_of_suffix_length_le (List.suffix_append kept _) hreached ?_
    rw [List.length_cons]
    omega
  exact ⟨record, hstill.subset (List.mem_cons_self ..), rfl⟩

/-! ## Standing invocations

While an invocation has not finished, nothing in the archive is its own: the records of its step are
those of earlier invocations, and their eviction takes the buffer along. Once it has finished, its
own record keeps the buffer.
-/

/-- The turn at `finish` has ended the invocation that was begun at `start` under `label`. -/
structure Finishes (session : Session) (actions : List Action) (label : String)
    (request : StepRequest) (start finish : Nat) : Prop where
  since : OpenSince (actions.take finish) label request start
  action : actions[finish]? = some (.commit label) ∨
    ∃ error, actions[finish]? = some (.fail label error)
  ended : ∃ turn result, (session.turns actions)[finish]? = some turn ∧ turn.reply = .ended result

/-- The invocation that was begun at `start` under `label` has not finished in the run, or it has
finished at the given turn and its record is still in the archive: the record that the finish has
put at the end, with as many behind it as invocations have ended since. -/
inductive Stands (session : Session) (actions : List Action) (label : String)
    (request : StepRequest) (start : Nat) : Option Nat → Prop where
  | running (begun : actions[start]? = some (.begin label request))
      (h : ∀ finish, ¬ session.Finishes actions label request start finish) :
      Stands session actions label request start none
  | archived (finish : Nat) (h : session.Finishes actions label request start finish)
      (older newer : List Record) (record : Record)
      (put : (session.run (actions.take (finish + 1))).supervisor.archive.records.getLast? =
        some record)
      (held : (session.run actions).supervisor.archive.records = older ++ record :: newer)
      (behind : newer.length = ((session.turns actions).drop (finish + 1)).countP Turn.ends) :
      Stands session actions label request start (some finish)

/-- **Whatever ends an invocation archives a record of its step.** -/
theorem archives_of_ended {session : Session} {label : String} {action : Action}
    (haction : action = .commit label ∨ ∃ error, action = .fail label error)
    {result : Except StepError Publication} (h : (session.act action).2 = .ended result) :
    ∃ invocation, session.live.get? label = some invocation ∧
      session.supervisor.Archives invocation.step (session.act action).1.supervisor := by
  cases hlive : session.live.get? label with
  | none =>
    -- there is nothing to end
    rcases haction with rfl | ⟨error, rfl⟩ <;> simp [act, hlive] at h
  | some invocation =>
    refine ⟨invocation, rfl, ?_⟩
    rcases haction with rfl | ⟨error, rfl⟩
    · simp only [act, hlive]
      exact session.supervisor.archives_commit invocation
    · simp only [act, hlive]
      exact Supervisor.archives_recordFailure ..

/-- A finish archives a record of the step that was begun. -/
theorem Finishes.record {session : Session} (hempty : session.live = ∅) {actions : List Action}
    {label : String} {request : StepRequest} {start finish : Nat}
    (h : session.Finishes actions label request start finish) :
    ∃ kept record, record.step = request.step ∧
      (session.run (actions.take (finish + 1))).supervisor.archive.records = kept ++ [record] := by
  obtain ⟨turn, result, hturn, hended⟩ := h.ended
  rw [getElem?_turns, Option.map_eq_some_iff] at hturn
  obtain ⟨action, haction, rfl⟩ := hturn
  -- the action at the finish is a commit or a failure
  have hcases := h.action
  rw [haction, Option.some.injEq] at hcases
  simp only [Option.some.injEq] at hcases
  obtain ⟨invocation, hlive, record, hrecord, harchive, -⟩ := archives_of_ended hcases hended
  -- the open invocation is the one that was begun at the start
  obtain ⟨other, began, hopened⟩ := opened_of_live hempty hlive
  obtain ⟨-, rfl⟩ := hopened.since.unique h.since
  obtain ⟨-, kept, -, hpushed⟩ := Archive.push_records _ record
  refine ⟨kept, record, hrecord.trans hopened.step, ?_⟩
  rw [session.run_take_succ haction, harchive]
  exact hpushed

/-- While the record of an invocation is in the archive, no action evicts its step. -/
theorem not_evictsAt_of_stands {session : Session} (hempty : session.live = ∅)
    {actions : List Action} {label : String} {request : StepRequest} {start finish : Nat}
    (h : session.Stands actions label request start (some finish)) {k : Nat} (hk : finish ≤ k) :
    ¬ session.EvictsAt actions request.step k := by
  cases h with
  | archived _ h older newer record put held behind =>
    obtain ⟨kept, archived, hstep, hrecords⟩ := h.record hempty
    -- fewer invocations have ended since than there are records
    have hrecent : ((session.run (actions.take (finish + 1))).turns
          (actions.drop (finish + 1))).countP Turn.ends <
        ((session.run (actions.take (finish + 1))).run
          (actions.drop (finish + 1))).supervisor.archive.records.length := by
      rw [← drop_turns, ← behind, run_drop, held, List.length_append, List.length_cons]
      omega
    rintro ⟨action, haction, -, hnone⟩
    have hhas := has_of_recent hrecords hrecent (k - finish)
    rw [hstep, ← run_append, ← List.take_add] at hhas
    apply hnone
    rw [← session.run_take_succ haction]
    rwa [show finish + 1 + (k - finish) = k + 1 by omega] at hhas

/-- **What becomes of an invocation's log entries.** Take any run, and in it an invocation that has
not finished, or whose record is still in the archive. An entry of its step, wherever it was logged,
is in the step's buffer in the end, with all that the step has logged since, exactly if

* the step has logged fewer entries since than the buffer can hold, and
* no action since then, and before the invocation finished if it has, has pushed the last record of
  the step out of the archive.

Such an action archives a record of another step. -/
theorem entry_kept_iff (config : Config) (outlet : LogOutlet) {actions : List Action}
    {label : String} {request : StepRequest} {start : Nat} {finish? : Option Nat}
    (hstands : (new config outlet).Stands actions label request start finish?)
    {i : Nat} {action : Action} (haction : actions[i]? = some action)
    {earlier later : List LogEntry} {entry : LogEntry}
    (hlogged : ((new config outlet).run (actions.take i)).logged action =
      earlier ++ entry :: later)
    (hstep : entry.step = request.step) :
    let since := ((new config outlet).run (actions.take (i + 1))).history (actions.drop (i + 1))
    let newer := (later ++ since).filter (·.step == request.step)
    (entry :: newer <:+ ((new config outlet).run actions).supervisor.scriptLogs request.step ↔
      newer.length < config.scriptLogCapacity ∧
        ∀ k, i < k → (∀ finish ∈ finish?, k < finish) →
          ¬ (new config outlet).EvictsAt actions request.step k) ∧
    ∀ k, (new config outlet).EvictsAt actions request.step k → ∃ record,
      ((new config outlet).run (actions.take (k + 1))).supervisor.archive.records.getLast? =
        some record ∧ record.step ≠ request.step := by
  intro since newer
  have hsound : (new config outlet).supervisor.logs.Sound :=
    StepLogs.sound_new config.scriptLogCapacity
  have hkept := suffix_scriptLogs_iff hsound haction hlogged
  rw [hstep] at hkept
  refine ⟨hkept.trans (and_congr_right fun _ => forall₂_congr fun k _ => ?_), ?_⟩
  · -- behind the finish there is no eviction in any case, so the bound makes no difference
    refine ⟨fun hnot _ => hnot, fun hnot hevicts => hnot ?_ hevicts⟩
    rintro finish ⟨⟩
    by_contra hlate
    exact not_evictsAt_of_stands rfl hstands (Nat.le_of_not_lt hlate) hevicts
  · rintro k ⟨evicting, hevicting, hevicts⟩
    rw [run_take_succ _ hevicting]
    exact hevicts.last_record

/-- Two invocations of the step `a`, of which the second is still open. It has logged once before an
invocation of the step `b` committed, and once since. -/
def outliving : List Action :=
  [.begin "a1" { step := ⟨"a"⟩ }, .commit "a1", .begin "a2" { step := ⟨"a"⟩ },
    .log ⟨"a"⟩ .info "before", .begin "b1" { step := ⟨"b"⟩ }, .commit "b1",
    .log ⟨"a"⟩ .info "since"]

/-- A supervisor that keeps one record. -/
def forgetful : Session := new { archiveCapacity := 1 } .trace

/-- The second invocation is still open. -/
theorem stands_outliving : forgetful.Stands outliving "a2" { step := ⟨"a"⟩ } 2 none := by
  refine .running rfl ?_
  rintro (_ | _ | _ | _ | _ | _ | _ | finish) ⟨-, haction, -⟩ <;> simp [outliving] at haction

/-- The commit of `b1` pushes out the only record of the step `a`. -/
theorem evictsAt_outliving : forgetful.EvictsAt outliving ⟨"a"⟩ 5 := by
  refine ⟨.commit "b1", rfl, ⟨_, .head _, rfl⟩, ?_⟩
  rintro ⟨record, hrecord, hstep⟩
  obtain ⟨only, honly, hb⟩ : ∃ only,
      ((forgetful.run (outliving.take 5)).act (.commit "b1")).1.supervisor.archive.records =
        [only] ∧ only.step = ⟨"b"⟩ := ⟨_, rfl, rfl⟩
  rw [honly, List.mem_singleton] at hrecord
  rw [hrecord, hb] at hstep
  exact absurd hstep (by decide)

/-- The commit of `b1` takes the first entry of `a2`, as it pushes out the record of `a1`; the
second entry stays. -/
theorem entry_kept_iff_outliving :
    forgetful.Stands outliving "a2" { step := ⟨"a"⟩ } 2 none ∧
    [⟨⟨"a"⟩, .info, "since"⟩] <:+ (forgetful.run outliving).supervisor.scriptLogs ⟨"a"⟩ ∧
    ¬ [⟨⟨"a"⟩, .info, "before"⟩, ⟨⟨"a"⟩, .info, "since"⟩] <:+
      (forgetful.run outliving).supervisor.scriptLogs ⟨"a"⟩ := by
  have hfirst := (@entry_kept_iff { archiveCapacity := 1 } .trace outliving "a2" _ 2 none
    stands_outliving 3 _ rfl [] [] ⟨⟨"a"⟩, .info, "before"⟩ rfl rfl).1
  have hsecond := (@entry_kept_iff { archiveCapacity := 1 } .trace outliving "a2" _ 2 none
    stands_outliving 6 _ rfl [] [] ⟨⟨"a"⟩, .info, "since"⟩ rfl rfl).1
  refine ⟨stands_outliving, hsecond.2 ⟨by decide, ?_⟩, fun hsuffix => ?_⟩
  · -- nothing comes behind the second entry
    rintro k hk - ⟨action, haction, -⟩
    have hlast := (List.getElem?_eq_some_iff.1 haction).1
    simp only [outliving, List.length_cons, List.length_nil] at hlast
    omega
  · -- but the first one was logged before the eviction
    exact (hfirst.1 hsuffix).2 5 (by decide) (by nofun) evictsAt_outliving

/-- Not every entry of an open invocation is kept, even if there is room for all. -/
theorem not_every_entry_kept :
    ¬ ∀ (config : Config) (outlet : LogOutlet) (actions : List Action) (label : String)
      (request : StepRequest) (start : Nat) (finish? : Option Nat) (i : Nat) (action : Action)
      (earlier later : List LogEntry) (entry : LogEntry),
      (new config outlet).Stands actions label request start finish? →
      start < i → actions[i]? = some action →
      ((new config outlet).run (actions.take i)).logged action = earlier ++ entry :: later →
      entry.step = request.step →
      ((later ++ ((new config outlet).run (actions.take (i + 1))).history
        (actions.drop (i + 1))).filter (·.step == request.step)).length < config.scriptLogCapacity →
      entry ∈ ((new config outlet).run actions).supervisor.scriptLogs request.step := by
  intro hall
  have hkept := hall { archiveCapacity := 1 } .trace outliving "a2" _ 2 none 3 _ [] []
    ⟨⟨"a"⟩, .info, "before"⟩ stands_outliving (by decide) rfl rfl rfl (by decide)
  have hlost : (forgetful.run outliving).supervisor.scriptLogs ⟨"a"⟩ =
      [⟨⟨"a"⟩, .info, "since"⟩] := rfl
  exact absurd (List.mem_singleton.1 (hlost ▸ hkept)) (by decide)

end Session

end StepRelay
