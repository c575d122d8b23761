import StepRelay.Proofs.Beginning
import StepRelay.Proofs.Restamped
import StepRelay.Proofs.WriteLog

/-!
# Times are the places of writes

`Session.writes` lists the accepted writes of a run and the constants that became inputs, in the
order in which they were made. The clock is the length of that list (`clock_run`), and the cell of a
write is stamped with its place in it (`run_writes`): a tick is taken behind every check that can
still refuse. `act_direct` says once what an action can do to the clock and the open stores; from it
`live_cells` reads every cell of an open invocation off the list, and `run_published` every
published cell, by way of the invocation whose commit published it.

The actions are those on invocations that hosts hold open. A script that is run is such an
invocation, with its writes made by the library.
-/

namespace StepRelay

/-- An action on an invocation that a host holds open, or a log call. -/
def Action.IsDirect : Action → Prop
  | .begin .. | .set .. | .setOutput .. | .commit .. | .fail .. | .log .. => True
  | .execute .. | .executeAsync .. | .resume .. | .finish .. => False

instance (action : Action) : Decidable action.IsDirect := by
  cases action <;> unfold Action.IsDirect <;> infer_instance

/-! ## Writes and cells

A write is known by who made it and what it put. From the list of all writes the cells of one
invocation are picked, each stamped by its place.
-/

/-- An accepted write, or a constant that became an input. -/
structure Write where
  /-- The turn that made it. -/
  turn : Nat
  /-- Where the invocation was open that it was made in. -/
  label : String
  kind : CellKind
  name : String
  value : Value

namespace Write

/-- The write of a constant that becomes an input. -/
def ofConstant (turn : Nat) (label : String) (constant : String × Value) : Write :=
  ⟨turn, label, .input, constant.1, constant.2⟩

/-- The cell that a write of a step makes. -/
def cell (write : Write) (step : StepId) (time : LogicalTime) : Cell :=
  ⟨write.name, write.value, step, write.kind, time⟩

/-- Whether it was made in the invocation that is open under a label since a turn. -/
def IsOf (label : String) (start : Nat) (kind : CellKind) (write : Write) : Prop :=
  write.label = label ∧ start ≤ write.turn ∧ write.kind = kind

instance (label : String) (start : Nat) (kind : CellKind) (write : Write) :
    Decidable (write.IsOf label start kind) := by
  unfold IsOf
  infer_instance

/-- The cells of one kind that some writes have made in the invocation of `step` that is open under
`label` since the turn `start`. The first of the writes is that of the time behind `clock`. -/
def cells (label : String) (start : Nat) (step : StepId) (kind : CellKind) (clock : LogicalTime)
    (writes : List Write) : Entries Cell :=
  (writes.zipIdx (clock + 1)).filterMap fun stamped =>
    if stamped.1.IsOf label start kind then
      some (stamped.1.name, stamped.1.cell step stamped.2)
    else none

section Cells

variable {label : String} {start : Nat} {step : StepId} {kind : CellKind} {clock : LogicalTime}

/-- The cells of more writes follow, with the times that follow. -/
theorem cells_append (first second : List Write) :
    cells label start step kind clock (first ++ second) =
      cells label start step kind clock first ++
        cells label start step kind (clock + first.length) second := by
  have hclock : clock + 1 + first.length = clock + first.length + 1 := Nat.add_right_comm ..
  rw [cells, List.zipIdx_append, List.filterMap_append, hclock]
  rfl

/-- Writes that were made elsewhere have made no cell here. -/
theorem cells_eq_nil {writes : List Write} (h : ∀ write ∈ writes, ¬ write.IsOf label start kind) :
    cells label start step kind clock writes = [] := by
  rw [cells, List.filterMap_eq_nil_iff]
  intro entry hentry
  rw [if_neg (h entry.1 (List.fst_mem_of_mem_zipIdx hentry))]

/-- One write in the invocation has made one cell. -/
theorem cells_singleton {write : Write} (h : write.IsOf label start kind) :
    cells label start step kind clock [write] = [(write.name, write.cell step (clock + 1))] := by
  simp [cells, h]

/-- A cell was made by the write at the place of its time. -/
theorem exists_of_last?_cells {writes : List Write} {name : String} {cell : Cell}
    (h : (cells label start step kind clock writes).last? name = some cell) :
    ∃ (k : Nat) (write : Write), writes[k]? = some write ∧ write.name = name ∧
      write.IsOf label start kind ∧ cell = write.cell step (clock + k + 1) := by
  obtain ⟨entry, hfind, rfl⟩ := Option.map_eq_some_iff.1 h
  rw [List.findRev?_eq_find?_reverse] at hfind
  have hname := List.find?_some hfind
  have hmem := List.mem_reverse.1 (List.mem_of_find?_eq_some hfind)
  -- a cell in the list comes from one of the writes, whose place is its time
  obtain ⟨stamped, hstamped, hentry⟩ := List.mem_filterMap.1 hmem
  split at hentry
  · next hof =>
    obtain ⟨k, hk⟩ := List.mem_iff_getElem?.1 hstamped
    rw [List.getElem?_zipIdx, Option.map_eq_some_iff] at hk
    obtain ⟨write, hwrite, rfl⟩ := hk
    cases hentry
    exact ⟨k, write, hwrite, beq_iff_eq.1 hname, hof, by rw [Nat.add_right_comm]⟩
  · cases hentry

/-- Constants make the cells that they are laid as. -/
theorem cells_constants (label : String) (turn : Nat) (step : StepId) (clock : LogicalTime)
    (constants : Entries Value) :
    cells label turn step .input clock (constants.map (ofConstant turn label)) =
      Supervisor.stamp step clock constants := by
  induction constants generalizing clock with
  | nil => rfl
  | cons constant rest ih =>
    have hof : (ofConstant turn label constant).IsOf label turn .input := ⟨rfl, Nat.le_refl _, rfl⟩
    rw [List.map_cons, ← List.singleton_append, cells_append, cells_singleton hof, ih]
    rfl

end Cells

end Write

namespace StepStore

/-! ## Accepted writes

What an accepted write does to a store, in terms of the cells that can be looked up afterwards.
-/

/-- Of a tidy store, the cells that are written fit where they stand. -/
theorem Tidy.fit {store : StepStore} (h : store.Tidy) {kind : CellKind} (hkind : kind ≠ .input) :
    CellsFit (store.cells kind) store.step kind := by
  cases kind with
  | input => exact absurd rfl hkind
  | state => exact h.state
  | output => exact h.outputs

/-- What a store holds after an accepted write: the new cell in its place, and all else as
before. -/
theorem Accepts.get?_cells {before after : StepStore} {kind : CellKind} {name : String}
    {value : Value} {time : LogicalTime} (h : before.Accepts after kind name value time)
    (htidy : before.Tidy) (hkind : kind ≠ .input) (other : CellKind) (key : String) :
    (after.cells other).get? key =
      if kind = other ∧ name = key then some ⟨name, value, before.step, kind, time⟩
      else (before.cells other).get? key := by
  by_cases hother : kind = other
  · subst hother
    rw [h.here, put_eq_insert (htidy.fit hkind), OrderedMap.get?_insert]
    simp
  · rw [h.elsewhere other (Ne.symm hother), if_neg fun hboth => hother hboth.1]

end StepStore

/-- What a write call comes to: the write is accepted and takes the next time, or it is refused,
takes no time and leaves the store as it was. -/
inductive Invocation.Answers (before : Invocation) (clock : Clock) (kind : CellKind) (name : String)
    (value : Value) : Invocation.Written → Prop
  | accepted {after : Invocation}
      (h : before.store.Accepts after.store kind name value clock.tick.now) :
      Answers before clock kind name value ⟨.ok (), after, clock.tick⟩
  | refused {error : StepError} {after : Invocation} (h : after.store = before.store) :
      Answers before clock kind name value ⟨.error error, after, clock⟩

theorem Invocation.answers_set (before : Invocation) (clock : Clock) (name : String)
    (value : Value) : before.Answers clock .state name value (before.set clock name value) := by
  rcases before.set_cases clock name value with ⟨-, hset⟩ | ⟨-, hset⟩
  · rw [hset]
    refine .accepted ⟨rfl, rfl, ?_⟩
    intro other hother
    cases other with
    | state => exact absurd rfl hother
    | input | output => rfl
  · rw [hset]
    exact .refused before.markRunning_store

theorem Invocation.answers_setOutput (before : Invocation) (clock : Clock) (name : String)
    (value : Value) :
    before.Answers clock .output name value (before.setOutput clock name value) := by
  rcases before.setOutput_cases clock name value with
    ⟨-, -, hset⟩ | ⟨-, hset⟩ | ⟨-, source, -, hset⟩
  · rw [hset]
    refine .accepted ⟨rfl, rfl, ?_⟩
    intro other hother
    cases other with
    | output => exact absurd rfl hother
    | input | state => rfl
  · rw [hset]
    exact .refused before.markRunning_store
  · rw [hset]
    exact .refused before.markRunning_store

/-- After a commit that succeeded, the outputs stand over what was published. -/
theorem Supervisor.commit_cell? {s : Supervisor} {invocation : Invocation}
    (htidy : invocation.store.Tidy) {publication : Publication}
    (h : (s.commit invocation).2 = .ok publication) (name : String) :
    (s.commit invocation).1.table.cell? name =
      (invocation.store.outputs.get? name).or (s.table.cell? name) := by
  rcases s.commit_cases htidy with ⟨error, -, hcommit⟩ | ⟨hfatal, -⟩
  · rw [hcommit] at h
    cases h
  · rw [commit_table hfatal, Table.cell?, Table.publish_get?
      fun name cell hcell => (htidy.outputs name cell hcell).1]
    cases invocation.store.outputs.get? name <;> rfl

namespace Session

/-! ## What an action writes

`act_direct` is the inversion lemma of this module: an action makes one write, in one open store and
with one tick, or it takes no tick and writes nothing. Only a begin may write several times, once
for each constant that is laid.
-/

/-- What an action writes in its turn. -/
def written (session : Session) (turn : Nat) (action : Action) : List Write :=
  match action, (session.act action).2 with
  | .begin label request, _ =>
    (session.supervisor.laid request).map (.ofConstant turn label)
  | .set label name value, .written (.ok ()) => [⟨turn, label, .state, name, value⟩]
  | .setOutput label name value, .written (.ok ()) => [⟨turn, label, .output, name, value⟩]
  | _, _ => []

/-- A write is accepted: it takes the next time, and its cell goes into one open store. -/
structure Accepts (session : Session) (write : Write) (after : Session) : Prop where
  clock : after.supervisor.clock = session.supervisor.clock.tick
  live : ∃ before invocation, session.live.get? write.label = some before ∧
    after.live = session.live.insert write.label invocation ∧
    before.store.Accepts invocation.store write.kind write.name write.value
      session.supervisor.clock.tick.now

/-- No time is taken, and every store that stays open stays as it was. -/
structure Rests (session after : Session) : Prop where
  clock : after.supervisor.clock = session.supervisor.clock
  live : ∀ label invocation, after.live.get? label = some invocation →
    ∃ before, session.live.get? label = some before ∧ invocation.store = before.store

/-- Nothing was written if the open invocations are the same. -/
theorem rests_of_live_eq {session after : Session}
    (hclock : after.supervisor.clock = session.supervisor.clock)
    (hlive : after.live = session.live) : session.Rests after :=
  ⟨hclock, fun _ invocation h => ⟨invocation, hlive ▸ h, rfl⟩⟩

theorem rests_of_erase {session after : Session} {label : String}
    (hclock : after.supervisor.clock = session.supervisor.clock)
    (hlive : after.live = session.live.erase label) : session.Rests after :=
  ⟨hclock, fun _ invocation h => ⟨invocation, live_of_erase (hlive ▸ h), rfl⟩⟩

/-- A write call makes one write or none, in the store that is open under its label. -/
theorem afterWrite_direct {session : Session} {label : String} {before : Invocation}
    (hlive : session.live.get? label = some before) {kind : CellKind} {name : String}
    {value : Value} {written : Invocation.Written}
    (h : before.Answers session.supervisor.clock kind name value written) (turn : Nat) :
    (written.outcome = .ok () ∧
      session.Accepts ⟨turn, label, kind, name, value⟩ (session.afterWrite label written).1) ∨
    ((∃ error, written.outcome = .error error) ∧
      session.Rests (session.afterWrite label written).1) := by
  cases h with
  | accepted h => exact .inl ⟨rfl, rfl, before, _, hlive, rfl, h⟩
  | @refused error after h =>
    refine .inr ⟨⟨error, rfl⟩, rfl, ?_⟩
    intro other invocation hother
    rcases afterWrite_live hother with ⟨rfl, rfl⟩ | ⟨-, hkept⟩
    · exact ⟨before, hlive, h⟩
    · exact ⟨invocation, hkept, rfl⟩

/-- An action that does not begin an invocation makes one write or none. -/
theorem act_direct (session : Session) {action : Action} (hdirect : action.IsDirect)
    (hbegin : ∀ label request, action ≠ .begin label request) (turn : Nat) :
    (∃ write : Write, session.written turn action = [write] ∧ write.turn = turn ∧
      write.kind ≠ .input ∧ session.Accepts write (session.act action).1) ∨
    (session.written turn action = [] ∧ session.Rests (session.act action).1) := by
  cases action with
  | begin label request => exact absurd rfl (hbegin label request)
  | set label name value =>
    cases hlive : session.live.get? label with
    | none => exact .inr (by simp [written, act, hlive, rests_of_live_eq])
    | some before =>
      have hact : session.act (.set label name value) = session.afterWrite label
          (before.set session.supervisor.clock name value) := by
        simp only [act, hlive]
      rcases afterWrite_direct hlive (before.answers_set ..) turn with
        ⟨hok, haccepts⟩ | ⟨⟨error, herror⟩, hrests⟩
      · -- accepted: one write, or refused: none
        refine .inl ⟨_, ?_, rfl, by simp, hact ▸ haccepts⟩
        simp only [written, hact, afterWrite, hok]
      · refine .inr ⟨?_, hact ▸ hrests⟩
        simp only [written, hact, afterWrite, herror]
  | setOutput label name value =>
    cases hlive : session.live.get? label with
    | none => exact .inr (by simp [written, act, hlive, rests_of_live_eq])
    | some before =>
      have hact : session.act (.setOutput label name value) = session.afterWrite label
          (before.setOutput session.supervisor.clock name value) := by
        simp only [act, hlive]
      rcases afterWrite_direct hlive (before.answers_setOutput ..) turn with
        ⟨hok, haccepts⟩ | ⟨⟨error, herror⟩, hrests⟩
      · refine .inl ⟨_, ?_, rfl, by simp, hact ▸ haccepts⟩
        simp only [written, hact, afterWrite, hok]
      · refine .inr ⟨?_, hact ▸ hrests⟩
        simp only [written, hact, afterWrite, herror]
  | commit label =>
    cases hlive : session.live.get? label with
    | none => exact .inr ⟨rfl, by simp [act, hlive, rests_of_live_eq]⟩
    | some before =>
      refine .inr ⟨rfl, ?_⟩
      simp only [act, hlive]
      exact rests_of_erase (session.supervisor.commit_clock before) rfl
  | fail label error =>
    cases hlive : session.live.get? label with
    | none => exact .inr ⟨rfl, by simp [act, hlive, rests_of_live_eq]⟩
    | some before =>
      refine .inr ⟨rfl, ?_⟩
      simp only [act, hlive]
      exact rests_of_erase (Supervisor.quiet_recordFailure ..).clock rfl
  | log step level message =>
    exact .inr ⟨rfl, rests_of_live_eq (session.supervisor.quiet_log step level message).clock rfl⟩
  | execute | executeAsync | resume | finish => exact hdirect.elim

/-! ## One action

What one action does to the clock, to the cells it writes and to the open stores. A begin is set
apart in each proof, since its writes are constants.
-/

/-- A write has the number of its turn. -/
theorem turn_of_mem_written {session : Session} {action : Action} (hdirect : action.IsDirect)
    {turn : Nat} {write : Write} (h : write ∈ session.written turn action) : write.turn = turn := by
  by_cases hbegin : ∃ label request, action = .begin label request
  · obtain ⟨label, request, rfl⟩ := hbegin
    -- a constant of a begin
    obtain ⟨constant, -, rfl⟩ := List.mem_map.1 h
    rfl
  · simp only [not_exists] at hbegin
    rcases session.act_direct hdirect hbegin turn with ⟨only, hwritten, hturn, -⟩ | ⟨hwritten, -⟩
    · rw [hwritten, List.mem_singleton] at h
      rw [h, hturn]
    · rw [hwritten] at h
      cases h

/-- An action takes as many ticks as it makes writes. -/
theorem act_clock {session : Session} (hnamed : session.supervisor.table.Named) {action : Action}
    (hdirect : action.IsDirect) (turn : Nat) :
    (session.act action).1.supervisor.clock.now =
      session.supervisor.clock.now + (session.written turn action).length := by
  by_cases hbegin : ∃ label request, action = .begin label request
  · obtain ⟨label, request, rfl⟩ := hbegin
    -- a begin takes one tick for each constant that it lays
    rw [written, List.length_map]
    exact Supervisor.begin_clock hnamed request
  · simp only [not_exists] at hbegin
    rcases session.act_direct hdirect hbegin turn with
      ⟨write, hwritten, -, -, haccepts⟩ | ⟨hwritten, hrests⟩
    · rw [hwritten, haccepts.clock]
      rfl
    · rw [hwritten, hrests.clock]
      rfl

/-- The `j`-th write of an action leaves its cell in the store that it was made in, stamped with the
`j`-th time behind the clock. -/
theorem act_writes {session : Session} (hnamed : session.supervisor.table.Named)
    (htidy : ∀ label invocation, session.live.get? label = some invocation →
      invocation.store.Tidy) {action : Action} (hdirect : action.IsDirect) {turn j : Nat}
    {write : Write} (h : (session.written turn action)[j]? = some write) :
    ∃ invocation, (session.act action).1.live.get? write.label = some invocation ∧
      (invocation.store.cells write.kind).get? write.name =
        some (write.cell invocation.step (session.supervisor.clock.now + j + 1)) := by
  -- the constants of a beginning step are written together; any other action writes once or not at
  -- all
  by_cases hbegin : ∃ label request, action = .begin label request
  · obtain ⟨label, request, rfl⟩ := hbegin
    rw [written, List.getElem?_map, Option.map_eq_some_iff] at h
    obtain ⟨⟨name, value⟩, hlaid, rfl⟩ := h
    have hinputs := (session.supervisor.begin_invocation request).1
    have hlive : (session.act (.begin label request)).1.live.get? label =
        some (session.supervisor.begin request).2 := by
      rw [act, OrderedMap.get?_insert, if_pos rfl]
    refine ⟨_, hlive, ?_⟩
    exact (congrArg (·.get? name) hinputs).trans
      (Supervisor.get?_inputCells_of_laid hnamed request hlaid)
  · simp only [not_exists] at hbegin
    rcases session.act_direct hdirect hbegin turn with
      ⟨only, hwritten, -, hkind, haccepts⟩ | ⟨hwritten, -⟩
    · rw [hwritten, List.getElem?_singleton] at h
      split at h
      · next hj =>
        cases h
        -- the one write, looked up where it was put
        obtain ⟨before, invocation, hbefore, hlive, hstore⟩ := haccepts.live
        refine ⟨invocation, by rw [hlive, OrderedMap.get?_insert, if_pos rfl], ?_⟩
        rw [hstore.get?_cells (htidy _ _ hbefore) hkind, if_pos ⟨rfl, rfl⟩, Invocation.step_eq,
          hstore.step, hj]
        rfl
      · cases h
    · rw [hwritten] at h
      cases h

/-- What an invocation would begin with in a kind if it had no constants. -/
def resolved (table : Table) (request : StepRequest) : CellKind → OrderedMap Cell
  | .input => Cell.byName (table.resolve request.declared).cells
  | .state | .output => ∅

/-- An invocation begins with what is resolved, under the cells of its constants. -/
theorem begin_cells {session : Session} (hnamed : session.supervisor.table.Named) (label : String)
    (request : StepRequest) (turn : Nat) (kind : CellKind) (name : String) :
    ((session.supervisor.begin request).2.store.cells kind).get? name =
      ((Write.cells label turn request.step kind session.supervisor.clock.now
        (session.written turn (.begin label request))).last? name).or
        ((resolved session.supervisor.table request kind).get? name) := by
  cases kind with
  | input =>
    have hnodup : (Supervisor.stamp request.step session.supervisor.clock.now
        (session.supervisor.laid request)).keys.Nodup := by
      rw [Supervisor.keys_stamp]
      exact Supervisor.nodup_laid ..
    rw [written, Write.cells_constants, Entries.last?_eq_get? hnodup, resolved,
      hnamed.get?_resolve, ← Supervisor.get?_inputCells hnamed]
    exact congrArg (·.get? name) (session.supervisor.begin_invocation request).1
  | state | output =>
    -- constants are inputs
    rw [Write.cells_eq_nil]
    · rfl
    · intro write hwrite hof
      obtain ⟨constant, -, rfl⟩ := List.mem_map.1 hwrite
      cases hof.2.2

/-- A store gains the cells of the writes that were made in the invocation under a label, in
whichever turn that invocation has been opened. -/
structure Gains (label : String) (turn : Nat) (clock : LogicalTime) (writes : List Write)
    (before after : StepStore) : Prop where
  step : after.step = before.step
  cells : ∀ start, start ≤ turn → ∀ kind name, (after.cells kind).get? name =
    ((Write.cells label start before.step kind clock writes).last? name).or
      ((before.cells kind).get? name)

/-- A store gains nothing by writes under other labels. -/
theorem gains_of_elsewhere {label : String} {writes : List Write}
    (h : ∀ write ∈ writes, write.label ≠ label) (turn : Nat) (clock : LogicalTime)
    (store : StepStore) : Gains label turn clock writes store store := by
  refine ⟨rfl, ?_⟩
  intro start _ kind name
  rw [Write.cells_eq_nil fun write hwrite hof => h write hwrite hof.1]
  rfl

/-- **An accepted write is one cell more**, for whichever turn the invocation was opened in. -/
theorem gains_of_accepts {write : Write} {clock : Clock} {before after : StepStore}
    (htidy : before.Tidy) (hkind : write.kind ≠ .input)
    (h : before.Accepts after write.kind write.name write.value clock.tick.now) :
    Gains write.label write.turn clock.now [write] before after := by
  refine ⟨h.step, ?_⟩
  intro start hstart kind name
  rw [h.get?_cells htidy hkind]
  -- the kind of the write gains a cell under its name, the other kinds gain nothing
  by_cases hother : write.kind = kind
  · rw [Write.cells_singleton ⟨rfl, hstart, hother⟩, Entries.last?_singleton]
    by_cases hname : write.name = name
    · rw [if_pos ⟨hother, hname⟩, if_pos hname]
      rfl
    · rw [if_neg fun hboth => hname hboth.2, if_neg hname, Option.none_or]
  · rw [if_neg fun hboth => hother hboth.1, Write.cells_eq_nil]
    · rfl
    · intro only honly hof
      rw [List.mem_singleton.1 honly] at hof
      exact hother hof.2.2

/-- An open invocation gains the cells that an action has written in it. -/
theorem act_gains {session : Session}
    (htidy : ∀ label invocation, session.live.get? label = some invocation →
      invocation.store.Tidy) {action : Action} (hdirect : action.IsDirect) {label : String}
    (hbegin : ∀ request, action ≠ .begin label request) {invocation : Invocation}
    (h : (session.act action).1.live.get? label = some invocation) (turn : Nat) :
    ∃ before, session.live.get? label = some before ∧
      Gains label turn session.supervisor.clock.now (session.written turn action) before.store
        invocation.store := by
  by_cases hany : ∃ target request, action = .begin target request
  · obtain ⟨target, request, rfl⟩ := hany
    -- a begin under another label lays its constants there
    have htarget : target ≠ label := by
      rintro rfl
      exact hbegin request rfl
    rw [act, OrderedMap.get?_insert, if_neg htarget] at h
    refine ⟨invocation, h, gains_of_elsewhere ?_ ..⟩
    intro write hwrite
    obtain ⟨constant, -, rfl⟩ := List.mem_map.1 hwrite
    exact htarget
  · simp only [not_exists] at hany
    rcases session.act_direct hdirect hany turn with
      ⟨write, hwritten, hturn, hkind, haccepts⟩ | ⟨hwritten, hrests⟩
    · obtain ⟨before, after, hbefore, hlive, hstore⟩ := haccepts.live
      rw [hwritten]
      rw [hlive, OrderedMap.get?_insert] at h
      by_cases htarget : write.label = label
      · -- the write was made in this invocation, or in another one
        subst htarget
        rw [if_pos rfl, Option.some.injEq] at h
        subst h
        exact ⟨before, hbefore, hturn ▸ gains_of_accepts (htidy _ _ hbefore) hkind hstore⟩
      · rw [if_neg htarget] at h
        refine ⟨invocation, h, gains_of_elsewhere ?_ ..⟩
        intro only honly
        rwa [List.mem_singleton.1 honly]
    · obtain ⟨before, hbefore, hstore⟩ := hrests.live label invocation h
      rw [hwritten, hstore]
      exact ⟨before, hbefore, gains_of_elsewhere (List.forall_mem_nil _) ..⟩

/-- Of these actions only a commit publishes. -/
theorem exists_commit_of_publication {session : Session} {action : Action}
    (hdirect : action.IsDirect) {publication : Publication}
    (h : (session.act action).2.publication? = some publication) :
    ∃ label invocation, action = .commit label ∧ session.live.get? label = some invocation ∧
      (session.supervisor.commit invocation).2 = .ok publication := by
  -- only a commit answers with a publication
  cases action with
  | commit label =>
    cases hlive : session.live.get? label with
    | none => simp [act, hlive, Reply.publication?] at h
    | some invocation =>
      simp only [act, hlive] at h
      cases hresult : (session.supervisor.commit invocation).2 with
      | error error => simp [hresult, Reply.publication?] at h
      | ok other =>
        rw [hresult, Reply.publication?, Option.some.injEq] at h
        exact ⟨label, invocation, rfl, hlive, h ▸ hresult⟩
  | begin label request | log step level message => simp [act, Reply.publication?] at h
  | set label name value | setOutput label name value | fail label error =>
    simp only [act] at h
    split at h <;> simp [afterWrite, Reply.publication?] at h
  | execute | executeAsync | resume | finish => exact hdirect.elim

/-- What an action can do to a published cell: a commit puts the output of its invocation there, or
the cell stays and nothing is published under its name. -/
theorem act_cell? {session : Session}
    (htidy : ∀ label invocation, session.live.get? label = some invocation →
      invocation.store.Tidy) {action : Action} (hdirect : action.IsDirect) {name : String}
    {cell : Cell} (h : (session.act action).1.supervisor.table.cell? name = some cell) :
    (∃ label invocation publication, action = .commit label ∧
      session.live.get? label = some invocation ∧
      (session.act action).2.publication? = some publication ∧ name ∈ publication.values.keys ∧
      invocation.store.outputs.get? name = some cell) ∨
    (session.supervisor.table.cell? name = some cell ∧
      ∀ publication, (session.act action).2.publication? = some publication →
        name ∉ publication.values.keys) := by
  have hpublishes := act_publishes htidy action
  cases hpublication : (session.act action).2.publication? with
  | none =>
    rw [hpublication] at hpublishes
    -- nothing was published
    have htable : (session.act action).1.supervisor.table = session.supervisor.table := hpublishes
    refine .inr ⟨htable ▸ h, ?_⟩
    intro publication hnone
    cases hnone
  | some publication =>
    obtain ⟨label, invocation, rfl, hlive, hok⟩ :=
      exists_commit_of_publication hdirect hpublication
    have hfits := htidy label invocation hlive
    obtain ⟨-, hvalues, -, -⟩ := Supervisor.commit_ok hfits hok
    -- a commit publishes the names of its outputs
    have hkeys : publication.values.keys = invocation.store.outputs.keys := by
      rw [hvalues, Invocation.outputs_eq, OrderedMap.keys_map]
    simp only [act, hlive] at h
    rw [Supervisor.commit_cell? hfits hok] at h
    cases houtput : invocation.store.outputs.get? name with
    | some output =>
      rw [houtput, Option.some_or] at h
      refine .inl ⟨label, invocation, publication, rfl, hlive, rfl, ?_, houtput.trans h⟩
      by_contra hnot
      rw [hkeys, ← OrderedMap.get?_eq_none_iff, houtput] at hnot
      cases hnot
    | none =>
      rw [houtput, Option.none_or] at h
      refine .inr ⟨h, ?_⟩
      intro other hother
      rw [← Option.some.inj hother, hkeys]
      exact (OrderedMap.get?_eq_none_iff _ _).1 houtput

/-! ## The writes of a run

Inductions over the actions, from the last one. The invariant is that the clock counts the writes;
with it the times that the last action hands out are the places of its writes in the list.
-/

/-- The writes of a run whose first turn has the number `turn`. -/
def writesFrom : Nat → Session → List Action → List Write
  | _, _, [] => []
  | turn, session, action :: rest =>
    session.written turn action ++ writesFrom (turn + 1) (session.act action).1 rest

/-- The accepted writes of a run and the constants that became inputs, in order. -/
def writes (session : Session) (actions : List Action) : List Write :=
  writesFrom 0 session actions

/-- The writes of a run are those of its first part and then those of the rest. -/
theorem writesFrom_append (turn : Nat) (session : Session) (first second : List Action) :
    writesFrom turn session (first ++ second) =
      writesFrom turn session first ++
        writesFrom (turn + first.length) (session.run first) second := by
  induction first generalizing turn session with
  | nil => rfl
  | cons action rest ih =>
    have hturn : turn + 1 + rest.length = turn + (rest.length + 1) := by
      rw [Nat.add_assoc, Nat.add_comm 1]
    simp only [List.cons_append, writesFrom, ih, List.append_assoc, List.length_cons, hturn]
    rfl

/-- One action more makes its writes behind the others. -/
theorem writes_concat (session : Session) (actions : List Action) (action : Action) :
    session.writes (actions ++ [action]) =
      session.writes actions ++ (session.run actions).written actions.length action := by
  rw [writes, writesFrom_append, Nat.zero_add]
  simp only [writesFrom, List.append_nil]
  rfl

/-- What was written up to a moment stands first. -/
theorem writes_take_initial (session : Session) (actions : List Action) (i : Nat) :
    session.writes (actions.take i) <+: session.writes actions := by
  have happend := writesFrom_append 0 session (actions.take i) (actions.drop i)
  rw [List.take_append_drop] at happend
  exact ⟨_, happend.symm⟩

/-- Every write was made in a turn of the run. -/
theorem turn_lt_of_mem_writes {session : Session} {actions : List Action}
    (hdirect : ∀ action ∈ actions, action.IsDirect) {write : Write}
    (h : write ∈ session.writes actions) : write.turn < actions.length := by
  induction actions using List.reverseRecOn with
  | nil => cases h
  | append_singleton actions action ih =>
    obtain ⟨hfirst, haction⟩ := List.forall_mem_append.1 hdirect
    rw [List.length_append, List.length_singleton]
    rw [writes_concat, List.mem_append] at h
    rcases h with h | h
    · -- written before the last action, or by it
      exact Nat.lt_succ_of_lt (ih hfirst h)
    · exact turn_of_mem_written (haction action (List.mem_singleton_self action)) h ▸
        Nat.lt_succ_self _

section Run

variable {config : Config} {outlet : LogOutlet} {actions : List Action}

/-- The cells of the table stand under their names in every run. -/
theorem named_run (config : Config) (outlet : LogOutlet) (actions : List Action) :
    ((new config outlet).run actions).supervisor.table.Named := by
  refine ((new config outlet).follows_run actions).named ?_
  intro name published h
  simp [new, Supervisor.new] at h

variable (hdirect : ∀ action ∈ actions, action.IsDirect)

include hdirect

/-- As many times have been handed out as writes were made. -/
theorem clock_run :
    ((new config outlet).run actions).supervisor.clock.now =
      ((new config outlet).writes actions).length := by
  induction actions using List.reverseRecOn with
  | nil => rfl
  | append_singleton actions action ih =>
    obtain ⟨hfirst, haction⟩ := List.forall_mem_append.1 hdirect
    rw [run_concat, writes_concat, List.length_append, ← ih hfirst]
    have hdirected := haction action (List.mem_singleton_self action)
    exact act_clock (named_run config outlet actions) hdirected _

/-- Right after its turn, the cell of a write is stamped with the place of the write. -/
theorem run_writes {k : Nat} {write : Write}
    (h : ((new config outlet).writes actions)[k]? = some write) :
    ∃ invocation,
      ((new config outlet).run (actions.take (write.turn + 1))).live.get? write.label =
        some invocation ∧
      (invocation.store.cells write.kind).get? write.name =
        some (write.cell invocation.step (k + 1)) := by
  induction actions using List.reverseRecOn with
  | nil => cases h
  | append_singleton actions action ih =>
    obtain ⟨hfirst, haction⟩ := List.forall_mem_append.1 hdirect
    have hdirected := haction action (List.mem_singleton_self action)
    by_cases hk : k < ((new config outlet).writes actions).length
    · -- it is a write of the shorter run
      rw [writes_concat, List.getElem?_append_left hk] at h
      have hturn := turn_lt_of_mem_writes hfirst (List.mem_of_getElem? h)
      rw [List.take_append_of_le_length hturn]
      exact ih hfirst h
    · rw [writes_concat, List.getElem?_append_right (Nat.le_of_not_lt hk)] at h
      have hturn := turn_of_mem_written hdirected (List.mem_of_getElem? h)
      -- it is a write of the last action, and the clock has counted those before
      have hwrites := act_writes (named_run config outlet actions) (fun _ _ => tidy_of_live rfl)
        hdirected h
      rw [hturn, List.take_of_length_le (by simp), run_concat]
      rw [clock_run hfirst, Nat.add_sub_cancel' (Nat.le_of_not_lt hk)] at hwrites
      exact hwrites

/-- What an open invocation holds are the cells of the writes made in it, over what it resolved. -/
theorem live_cells {label : String} {invocation : Invocation}
    (h : ((new config outlet).run actions).live.get? label = some invocation) :
    ∃ request start, OpenSince actions label request start ∧
      invocation.store.step = request.step ∧
      ∀ kind name, (invocation.store.cells kind).get? name =
        ((Write.cells label start request.step kind 0
          ((new config outlet).writes actions)).last? name).or
          ((resolved ((new config outlet).run (actions.take start)).supervisor.table request
            kind).get? name) := by
  induction actions using List.reverseRecOn generalizing invocation with
  | nil => simp [run, new] at h
  | append_singleton actions action ih =>
    obtain ⟨hfirst, haction⟩ := List.forall_mem_append.1 hdirect
    have hdirected := haction action (List.mem_singleton_self action)
    have hclock := @clock_run config outlet actions hfirst
    by_cases hbegin : ∃ request, action = .begin label request
    · -- it was begun just now, and none of the writes before was made in it
      obtain ⟨request, rfl⟩ := hbegin
      rw [run_concat, act, OrderedMap.get?_insert, if_pos rfl, Option.some.injEq] at h
      subst h
      refine ⟨request, actions.length, openSince_length actions label request, rfl, ?_⟩
      intro kind name
      have hbefore : Write.cells label actions.length request.step kind 0
          ((new config outlet).writes actions) = [] := by
        refine Write.cells_eq_nil fun write hwrite hof => ?_
        exact Nat.not_lt.2 hof.2.1 (turn_lt_of_mem_writes hfirst hwrite)
      rw [begin_cells (named_run config outlet actions) label request actions.length, writes_concat,
        Write.cells_append, hbefore, List.nil_append, Nat.zero_add, hclock, List.take_left]
    · simp only [not_exists] at hbegin
      rw [run_concat] at h
      -- it was open before, and has gained what the action wrote in it
      obtain ⟨before, hbefore, hgains⟩ :=
        act_gains (fun _ _ => tidy_of_live rfl) hdirected hbegin h actions.length
      obtain ⟨request, start, hsince, hstep, hcells⟩ := ih hfirst hbefore
      have hstart := hsince.lt_length
      refine ⟨request, start, hsince.concat hbegin, hgains.step.trans hstep, ?_⟩
      intro kind name
      rw [hgains.cells start (Nat.le_of_lt hstart), hcells, hstep, writes_concat,
        Write.cells_append, Entries.last?_append, Option.or_assoc, Nat.zero_add, hclock,
        List.take_append_of_le_length (Nat.le_of_lt hstart)]

/-- A published cell is that of the last write of its name in the invocation that published it
last. -/
theorem run_published {name : String} {cell : Cell}
    (h : ((new config outlet).run actions).supervisor.table.cell? name = some cell) :
    ∃ i label request start publication,
      Turn.LastPublish ((new config outlet).turns actions) name i publication ∧
      actions[i]? = some (.commit label) ∧ OpenSince (actions.take i) label request start ∧
      (Write.cells label start request.step .output 0
        ((new config outlet).writes (actions.take i))).last? name = some cell := by
  induction actions using List.reverseRecOn with
  | nil => simp [run, new, Supervisor.new, Table.cell?] at h
  | append_singleton actions action ih =>
    obtain ⟨hfirst, haction⟩ := List.forall_mem_append.1 hdirect
    have hdirected := haction action (List.mem_singleton_self action)
    rw [run_concat] at h
    rcases act_cell? (fun _ _ => tidy_of_live rfl) hdirected h with
      ⟨label, invocation, publication, rfl, hlive, hpublished, hname, hcell⟩ | ⟨hkept, hname⟩
    · -- the last action has published it
      obtain ⟨request, start, hsince, -, hcells⟩ := live_cells hfirst hlive
      have houtput := hcells .output name
      rw [show invocation.store.cells .output = invocation.store.outputs from rfl, hcell] at houtput
      refine ⟨actions.length, label, request, start, publication, ?_, by simp, ?_, ?_⟩
      · rw [turns_concat, ← length_turns (new config outlet) actions]
        exact Turn.lastPublish_length hpublished hname _
      · rwa [List.take_left]
      · rw [List.take_left, houtput]
        exact (Option.or_none).symm
    · obtain ⟨i, label, request, start, publication, hlast, hcommit, hsince, hcells⟩ :=
        ih hfirst hkept
      -- it was published before, and not since
      have hi : i < actions.length := (List.getElem?_eq_some_iff.1 hcommit).1
      refine ⟨i, label, request, start, publication, ?_, ?_, ?_, ?_⟩
      · rw [turns_concat]
        exact hlast.concat hname
      · rw [List.getElem?_append_left hi, hcommit]
      · rwa [List.take_append_of_le_length (Nat.le_of_lt hi)]
      · rwa [List.take_append_of_le_length (Nat.le_of_lt hi)]

/-- The time of a published cell is the place of a write of its name. -/
theorem exists_write_of_published {name : String} {cell : Cell}
    (h : ((new config outlet).run actions).supervisor.table.cell? name = some cell) :
    ∃ (k : Nat) (write : Write), ((new config outlet).writes actions)[k]? = some write ∧
      write.name = name ∧ cell.writtenAt = k + 1 := by
  obtain ⟨i, label, request, start, publication, -, -, -, hcell⟩ := run_published hdirect h
  obtain ⟨k, write, hwrite, hname, -, rfl⟩ := Write.exists_of_last?_cells hcell
  obtain ⟨later, hlater⟩ := writes_take_initial (new config outlet) actions i
  have hk : k < ((new config outlet).writes (actions.take i)).length :=
    (List.getElem?_eq_some_iff.1 hwrite).1
  refine ⟨k, write, ?_, hname, congrArg (· + 1) (Nat.zero_add k)⟩
  rw [← hlater, List.getElem?_append_left hk, hwrite]

theorem writtenAt_published_le {name : String} {cell : Cell}
    (h : ((new config outlet).run actions).supervisor.table.cell? name = some cell) :
    cell.writtenAt ≤ ((new config outlet).run actions).supervisor.clock.now := by
  obtain ⟨k, write, hwrite, -, htime⟩ := exists_write_of_published hdirect h
  rw [clock_run hdirect, htime]
  exact (List.getElem?_eq_some_iff.1 hwrite).1

theorem clock_run_take_le (i : Nat) :
    ((new config outlet).run (actions.take i)).supervisor.clock.now ≤
      ((new config outlet).run actions).supervisor.clock.now := by
  have htake : ∀ action ∈ actions.take i, action.IsDirect :=
    fun action haction => hdirect action (List.mem_of_mem_take haction)
  rw [clock_run hdirect, clock_run htake]
  exact (writes_take_initial (new config outlet) actions i).length_le

/-- **No cell of an open invocation is later than the clock**, be it written or resolved. -/
theorem writtenAt_live_le {label : String} {invocation : Invocation}
    (hlive : ((new config outlet).run actions).live.get? label = some invocation)
    {kind : CellKind} {name : String} {cell : Cell}
    (h : (invocation.store.cells kind).get? name = some cell) :
    cell.writtenAt ≤ ((new config outlet).run actions).supervisor.clock.now := by
  obtain ⟨request, start, -, -, hcells⟩ := live_cells hdirect hlive
  rw [hcells, Option.or_eq_some_iff] at h
  rcases h with hwritten | ⟨-, hresolved⟩
  · obtain ⟨k, write, hwrite, -, -, rfl⟩ := Write.exists_of_last?_cells hwritten
    rw [clock_run hdirect]
    exact Nat.le_trans (by simp [Write.cell]) (List.getElem?_eq_some_iff.1 hwrite).1
  · -- what it has resolved was published when it began
    have htake : ∀ action ∈ actions.take start, action.IsDirect :=
      fun action haction => hdirect action (List.mem_of_mem_take haction)
    cases kind with
    | state | output => simp [resolved] at hresolved
    | input =>
      rw [resolved, (named_run config outlet _).get?_resolve] at hresolved
      split at hresolved
      · obtain ⟨published, hpublished, rfl⟩ := Option.map_eq_some_iff.1 hresolved
        have hthen := writtenAt_published_le htake hpublished
        exact Nat.le_trans hthen (clock_run_take_le hdirect start)
      · cases hresolved

end Run

/-- A cell that can be found in a session: published, resolved for a step that would begin now, or
in the store of an open invocation. -/
inductive Holds (session : Session) : Cell → Prop
  | published {name : String} {cell : Cell}
      (h : session.supervisor.table.cell? name = some cell) : Holds session cell
  | resolved {names : List String} {cell : Cell}
      (h : cell ∈ (session.supervisor.table.resolve names).cells) : Holds session cell
  | live {label : String} {invocation : Invocation} {kind : CellKind} {name : String} {cell : Cell}
      (hlive : session.live.get? label = some invocation)
      (h : (invocation.store.cells kind).get? name = some cell) : Holds session cell

theorem writtenAt_le_of_holds {config : Config} {outlet : LogOutlet} {actions : List Action}
    (hdirect : ∀ action ∈ actions, action.IsDirect) {cell : Cell}
    (h : ((new config outlet).run actions).Holds cell) :
    cell.writtenAt ≤ ((new config outlet).run actions).supervisor.clock.now := by
  cases h with
  | published h => exact writtenAt_published_le hdirect h
  | resolved h =>
    rw [Table.resolve_cells, List.mem_filterMap] at h
    obtain ⟨name, -, h⟩ := h
    obtain ⟨published, hpublished, rfl⟩ := Option.map_eq_some_iff.1 h
    have htime := writtenAt_published_le hdirect hpublished
    exact htime
  | live hlive h => exact writtenAt_live_le hdirect hlive h

/-- **Times number the writes.** Whatever hosts do, in any order, with any number of invocations of
one run, other than let the library run scripts:

* an action takes as many times as it makes writes: a constant that is laid and an accepted write
  take one each, and everything else takes none; so the clock is the number of writes;
* right after its turn, the cell of the `k`-th write is stamped with the `k`-th time, counted from
  one;
* each state and output cell of an open invocation is that of the last write of its name made in it,
  and each input is that of its constant, or as it was resolved when the invocation began;
* each published cell is that of the last write of its name in the invocation that published it
  last;
* no cell anywhere has a later time than the clock;
* no two published names have one time. -/
theorem times_number_writes (config : Config) (outlet : LogOutlet) {actions : List Action}
    (hdirect : ∀ action ∈ actions, action.IsDirect) :
    let first := new config outlet
    let after := first.run actions
    let writes := first.writes actions
    (∀ i action, actions[i]? = some action →
      let before := first.run (actions.take i)
      (before.act action).1.supervisor.clock.now =
        before.supervisor.clock.now + (before.written i action).length) ∧
    after.supervisor.clock.now = writes.length ∧
    (∀ (k : Nat) (write : Write), writes[k]? = some write → ∃ invocation,
      (first.run (actions.take (write.turn + 1))).live.get? write.label = some invocation ∧
      (invocation.store.cells write.kind).get? write.name =
        some ⟨write.name, write.value, invocation.step, write.kind, k + 1⟩) ∧
    (∀ label invocation, after.live.get? label = some invocation →
      ∃ request start, OpenSince actions label request start ∧
        (∀ kind, kind ≠ .input → ∀ name, (invocation.store.cells kind).get? name =
          (Write.cells label start request.step kind 0 writes).last? name) ∧
        ∀ name, invocation.store.inputs.get? name =
          ((Write.cells label start request.step .input 0 writes).last? name).or
            ((Cell.byName ((first.run (actions.take start)).supervisor.table.resolve
              request.declared).cells).get? name)) ∧
    (∀ name cell, after.supervisor.table.cell? name = some cell →
      ∃ i label request start publication,
        Turn.LastPublish (first.turns actions) name i publication ∧
        actions[i]? = some (.commit label) ∧ OpenSince (actions.take i) label request start ∧
        (Write.cells label start request.step .output 0
          (first.writes (actions.take i))).last? name = some cell) ∧
    (∀ cell, after.Holds cell → cell.writtenAt ≤ after.supervisor.clock.now) ∧
    (∀ name other a b, after.supervisor.table.cell? name = some a →
      after.supervisor.table.cell? other = some b → a.writtenAt = b.writtenAt → name = other) := by
  intro first after writes
  refine ⟨?_, clock_run hdirect, fun k write => run_writes hdirect, ?_,
    fun name cell => run_published hdirect, fun cell => writtenAt_le_of_holds hdirect, ?_⟩
  · intro i action haction
    exact act_clock (named_run config outlet _) (hdirect action (List.mem_of_getElem? haction)) i
  · intro label invocation hlive
    obtain ⟨request, start, hsince, -, hcells⟩ := live_cells hdirect hlive
    refine ⟨request, start, hsince, ?_, hcells .input⟩
    intro kind hkind name
    rw [hcells kind name]
    cases kind with
    | input => exact absurd rfl hkind
    | state | output => exact Option.or_none
  · intro name other a b ha hb htime
    -- two cells with one time are of one write, and a write has one name
    obtain ⟨k, write, hwrite, rfl, hk⟩ := exists_write_of_published hdirect ha
    obtain ⟨l, same, hsame, rfl, hl⟩ := exists_write_of_published hdirect hb
    have hkl : k = l := Nat.succ.inj (hk.symm.trans (htime.trans hl))
    rw [hkl, hsame, Option.some.injEq] at hwrite
    rw [hwrite]

/-- Two invocations, one after the other: constants, an overwritten output, a refused write, and a
constant that is skipped because its name is published. -/
def relay : List Action :=
  [.begin "a1" { step := ⟨"a"⟩, constants := .ofPairs [("p", .int 1), ("q", .int 2)] },
    .set "a1" "s" (.int 3), .setOutput "a1" "s" (.int 4), .setOutput "a1" "x" (.int 5),
    .setOutput "a1" "x" (.int 6), .commit "a1",
    .begin "b1" { step := ⟨"b"⟩, declared := ["x"], constants := .ofPairs [("x", .int 7)] },
    .setOutput "b1" "y" (.int 8)]

/-- A run in which published values stand over constants. -/
def yielding : Session := new { constantsOverridePublished := false } .trace

/-- Six writes, six times; what `b1` reads as `x` is the cell of the fifth. -/
theorem times_number_writes_relay :
    (∀ action ∈ relay, action.IsDirect) ∧
    (yielding.writes relay).map (fun write => (write.label, write.name)) =
      [("a1", "p"), ("a1", "q"), ("a1", "s"), ("a1", "x"), ("a1", "x"), ("b1", "y")] ∧
    (yielding.run relay).supervisor.clock.now = 6 ∧
    ∃ invocation, (yielding.run relay).live.get? "b1" = some invocation ∧
      invocation.store.inputs.get? "x" = some ⟨"x", .int 6, ⟨"a"⟩, .input, 5⟩ := by
  have hdirect : ∀ action ∈ relay, action.IsDirect := by decide
  obtain ⟨-, hclock, -, hlive, -⟩ :=
    times_number_writes { constantsOverridePublished := false } .trace hdirect
  obtain ⟨request, start, hsince, -, hinputs⟩ := hlive "b1" _ rfl
  have hbegun : OpenSince relay "b1" request start := hsince
  -- the last begin under the label is at position 6, and the write behind it is no begin
  have hset : ∀ other, Action.setOutput "b1" "y" (.int 8) ≠ .begin "b1" other := by
    intro other heq
    cases heq
  obtain ⟨rfl, rfl⟩ := hbegun.unique ((openSince_length (relay.take 6) "b1" _).concat hset)
  exact ⟨hdirect, rfl, hclock, _, rfl, hinputs "x"⟩

end Session

end StepRelay
