import StepRelay.Proofs.Beginning
import StepRelay.Proofs.Simulation

/-!
# Tables that differ in their stamps

Each cell of a table bears the version at which it was published, and the one thing that this
version is for is to be compared with the version that a committing invocation has observed.
`Restamped low high` relates two tables with the same cells where the stamps may differ, as long as
both lie above `low` and not above `high`. An invocation that observed a version up to `low`, or one
from `high` on, compares equally with both (`Published.Restamped.isUnobserved_eq`). So such tables
answer every such invocation alike and stay such tables, whatever is done (`Session.restamped_run`).

## The argument

* A stamp is only ever compared with an observed version, and two stamps between the bounds compare
  alike with a version outside of them (`observed_lt_iff`).
* So a publish meets the same conflicts in both tables, and leaves them restamped
  (`Restamped.publish`).
* Begins observe the version at which both tables are, which is past the bounds (`Restamped.begin`).
  With the single operations kept, the relation is a simulation (`Simulation.restamped`).
-/

namespace StepRelay

/-- No version above `low` and below `high` was observed. -/
def Outside (low high observed : LogicalTime) : Prop := observed ≤ low ∨ high ≤ observed

/-- An invocation observes one version from its begin on. -/
theorem Outside.of_continues {low high : LogicalTime} {earlier later : Invocation}
    (hout : Outside low high earlier.observed) (h : earlier.Continues later) :
    Outside low high later.observed := by
  rw [h.observed]
  exact hout

/-- The same cell, at the same version or at two versions above `low` and up to `high`. -/
structure Published.Restamped (low high : LogicalTime) (p q : Published) : Prop where
  cell : p.cell = q.cell
  stamp : p.publishedAt = q.publishedAt ∨
    (low < p.publishedAt ∧ p.publishedAt ≤ high) ∧ low < q.publishedAt ∧ q.publishedAt ≤ high

theorem Published.Restamped.refl (low high : LogicalTime) (p : Published) :
    p.Restamped low high p :=
  ⟨rfl, .inl rfl⟩

/-- Which of the two is looked at first makes no difference. -/
theorem Published.Restamped.symm {low high : LogicalTime} {p q : Published}
    (h : p.Restamped low high q) : q.Restamped low high p :=
  ⟨h.cell.symm, h.stamp.imp Eq.symm And.symm⟩

/-- What is held under a name, if anything is. -/
theorem Published.restamped_refl (low high : LogicalTime) (held : Option Published) :
    Option.Rel (Published.Restamped low high) held held := by
  cases held with
  | none => exact .none
  | some p => exact .some (.refl low high p)

/-- Stamps that differ are on the same side of what was observed. -/
theorem observed_lt_iff {low high observed p q : Nat} (hout : observed ≤ low ∨ high ≤ observed)
    (hstamp : p = q ∨ (low < p ∧ p ≤ high) ∧ low < q ∧ q ≤ high) : observed < p ↔ observed < q := by
  omega

/-- **Restamped cells are observed alike** by who observed no version between the stamps. -/
theorem Published.Restamped.isUnobserved_eq {low high observed : LogicalTime} {p q : Published}
    (h : p.Restamped low high q) (hout : Outside low high observed) (step : StepId) :
    p.isUnobserved step observed = q.isUnobserved step observed := by
  unfold Published.isUnobserved
  rw [h.cell, decide_eq_decide.2 (observed_lt_iff hout h.stamp)]

/-! ## Tables

Publishing compares the stamp of each name with the version that the committing invocation observed.
If that version is outside, the comparison comes out alike in both tables, and the new cells are
stamped alike.
-/

namespace Table

/-- Both maps hold restamped cells under the same names. -/
def CellsRestamped (low high : LogicalTime) (ours theirs : OrderedMap Published) : Prop :=
  ∀ name, Option.Rel (Published.Restamped low high) (ours.get? name) (theirs.get? name)

/-- One cell more, the same in both, keeps them restamped. -/
theorem CellsRestamped.insert {low high : LogicalTime} {ours theirs : OrderedMap Published}
    (h : CellsRestamped low high ours theirs) (name : String) (published : Published) :
    CellsRestamped low high (ours.insert name published) (theirs.insert name published) := by
  intro other
  rw [OrderedMap.get?_insert, OrderedMap.get?_insert]
  by_cases hname : name = other
  · rw [if_pos hname, if_pos hname]
    exact .some (.refl low high published)
  · rw [if_neg hname, if_neg hname]
    exact h other

/-- Landing the same cells meets the same conflicts. -/
theorem CellsRestamped.land {low high observed : LogicalTime} (hout : Outside low high observed)
    (step : StepId) (version : LogicalTime) (cells : List Cell)
    {ours theirs : OrderedMap Published} (h : CellsRestamped low high ours theirs) :
    CellsRestamped low high (land step observed version ours cells).1
        (land step observed version theirs cells).1 ∧
      (land step observed version ours cells).2 = (land step observed version theirs cells).2 := by
  induction cells generalizing ours theirs with
  | nil => exact ⟨h, rfl⟩
  | cons cell rest ih =>
    obtain ⟨hcells, hconflicts⟩ := ih (h.insert cell.name ⟨cell, version⟩)
    simp only [Table.land]
    rcases rel_cases (h cell.name) with ⟨hours, htheirs⟩ | ⟨p, q, hours, htheirs, hsame⟩
    · rw [hours, htheirs]
      exact ⟨hcells, hconflicts⟩
    · rw [hours, htheirs]
      simp only [hsame.isUnobserved_eq hout step, hsame.cell]
      -- both meet a conflict here, or neither does
      by_cases hold : q.isUnobserved step observed = true
      · rw [if_pos hold, if_pos hold]
        exact ⟨hcells, congrArg (_ :: ·) hconflicts⟩
      · rw [if_neg hold, if_neg hold]
        exact ⟨hcells, hconflicts⟩

/-- Tables at one version, from `high` on, that hold the same cells up to stamps between `low` and
`high`. -/
structure Restamped (low high : LogicalTime) (a b : Table) : Prop where
  version : a.version = b.version
  reached : high ≤ a.version
  cells : CellsRestamped low high a.cells b.cells

section Restamped

variable {low high : LogicalTime} {a b : Table} (h : a.Restamped low high b)

include h

/-- Such tables publish the same cells. -/
theorem Restamped.cell? (name : String) : a.cell? name = b.cell? name := by
  unfold Table.cell?
  rcases rel_cases (h.cells name) with ⟨hours, htheirs⟩ | ⟨p, q, hours, htheirs, hsame⟩
  · rw [hours, htheirs]
  · rw [hours, htheirs, Option.map_some, Option.map_some, hsame.cell]

theorem Restamped.resolve (names : List String) : a.resolve names = b.resolve names := by
  have hcells : (a.resolve names).cells = (b.resolve names).cells := by
    simp only [resolve_cells, h.cell?]
  exact congrArg₂ Resolution.mk hcells h.version

/-- **And they are published to alike**: with the same conflicts, and to tables that differ in
stamps again. -/
theorem Restamped.publish {observed : LogicalTime} (hout : Outside low high observed)
    (step : StepId) (cells : List Cell) :
    (a.publish step cells observed).1.Restamped low high (b.publish step cells observed).1 ∧
      (a.publish step cells observed).2 = (b.publish step cells observed).2 := by
  -- the new version is the same, so the cells that land are
  have hland := h.cells.land hout step (b.version + 1) cells
  simp only [Table.publish, h.version]
  refine ⟨⟨rfl, ?_, hland.1⟩, ?_⟩
  · show high ≤ b.version + 1
    rw [← h.version]
    exact Nat.le_succ_of_le h.reached
  · rw [hland.2]

end Restamped

end Table

/-! ## Supervisors

The configuration and the clock are the same in both. What was told and archived may differ, since
no answer depends on it.
-/

namespace Supervisor

/-- What later answers depend on has not changed. -/
structure Quiet (before after : Supervisor) : Prop where
  config : after.config = before.config
  clock : after.clock = before.clock
  table : after.table = before.table

theorem Quiet.trans {a b c : Supervisor} (hab : a.Quiet b) (hbc : b.Quiet c) : a.Quiet c :=
  ⟨hbc.config.trans hab.config, hbc.clock.trans hab.clock, hbc.table.trans hab.table⟩

theorem quiet_log (s : Supervisor) (step : StepId) (level : LogLevel) (message : String) :
    s.Quiet (s.log step level message) := by
  refine ⟨(s.follows_log step level message).config, ?_, s.log_table step level message⟩
  unfold log
  dsimp only
  split <;> rfl

theorem quiet_archiveRecord (s : Supervisor) (record : Record) :
    s.Quiet (s.archiveRecord record) := by
  refine ⟨(s.follows_archiveRecord record).config, ?_, s.archiveRecord_table record⟩
  simp only [archiveRecord]
  rw [foldl_keeps Supervisor.clock]
  exact fun _ _ => rfl

theorem quiet_recordFailure (s : Supervisor) (step : StepId)
    (inputs state outputs : OrderedMap Value) (error : StepError) :
    s.Quiet (s.recordFailure step inputs state outputs error) := by
  refine Quiet.trans ?_ (quiet_archiveRecord ..)
  exact ⟨rfl, rfl, rfl⟩

theorem commit_clock (s : Supervisor) (invocation : Invocation) :
    (s.commit invocation).1.clock = s.clock := by
  cases hfatal : invocation.fatal with
  | some error =>
    rw [commit_of_fatal hfatal]
    exact (quiet_recordFailure ..).clock
  | none =>
    simp only [commit, hfatal]
    rw [(quiet_archiveRecord _ _).clock]
    simp only [emit, traceLine]
    -- announcing the conflicts takes no time either
    rw [foldl_keeps Supervisor.clock]
    exact fun _ _ => rfl

/-- What a commit answers, by the report of the publish. -/
theorem commit_answer {invocation : Invocation} (h : invocation.fatal = none) (s : Supervisor) :
    let report := (s.table.publish invocation.step invocation.store.outputs.values
      invocation.observed).2
    (s.commit invocation).2 = .ok {
      step := invocation.step
      tableVersion := report.version
      values := invocation.outputs
      ambiguities := report.conflicts.map (Conflict.ambiguity invocation.step) } := by
  simp only [commit, h]
  rfl

/-- Supervisors whose tables differ in stamps, and which may have told and archived different
things. -/
structure Restamped (low high : LogicalTime) (a b : Supervisor) : Prop where
  config : a.config = b.config
  clock : a.clock = b.clock
  table : a.table.Restamped low high b.table

section Restamped

variable {low high : LogicalTime} {a b : Supervisor} (h : a.Restamped low high b)

include h

/-- What is quiet may be done to one of the two alone. -/
theorem Restamped.quiet {after other : Supervisor} (hours : a.Quiet after)
    (htheirs : b.Quiet other) : after.Restamped low high other := by
  obtain ⟨hconfig, hclock, htable⟩ := h
  rw [← hours.config, ← htheirs.config] at hconfig
  rw [← hours.clock, ← htheirs.clock] at hclock
  rw [← hours.table, ← htheirs.table] at htable
  exact ⟨hconfig, hclock, htable⟩

/-- The same invocation begins in both, and it observes a version that the stamps have left
behind. -/
theorem Restamped.begin (request : StepRequest) :
    (a.begin request).1.Restamped low high (b.begin request).1 ∧
      (a.begin request).2 = (b.begin request).2 ∧
      Outside low high (a.begin request).2.observed := by
  have hresolve := h.table.resolve request.declared
  refine ⟨⟨?_, ?_, ?_⟩, ?_, .inr h.table.reached⟩
  · rw [(a.follows_begin request).config, (b.follows_begin request).config, h.config]
  · rw [begin_clock_eq, begin_clock_eq, hresolve, h.config, h.clock]
  · rw [begin_table, begin_table]
    exact h.table
  · simp only [Supervisor.begin, hresolve, h.config, h.clock]

/-- **A call of a script** gets the same answer from both. -/
theorem Restamped.perform (invocation : Invocation) (call : Call) :
    (a.perform invocation call).1.Restamped low high (b.perform invocation call).1 ∧
      (a.perform invocation call).2 = (b.perform invocation call).2 := by
  cases call with
  | inputs | state | pause => exact ⟨h, rfl⟩
  | set name value | setOutput name value =>
    -- a write asks for the time, which is the same
    simp only [Supervisor.perform, Supervisor.afterWrite, h.clock]
    exact ⟨⟨h.config, rfl, h.table⟩, rfl⟩
  | log level message => exact ⟨h.quiet (quiet_log ..) (quiet_log ..), rfl⟩

theorem Restamped.fail (invocation : Invocation) (error : StepError) :
    (a.fail invocation error).Restamped low high (b.fail invocation error) :=
  h.quiet (quiet_recordFailure ..) (quiet_recordFailure ..)

/-- **A commit gets the same answer from both**, if the invocation observed no version between the
stamps. -/
theorem Restamped.commit {invocation : Invocation} (hout : Outside low high invocation.observed) :
    (a.commit invocation).1.Restamped low high (b.commit invocation).1 ∧
      (a.commit invocation).2 = (b.commit invocation).2 := by
  cases hfatal : invocation.fatal with
  | some error =>
    rw [commit_of_fatal hfatal, commit_of_fatal hfatal]
    exact ⟨h.fail invocation error, rfl⟩
  | none =>
    -- the answer is made of the report, and the reports are the same
    obtain ⟨htable, hreport⟩ :=
      h.table.publish hout invocation.step invocation.store.outputs.values
    refine ⟨⟨?_, ?_, ?_⟩, ?_⟩
    · rw [(a.follows_commit invocation).config, (b.follows_commit invocation).config, h.config]
    · rw [commit_clock, commit_clock, h.clock]
    · rw [commit_table hfatal, commit_table hfatal]
      exact htable
    · rw [commit_answer hfatal, commit_answer hfatal, hreport]

end Restamped

end Supervisor

/-- What single operations do not tell apart is not told apart by scripts either. -/
def Simulation.restamped (low high : LogicalTime) : Simulation where
  states := Supervisor.Restamped low high
  invocations x y := x = y ∧ Outside low high x.observed
  step hxy := congrArg Invocation.step hxy.1
  inputs hxy := congrArg Invocation.inputs hxy.1
  markRunning hxy := by
    rw [← hxy.1]
    exact ⟨rfl, hxy.2.of_continues (Invocation.continues_markRunning _)⟩
  begin h request := by
    obtain ⟨hbegun, hsame, hout⟩ := h.begin request
    exact ⟨hbegun, hsame, hout⟩
  perform {a b x y} h hxy call := by
    obtain ⟨rfl, hout⟩ := hxy
    obtain ⟨hafter, hsame⟩ := h.perform x call
    rw [← hsame]
    exact ⟨hafter, ⟨rfl, hout.of_continues (Supervisor.continues_perform a x call)⟩, rfl⟩
  fail h hxy error := by
    rw [← hxy.1]
    exact h.fail _ error
  commit h hxy := by
    rw [← hxy.1]
    exact h.commit hxy.2
  cancel h inputs :=
    h.quiet (Supervisor.quiet_recordFailure ..) (Supervisor.quiet_recordFailure ..)
  log h step level message :=
    h.quiet (Supervisor.quiet_log _ step level message) (Supervisor.quiet_log _ step level message)

/-! ## Sessions

The relation is carried through a whole session by `Simulation.restamped`, whose related invocations
are equal ones. So the turns of the two sessions are equal, not only related.
-/

namespace Session

variable {low high : LogicalTime}

/-- Two sessions with the same invocations and scripts, of which none has observed a version between
the stamps. -/
theorem restamped_sessions {a b : Session}
    (hsupervisor : a.supervisor.Restamped low high b.supervisor)
    (hlive : a.live = b.live) (hdetached : a.detached = b.detached)
    (hobserved : ∀ label invocation, a.live.get? label = some invocation →
      Outside low high invocation.observed)
    (horphaned : ∀ running ∈ a.detached, Outside low high running.invocation.observed) :
    (Simulation.restamped low high).Sessions a b := by
  refine ⟨hsupervisor, ?_, ?_⟩
  · -- what is open is the same on both sides, and has observed nothing between the two bounds
    rw [← hlive]
    apply List.forall₂_same.2
    intro pair hpair
    exact ⟨rfl, rfl, hobserved pair.1 pair.2 (Entries.get?_of_mem a.live.nodup hpair)⟩
  · rw [← hdetached]
    apply List.forall₂_same.2
    intro running hrunning
    exact ⟨⟨rfl, horphaned running hrunning⟩, rfl, rfl⟩

/-- Related scripts are the same scripts. -/
theorem eq_of_runnings_restamped {x y : Running}
    (h : (Simulation.restamped low high).Runnings x y) : x = y := by
  obtain ⟨x, script, transcript⟩ := x
  obtain ⟨y, _, _⟩ := y
  obtain ⟨⟨rfl, -⟩, rfl, rfl⟩ := h
  rfl

theorem eq_of_executions_restamped {x y : Supervisor.Execution}
    (h : (Simulation.restamped low high).Executions x y) : x = y := by
  obtain ⟨result, transcript, detached⟩ := x
  obtain ⟨_, _, _⟩ := y
  obtain ⟨rfl, rfl, hdetached⟩ := h
  cases hdetached with
  | none => rfl
  | some hrunning => rw [eq_of_runnings_restamped hrunning]

/-- **So related replies are the same replies.** -/
theorem eq_of_replies_restamped {x y : Reply} (h : (Simulation.restamped low high).Replies x y) :
    x = y := by
  cases h with
  | begun h => exact congrArg Reply.begun h.1
  | executed h => exact congrArg Reply.executed (eq_of_executions_restamped h)
  | same => rfl

/-- **Whatever is done to two such sessions is answered alike**, and leaves two such sessions. -/
theorem restamped_run {a b : Session} (h : (Simulation.restamped low high).Sessions a b)
    (actions : List Action) :
    (Simulation.restamped low high).Sessions (a.run actions) (b.run actions) ∧
      a.turns actions = b.turns actions := by
  induction actions generalizing a b with
  | nil => exact ⟨h, rfl⟩
  | cons action rest ih =>
    obtain ⟨hact, hreplies⟩ := h.act action
    obtain ⟨hrest, hturns⟩ := ih hact
    refine ⟨hrest, ?_⟩
    rw [turns, turns, eq_of_replies_restamped hreplies, hturns]

end Session

end StepRelay
