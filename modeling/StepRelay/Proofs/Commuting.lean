import StepRelay.Proofs.EventStream
import StepRelay.Proofs.LogRetention
import StepRelay.Proofs.Restamped

/-!
# Commits of disjoint outputs

Two invocations that write different names may commit in either order. Neither commit changes what
the other one meets in the table (`Invocation.conflicts_publishedTo`), and the two orders leave
tables that differ in stamps from behind the version that both commits started from
(`Table.restamped_swap`). No invocation of the run has observed a later version than that one
(`Session.observed_le_version`), and one that begins after the commits observes the version they end
at. So nothing that follows can tell the orders apart (`Session.restamped_run`).

What can differ is what was told and kept of the two commits. Their events and their records stand
the other way round. Where the archive has room for one record only, the second commit takes the
record of the first, and the logs of its step with it (`Supervisor.scriptLogs_gone`). With more room
the step that commits first keeps its logs (`Supervisor.scriptLogs_first`), and so does the step
that commits second unless the first commit pushes out its last record
(`Supervisor.scriptLogs_second`).
-/

namespace StepRelay

/-! ## What a commit meets in the table

A commit is a publish, and what it answers is read off the cells that it replaces. With disjoint
outputs those are untouched by the other commit. The tables of the two orders differ in stamps, and
the stamps of either order lie behind the version at which both started.
-/

namespace Invocation

/-- The conflicts that a commit of the invocation meets in a table. -/
def conflicts (invocation : Invocation) (table : Table) : List Conflict :=
  invocation.outputs.keys.filterMap
    (Table.conflict? table.cells invocation.step invocation.observed)

/-- The table that a commit of the invocation leaves. -/
def publishedTo (invocation : Invocation) (table : Table) : Table :=
  (table.publish invocation.step invocation.store.outputs.values invocation.observed).1

/-- What a commit of the invocation onto a table answers. -/
def publication (invocation : Invocation) (table : Table) : Publication where
  step := invocation.step
  tableVersion := table.version + 1
  values := invocation.outputs
  ambiguities := (invocation.conflicts table).map (Conflict.ambiguity invocation.step)

/-- Two invocations have written no output in common. -/
def DisjointOutputs (first second : Invocation) : Prop :=
  ∀ name ∈ first.outputs.keys, name ∉ second.outputs.keys

/-- Which of the two is named first makes no difference. -/
theorem DisjointOutputs.symm {first second : Invocation} (h : first.DisjointOutputs second) :
    second.DisjointOutputs first :=
  fun name hsecond hfirst => h name hfirst hsecond

/-- A commit gives the names it has written the next version's stamp, and leaves all other cells. -/
theorem get?_publishedTo {invocation : Invocation} (htidy : invocation.store.Tidy) (table : Table)
    (name : String) :
    (invocation.publishedTo table).cells.get? name =
      ((invocation.store.outputs.get? name).map (⟨·, table.version + 1⟩)).or
        (table.cells.get? name) :=
  Table.publish_get? (fun name cell hcell => (htidy.outputs name cell hcell).1) ..

/-- A name that is not among the outputs is not in the store's outputs either: the two are the same
mapping but for what surrounds a value. -/
theorem get?_of_not_mem_outputs {invocation : Invocation} {name : String}
    (h : name ∉ invocation.outputs.keys) : invocation.store.outputs.get? name = none := by
  rw [outputs_eq, OrderedMap.keys_map] at h
  exact (OrderedMap.get?_eq_none_iff ..).2 h

/-- **Neither meets the other's cells.** A commit of other names leaves the conflicts of a commit as
they are: a conflict is read off the cell of a name that the invocation writes itself, and that cell
is the one from before. -/
theorem conflicts_publishedTo {first second : Invocation} (htidy : first.store.Tidy)
    (h : first.DisjointOutputs second) (table : Table) :
    second.conflicts (first.publishedTo table) = second.conflicts table := by
  apply List.filterMap_congr
  intro name hname
  have hfree := get?_of_not_mem_outputs (h.symm name hname)
  unfold Table.conflict?
  rw [get?_publishedTo htidy, hfree, Option.map_none, Option.none_or]

/-- So its answer is the same as before the other commit, one version later. -/
theorem publication_publishedTo {first second : Invocation} (htidy : first.store.Tidy)
    (h : first.DisjointOutputs second) (table : Table) :
    second.publication (first.publishedTo table) =
      { second.publication table with tableVersion := table.version + 2 } := by
  unfold publication
  rw [conflicts_publishedTo htidy h]
  rfl

end Invocation

/-- The stamps of the two commits lie behind the version of the start, and not behind the end. -/
theorem stamps_within (version : Nat) :
    (version < version + 1 ∧ version + 1 ≤ version + 2) ∧
      version < version + 2 ∧ version + 2 ≤ version + 2 := by
  omega

/-- A cell that the first of two publishes gives, and the same cell given by the second. -/
theorem Published.restamped_next (cell : Cell) (version : LogicalTime) :
    Published.Restamped version (version + 2) ⟨cell, version + 1⟩ ⟨cell, version + 2⟩ :=
  ⟨rfl, .inr (stamps_within version)⟩

/-- **The tables of the two orders.** Whichever of two disjoint commits comes first, the tables end
up with the same cells, at stamps behind the version of the start. A name that one of them writes
was published at the first version in one order and at the second in the other; every other name
still has the cell of the start. -/
theorem Table.restamped_swap {first second : Invocation} (hfirst : first.store.Tidy)
    (hsecond : second.store.Tidy) (h : first.DisjointOutputs second) (table : Table) :
    (second.publishedTo (first.publishedTo table)).Restamped table.version (table.version + 2)
      (first.publishedTo (second.publishedTo table)) := by
  refine ⟨rfl, Nat.le_refl _, ?_⟩
  intro name
  rw [Invocation.get?_publishedTo hsecond, Invocation.get?_publishedTo hfirst,
    Invocation.get?_publishedTo hfirst, Invocation.get?_publishedTo hsecond]
  by_cases hname : name ∈ first.outputs.keys
  · have hfree := Invocation.get?_of_not_mem_outputs (h name hname)
    simp only [hfree, Option.map_none, Option.none_or]
    cases first.store.outputs.get? name with
    | none => exact Published.restamped_refl ..
    | some cell =>
      -- it was published first in one order and second in the other
      exact .some (Published.restamped_next cell table.version)
  · have hfree := Invocation.get?_of_not_mem_outputs hname
    simp only [hfree, Option.map_none, Option.none_or]
    cases second.store.outputs.get? name with
    | none => exact Published.restamped_refl ..
    | some cell =>
      exact .some (Published.restamped_next cell table.version).symm

/-! ## What the archive keeps of two commits

The archive is a window on the newest records, and a log buffer goes with the last record of its
step. So all questions about the logs become questions about which steps have records, after one
commit and after both.
-/

namespace Archive

/-- A push keeps the newest records. The room is at least one, so what is dropped is all old. -/
theorem push_records_eq (archive : Archive) (record : Record) :
    (archive.push record).1.records = (archive.records ++ [record]).rtake archive.room := by
  have hroom : 1 ≤ archive.room := Nat.le_max_right ..
  have hexcess : archive.records.length + 1 - archive.room ≤ archive.records.length := by omega
  rw [List.rtake, List.length_append, List.length_singleton, List.drop_append_of_le_length hexcess]
  rfl

/-- Two pushes one after the other keep what one push of both would. -/
theorem push_push_records (archive : Archive) (first second : Record) :
    ((archive.push first).1.push second).1.records =
      (archive.records ++ [first, second]).rtake archive.room := by
  have hroom : (archive.push first).1.room = archive.room := rfl
  rw [push_records_eq, push_records_eq, hroom, rtake_append_rtake, List.append_assoc]
  rfl

/-- Only the steps of the records count for which steps have one. -/
theorem has_iff (archive : Archive) (step : StepId) :
    archive.Has step ↔ step ∈ archive.records.map Record.step :=
  List.mem_map.symm

/-- The steps of the newest records are the newest of their steps. -/
theorem map_rtake {α β : Type} (f : α → β) (count : Nat) (items : List α) :
    (items.rtake count).map f = (items.map f).rtake count := by
  rw [List.rtake, List.rtake, List.map_drop, List.length_map]

/-- An item that is not among the newest ones is there if it is among those before them that stay.
How many of those stay depends only on how many the newest ones are, not on their order. -/
theorem mem_rtake_append_iff {α : Type} {item : α} {newest : List α} (h : item ∉ newest)
    (items : List α) (count : Nat) :
    item ∈ (items ++ newest).rtake count ↔
      item ∈ items.drop (items.length + newest.length - count) := by
  rw [List.rtake, List.length_append, List.drop_append, List.mem_append]
  exact or_iff_left fun hmem => h (List.mem_of_mem_drop hmem)

/-- Where there is room for all the newest items, they all stay, behind the last of the others. -/
theorem rtake_append_of_le {α : Type} (items : List α) {newest : List α} {count : Nat}
    (h : newest.length ≤ count) :
    (items ++ newest).rtake count =
      items.drop (items.length + newest.length - count) ++ newest := by
  have hexcess : items.length + newest.length - count ≤ items.length := by omega
  rw [List.rtake, List.length_append, List.drop_append_of_le_length hexcess]

end Archive

namespace Supervisor

/-- A commit empties the buffer of a step if it evicts the step's last record, and else leaves it.
-/
theorem commit_scriptLogs (s : Supervisor) (invocation : Invocation) (step : StepId) :
    (s.archive.Has step ∧ ¬ (s.commit invocation).1.archive.Has step ∧
      (s.commit invocation).1.scriptLogs step = []) ∨
    ((s.archive.Has step → (s.commit invocation).1.archive.Has step) ∧
      (s.commit invocation).1.scriptLogs step = s.scriptLogs step) := by
  obtain ⟨record, -, harchive, hlogs⟩ := s.archives_commit invocation
  have hevicts := s.archive.mem_evicted_iff record step
  rw [← harchive] at hevicts
  rw [scriptLogs, hlogs, StepLogs.entries_clearAll]
  -- the steps that the push evicts are those whose buffers are dropped
  by_cases hstep : step ∈ (s.archive.push record).2
  · obtain ⟨hhas, hnone⟩ := hevicts.1 hstep
    exact .inl ⟨hhas, hnone, if_pos hstep⟩
  · refine .inr ⟨?_, if_neg hstep⟩
    intro hhas
    by_contra hnone
    exact hstep (hevicts.2 ⟨hhas, hnone⟩)

/-- What two commits leave of the buffer of a step is decided by the archive: the buffer is empty if
one of them takes the step's last record, and else as it was. -/
theorem scriptLogs_two_commits (s : Supervisor) (first second : Invocation) (step : StepId) :
    let middle := (s.commit first).1
    let last := (middle.commit second).1
    (((s.archive.Has step ∧ ¬ middle.archive.Has step) ∨
        (middle.archive.Has step ∧ ¬ last.archive.Has step)) ∧ last.scriptLogs step = []) ∨
      ((s.archive.Has step → middle.archive.Has step) ∧
        (middle.archive.Has step → last.archive.Has step) ∧
        last.scriptLogs step = s.scriptLogs step) := by
  intro middle last
  -- the second commit empties the buffer, or the first one has, or neither does
  rcases middle.commit_scriptLogs second step with ⟨hhas, hnone, hempty⟩ | ⟨hstays, hsame⟩
  · exact .inl ⟨.inr ⟨hhas, hnone⟩, hempty⟩
  · rcases s.commit_scriptLogs first step with ⟨hhas, hnone, hempty⟩ | ⟨hkept, hbefore⟩
    · exact .inl ⟨.inl ⟨hhas, hnone⟩, hsame.trans hempty⟩
    · exact .inr ⟨hkept, hstays, hsame.trans hbefore⟩

/-- If a step has a record after one commit in both orders or in none, and likewise after both
commits, then the orders leave the same logs of it: both empty its buffer, or none does. -/
theorem scriptLogs_eq_of_has_iff {s : Supervisor} {first second : Invocation} {step : StepId}
    (honce : (s.commit first).1.archive.Has step ↔ (s.commit second).1.archive.Has step)
    (htwice : ((s.commit first).1.commit second).1.archive.Has step ↔
      ((s.commit second).1.commit first).1.archive.Has step) :
    ((s.commit first).1.commit second).1.scriptLogs step =
      ((s.commit second).1.commit first).1.scriptLogs step := by
  have hours := s.scriptLogs_two_commits first second step
  have htheirs := s.scriptLogs_two_commits second first step
  simp only [honce, htwice] at hours
  -- a buffer is dropped at an eviction and otherwise only filtered; where the two orders evict
  -- alike, either both drop it or both keep it
  rcases hours with ⟨hevicted, hours⟩ | ⟨hkept, hstays, hours⟩
  · rcases htheirs with ⟨-, htheirs⟩ | ⟨hkept, hstays, -⟩
    · rw [hours, htheirs]
    · -- one order would drop what the other keeps
      rcases hevicted with ⟨hhas, hnone⟩ | ⟨hhas, hnone⟩
      · exact absurd (hkept hhas) hnone
      · exact absurd (hstays hhas) hnone
  · rcases htheirs with ⟨hevicted, -⟩ | ⟨-, -, htheirs⟩
    · rcases hevicted with ⟨hhas, hnone⟩ | ⟨hhas, hnone⟩
      · exact absurd (hkept hhas) hnone
      · exact absurd (hstays hhas) hnone
    · rw [hours, htheirs]

section Swap

variable {first second : Invocation} (hfirst : first.fatal = none) (hsecond : second.fatal = none)
  (s : Supervisor)

include hfirst

/-- The steps that have a record after a commit. -/
theorem commit_steps :
    (s.commit first).1.archive.records.map Record.step =
      (s.archive.records.map Record.step ++ [first.step]).rtake s.archive.room := by
  rw [commit_archive hfirst, Archive.push_records_eq, Archive.map_rtake, List.map_append]
  rfl

/-- Right after its commit a step has a record: there is always room for one. -/
theorem has_of_commit : (s.commit first).1.archive.Has first.step := by
  have hroom : 1 ≤ s.archive.room := Nat.le_max_right ..
  rw [Archive.has_iff, commit_steps hfirst, Archive.rtake_append_of_le _ hroom]
  exact List.mem_append_right _ (List.mem_singleton_self first.step)

include hsecond

/-- Two commits leave the newest of the old records and of their own two. -/
theorem two_commits_archive :
    ((s.commit first).1.commit second).1.archive.records =
      (s.archive.records ++ [committedRecord first, committedRecord second]).rtake
        s.archive.room := by
  rw [commit_archive hsecond, commit_archive hfirst, Archive.push_push_records]

/-- The steps that have a record after two commits. -/
theorem two_commits_steps :
    ((s.commit first).1.commit second).1.archive.records.map Record.step =
      (s.archive.records.map Record.step ++ [first.step, second.step]).rtake s.archive.room := by
  rw [two_commits_archive hfirst hsecond, Archive.map_rtake, List.map_append]
  rfl

/-- **The step that commits first keeps its logs** where there is room for the records of both: its
record is the last or the last but one after each commit, so none of them takes the step's last
record. -/
theorem scriptLogs_first (hroom : 2 ≤ s.archive.room) :
    ((s.commit first).1.commit second).1.scriptLogs first.step = s.scriptLogs first.step := by
  have honce : (s.commit first).1.archive.Has first.step := s.has_of_commit hfirst
  have htwice : ((s.commit first).1.commit second).1.archive.Has first.step := by
    rw [Archive.has_iff, two_commits_steps hfirst hsecond, Archive.rtake_append_of_le _ hroom]
    exact List.mem_append_right _ List.mem_cons_self
  rcases s.scriptLogs_two_commits first second first.step with ⟨hevicted, -⟩ | ⟨-, -, hsame⟩
  · rcases hevicted with ⟨-, hnone⟩ | ⟨-, hnone⟩
    · exact absurd honce hnone
    · exact absurd htwice hnone
  · exact hsame

omit hfirst in
/-- **The step that commits second keeps its logs** if the first commit leaves it a record that it
has: its own commit brings a record of the step, and so cannot take the last one. -/
theorem scriptLogs_second
    (hkept : s.archive.Has second.step → (s.commit first).1.archive.Has second.step) :
    ((s.commit first).1.commit second).1.scriptLogs second.step = s.scriptLogs second.step := by
  have htwice : ((s.commit first).1.commit second).1.archive.Has second.step :=
    (s.commit first).1.has_of_commit hsecond
  rcases s.scriptLogs_two_commits first second second.step with ⟨hevicted, -⟩ | ⟨-, -, hsame⟩
  · rcases hevicted with ⟨hhas, hnone⟩ | ⟨-, hnone⟩
    · exact absurd (hkept hhas) hnone
    · exact absurd htwice hnone
  · exact hsame

/-- **Where there is room for one record only, the logs of the step that commits first are gone**:
the second commit takes its record. -/
theorem scriptLogs_gone (hroom : s.archive.room = 1) (hne : first.step ≠ second.step) :
    ((s.commit first).1.commit second).1.scriptLogs first.step = [] := by
  have honce : (s.commit first).1.archive.Has first.step := s.has_of_commit hfirst
  -- the one record that stays is that of the second commit
  have htwice : ¬ ((s.commit first).1.commit second).1.archive.Has first.step := by
    have hlast : ((s.commit first).1.commit second).1.archive.records.map Record.step =
        (s.archive.records.map Record.step ++ [first.step] ++ [second.step]).rtake 1 := by
      rw [two_commits_steps hfirst hsecond, hroom, List.append_assoc]
      rfl
    rw [Archive.has_iff, hlast, Archive.rtake_append_of_le _ (Nat.le_refl 1),
      List.length_singleton, Nat.add_sub_cancel, List.drop_length, List.nil_append,
      List.mem_singleton]
    exact hne
  rcases s.scriptLogs_two_commits first second first.step with ⟨-, hempty⟩ | ⟨-, hstays, -⟩
  · exact hempty
  · exact absurd (hstays honce) htwice

/-- **The logs of every other step do not depend on the order**, and neither do those of the two
steps if they are one: then the orders push records of the same steps. -/
theorem scriptLogs_swap {step : StepId}
    (h : step ≠ first.step ∧ step ≠ second.step ∨ first.step = second.step) :
    ((s.commit first).1.commit second).1.scriptLogs step =
      ((s.commit second).1.commit first).1.scriptLogs step := by
  rcases h with ⟨hours, htheirs⟩ | hsame
  · -- the newest records are of other steps, and as many of the old ones stay in both orders
    have hnew : step ∉ [first.step, second.step] := by
      rw [List.mem_pair, not_or]
      exact ⟨hours, htheirs⟩
    have hother : step ∉ [second.step, first.step] := by
      rw [List.mem_pair, not_or]
      exact ⟨htheirs, hours⟩
    apply scriptLogs_eq_of_has_iff
    · rw [Archive.has_iff, Archive.has_iff, commit_steps hfirst, commit_steps hsecond,
        Archive.mem_rtake_append_iff (mt List.mem_singleton.1 hours),
        Archive.mem_rtake_append_iff (mt List.mem_singleton.1 htheirs)]
      rfl
    · rw [Archive.has_iff, Archive.has_iff, two_commits_steps hfirst hsecond,
        two_commits_steps hsecond hfirst, Archive.mem_rtake_append_iff hnew,
        Archive.mem_rtake_append_iff hother]
      rfl
  · apply scriptLogs_eq_of_has_iff
    · rw [Archive.has_iff, Archive.has_iff, commit_steps hfirst, commit_steps hsecond, hsame]
    · rw [Archive.has_iff, Archive.has_iff, two_commits_steps hfirst hsecond,
        two_commits_steps hsecond hfirst, hsame]

end Swap

/-! ## Two commits in either order

The supervisor's view of two commits: what each answers, what is announced, and that no invocation
can tell the orders apart which observed no later version than that of the start.
-/

section Commit

variable {invocation : Invocation} (htidy : invocation.store.Tidy) (h : invocation.fatal = none)
  (s : Supervisor)

include h

/-- What a commit without a fatal error leaves of the table. -/
theorem commit_publishedTo : (s.commit invocation).1.table = invocation.publishedTo s.table :=
  commit_table h s

include htidy

theorem commit_publication : (s.commit invocation).2 = .ok (invocation.publication s.table) :=
  commit_of_not_fatal htidy h s

/-- The published names grow by the outputs, in the order in which they were first published. -/
theorem commit_names {mentioned : List String} (hnames : s.table.names = mentioned.eraseDups) :
    (s.commit invocation).1.table.names = (mentioned ++ invocation.outputs.keys).eraseDups := by
  have hended := (s.ended_commit htidy).names mentioned hnames
  rwa [commit_publication htidy h] at hended

/-- The overrides are announced, one event each, and then the commit. -/
theorem commit_announces :
    (s.commit invocation).1.events =
      s.events ++ ((invocation.conflicts s.table).map (Conflict.event invocation.step) ++
        [.committed invocation.step invocation.outputs.keys (s.table.version + 1)]) := by
  have hconflicts := Table.publish_conflicts
    (fun name cell hcell => (htidy.outputs name cell hcell).1)
    s.table invocation.step invocation.observed
  have hkeys : invocation.outputs.keys = invocation.store.outputs.keys := by simp
  rw [commit_events h, hconflicts, ← hkeys]
  rfl

end Commit

section Disjoint

variable {first second : Invocation} (htidy : first.store.Tidy) (hother : second.store.Tidy)
  (hfirst : first.fatal = none) (hsecond : second.fatal = none) (s : Supervisor)

include htidy hother hfirst hsecond

/-- The names first published by two commits stand in the order of the commits. -/
theorem two_commits_names :
    ((s.commit first).1.commit second).1.table.names =
      (s.table.names ++ first.outputs.keys ++ second.outputs.keys).eraseDups := by
  have hnames : s.table.names = s.table.names.eraseDups :=
    (eraseDups_of_nodup s.table.cells.nodup).symm
  exact commit_names hother hsecond _ (commit_names htidy hfirst s hnames)

variable (h : first.DisjointOutputs second)

include h

/-- The second commit answers what it would have answered as the first, but for its version. -/
theorem two_commits_publication :
    ((s.commit first).1.commit second).2 =
      .ok { second.publication s.table with tableVersion := s.table.version + 2 } := by
  rw [commit_publication hother hsecond, commit_publishedTo hfirst,
    Invocation.publication_publishedTo htidy h]

/-- The events of two commits: the second meets the conflicts that it would have met as the first.
-/
theorem two_commits_events :
    ((s.commit first).1.commit second).1.events =
      s.events ++ ((first.conflicts s.table).map (Conflict.event first.step) ++
        [.committed first.step first.outputs.keys (s.table.version + 1)]) ++
      ((second.conflicts s.table).map (Conflict.event second.step) ++
        [.committed second.step second.outputs.keys (s.table.version + 2)]) := by
  rw [commit_announces hother hsecond, commit_announces htidy hfirst, commit_publishedTo hfirst,
    Invocation.conflicts_publishedTo htidy h]
  rfl

/-- The supervisors that the two orders leave differ, for all that an invocation can see, in stamps
from behind the version of the start. -/
theorem restamped_swap :
    ((s.commit first).1.commit second).1.Restamped s.table.version (s.table.version + 2)
      ((s.commit second).1.commit first).1 := by
  refine ⟨?_, ?_, ?_⟩
  · rw [(follows_commit ..).config, (follows_commit ..).config, (follows_commit ..).config,
      (follows_commit ..).config]
  · rw [commit_clock, commit_clock, commit_clock, commit_clock]
  · rw [commit_publishedTo hsecond, commit_publishedTo hfirst, commit_publishedTo hfirst,
      commit_publishedTo hsecond]
    exact Table.restamped_swap htidy hother h s.table

end Disjoint

/-- What is left of a cancelled script works on the invocation that was begun. -/
theorem continues_executeAsync (s : Supervisor) (request : StepRequest) (script : Script)
    (cancellation : Cancellation) {running : Running}
    (h : running ∈ (s.executeAsync request script cancellation).2.detached.toList) :
    (s.begin request).2.Continues running.invocation := by
  cases cancellation with
  -- a script that was not cancelled, or not started, leaves nothing behind
  | never => cases h
  | beforeStart => cases h
  | afterCalls calls =>
    have hstarted := (Invocation.continues_markRunning (s.begin request).2).trans
      (continues_advance calls (s.begin request).1 ⟨(s.begin request).2.markRunning, script, []⟩)
    simp only [executeAsync] at h
    split at h
    · next ran left hadvance =>
      rw [hadvance] at hstarted
      rw [List.mem_singleton.1 h]
      exact hstarted
    · cases h

end Supervisor

namespace Session

/-! ## What has been observed in a run

No version is known before it is there. This bounds what any open invocation and any detached script
can compare with.
-/

/-- A detached script was there before, perhaps some calls earlier, or it was begun just now. -/
theorem act_detached {session : Session} {action : Action} {running : Running}
    (h : running ∈ (session.act action).1.detached) :
    (∃ before ∈ session.detached, before.invocation.Continues running.invocation) ∨
      running.invocation.observed = session.supervisor.table.version := by
  have hstayed (hmem : running ∈ session.detached) :
      ∃ before ∈ session.detached, before.invocation.Continues running.invocation :=
    ⟨running, hmem, .refl running.invocation⟩
  cases action with
  | begin | log => exact .inl (hstayed h)
  | set label | setOutput label | commit label | fail label =>
    simp only [act] at h
    split at h <;> exact .inl (hstayed h)
  | execute request script =>
    exact .inl (hstayed (List.append_nil session.detached ▸ h))
  | executeAsync request script cancellation =>
    rcases List.mem_append.1 h with hold | hnew
    · exact .inl (hstayed hold)
    · have hbegun := session.supervisor.continues_executeAsync request script cancellation hnew
      exact .inr hbegun.observed
  | resume index =>
    simp only [act] at h
    split at h
    · exact .inl (hstayed h)
    · next before hbefore =>
      split at h
      · exact .inl (hstayed h)
      · next supervisor after hnext =>
        -- the script that went on took the place of what it was a call earlier
        rcases List.mem_or_eq_of_mem_set h with hold | rfl
        · exact .inl (hstayed hold)
        · obtain ⟨call, -, hcalled, -⟩ := Supervisor.next?_eq_some hnext
          refine .inl ⟨before, List.mem_of_getElem? hbefore, ?_⟩
          rw [hcalled]
          exact Supervisor.continues_perform ..
  | finish index =>
    simp only [act] at h
    split at h
    · exact .inl (hstayed h)
    · exact .inl (hstayed (List.mem_of_mem_eraseIdx h))

/-- **No version is observed before it is there.** An open invocation observed the version at which
it began, and the version only grows. A detached script was begun by some action of the run: the
proof goes back from the last action to that one. -/
theorem observed_le_version {session : Session} (hempty : session.live = ∅)
    (hnone : session.detached = []) (actions : List Action) :
    (∀ label invocation, (session.run actions).live.get? label = some invocation →
      invocation.observed ≤ (session.run actions).supervisor.table.version) ∧
    (∀ running ∈ (session.run actions).detached,
      running.invocation.observed ≤ (session.run actions).supervisor.table.version) := by
  constructor
  · intro label invocation hlive
    obtain ⟨request, start, hopened⟩ := opened_of_live hempty hlive
    have hversion := version_mono hempty actions (Nat.le_of_lt hopened.since.lt_length)
    rw [List.take_length] at hversion
    rw [hopened.observed]
    exact hversion
  · induction actions using List.reverseRecOn with
    | nil =>
      intro running hrunning
      rw [run, List.foldl_nil, hnone] at hrunning
      cases hrunning
    | append_singleton actions action ih =>
      intro running hrunning
      -- what was observed before the last action is still within the version after it
      have hversion := version_le_of_publishes (run_act_publishes hempty actions action)
      rw [run_concat] at hrunning ⊢
      rcases act_detached hrunning with ⟨before, hbefore, hcontinues⟩ | hobserved
      · rw [hcontinues.observed]
        exact Nat.le_trans (ih before hbefore) hversion
      · rw [hobserved]
        exact hversion

/-! ## Two commits in a run

The pieces are put together for a session. `CommitInTurn` says what one order does, and
`CommitsCommute` compares two; each field has its own short proof from the former.
-/

/-- Two commits in a run are two commits of the supervisor, as the second invocation is still open
after the first commit. -/
theorem run_two_commits {session : Session} {a b : String} {first second : Invocation}
    (hfirst : session.live.get? a = some first) (hsecond : session.live.get? b = some second)
    (hne : a ≠ b) :
    session.run [.commit a, .commit b] =
      { session with
        supervisor := ((session.supervisor.commit first).1.commit second).1
        live := (session.live.erase a).erase b } ∧
    session.turns [.commit a, .commit b] =
      [⟨.commit a, .ended (session.supervisor.commit first).2⟩,
        ⟨.commit b, .ended ((session.supervisor.commit first).1.commit second).2⟩] := by
  have hstill : (session.live.erase a).get? b = some second := by
    rw [OrderedMap.get?_erase, if_neg hne, hsecond]
  constructor
  · simp only [run, List.foldl_cons, List.foldl_nil, act, hfirst, hstill]
  · simp only [turns, act, hfirst, hstill]

/-- Which label is closed first makes no difference to what stays open. -/
theorem erase_comm {α : Type} (m : OrderedMap α) (first second : String) :
    (m.erase first).erase second = (m.erase second).erase first := by
  apply OrderedMap.ext
  show (m.entries.filter fun pair => pair.1 != first).filter (fun pair => pair.1 != second) =
    (m.entries.filter fun pair => pair.1 != second).filter fun pair => pair.1 != first
  rw [List.filter_filter, List.filter_filter]
  congr 1
  funext pair
  exact Bool.and_comm ..

/-- What one commit after the other answers and leaves, where neither meets what the other
publishes. -/
structure CommitInTurn (session : Session) (a b : String) (first second : Invocation) : Prop where
  turns : session.turns [.commit a, .commit b] =
    [⟨.commit a, .ended (.ok (first.publication session.supervisor.table))⟩,
      ⟨.commit b, .ended (.ok { second.publication session.supervisor.table with
        tableVersion := session.supervisor.table.version + 2 })⟩]
  version : (session.run [.commit a, .commit b]).supervisor.table.version =
    session.supervisor.table.version + 2
  names : (session.run [.commit a, .commit b]).supervisor.table.names =
    (session.supervisor.table.names ++ first.outputs.keys ++ second.outputs.keys).eraseDups
  events : (session.run [.commit a, .commit b]).supervisor.events = session.supervisor.events ++
    ((first.conflicts session.supervisor.table).map (Conflict.event first.step) ++
      [.committed first.step first.outputs.keys (session.supervisor.table.version + 1)]) ++
    ((second.conflicts session.supervisor.table).map (Conflict.event second.step) ++
      [.committed second.step second.outputs.keys (session.supervisor.table.version + 2)])
  records : (session.run [.commit a, .commit b]).supervisor.archive.records =
    (session.supervisor.archive.records ++
      [Supervisor.committedRecord first, Supervisor.committedRecord second]).rtake
        session.supervisor.archive.room
  live : (session.run [.commit a, .commit b]).live = (session.live.erase a).erase b
  detached : (session.run [.commit a, .commit b]).detached = session.detached
  firstLogs : 2 ≤ session.supervisor.archive.room →
    (session.run [.commit a, .commit b]).supervisor.scriptLogs first.step =
      session.supervisor.scriptLogs first.step
  secondLogs : ¬ session.Evicts (.commit a) second.step →
    (session.run [.commit a, .commit b]).supervisor.scriptLogs second.step =
      session.supervisor.scriptLogs second.step
  noLogs : session.supervisor.archive.room = 1 → first.step ≠ second.step →
    (session.run [.commit a, .commit b]).supervisor.scriptLogs first.step = []

/-- A commit evicts a step that has a record before it and none after it. -/
theorem evicts_commit_iff {session : Session} {a : String} {invocation : Invocation}
    (h : session.live.get? a = some invocation) (step : StepId) :
    session.Evicts (.commit a) step ↔
      session.supervisor.archive.Has step ∧
        ¬ (session.supervisor.commit invocation).1.archive.Has step := by
  simp only [Evicts, act, h]

/-- Every field is what the supervisor does in two commits. -/
theorem commitInTurn {session : Session} {a b : String} {first second : Invocation}
    (hfirst : session.live.get? a = some first) (hsecond : session.live.get? b = some second)
    (hne : a ≠ b) (htidy : first.store.Tidy) (htidied : second.store.Tidy)
    (hours : first.fatal = none) (htheirs : second.fatal = none)
    (hdisjoint : first.DisjointOutputs second) : session.CommitInTurn a b first second := by
  -- two actions of the session are two commits of the supervisor
  obtain ⟨hrun, hturns⟩ := run_two_commits hfirst hsecond hne
  constructor
  · rw [hturns, Supervisor.commit_publication htidy hours,
      Supervisor.two_commits_publication htidy htidied hours htheirs session.supervisor hdisjoint]
  · rw [hrun]
    show ((session.supervisor.commit first).1.commit second).1.table.version = _
    rw [Supervisor.commit_publishedTo htheirs, Supervisor.commit_publishedTo hours]
    rfl
  · rw [hrun]
    exact Supervisor.two_commits_names htidy htidied hours htheirs session.supervisor
  · rw [hrun]
    exact Supervisor.two_commits_events htidy htidied hours htheirs session.supervisor hdisjoint
  · rw [hrun]
    exact Supervisor.two_commits_archive hours htheirs session.supervisor
  · rw [hrun]
  · rw [hrun]
  · intro hroom
    rw [hrun]
    exact Supervisor.scriptLogs_first hours htheirs session.supervisor hroom
  · intro hnot
    rw [hrun]
    refine Supervisor.scriptLogs_second htheirs session.supervisor ?_
    intro hhas
    -- losing the last record is being evicted
    by_contra hnone
    exact hnot ((evicts_commit_iff hfirst second.step).2 ⟨hhas, hnone⟩)
  · intro hroom hsteps
    rw [hrun]
    exact Supervisor.scriptLogs_gone hours htheirs session.supervisor hroom hsteps

/-- Either order leads to sessions that nothing tells apart: what is open, or detached, observed no
later version than that of the start, so it sees the stamps of both commits as new. -/
theorem restamped_two_commits {session : Session} {a b : String} {first second : Invocation}
    (hfirst : session.live.get? a = some first) (hsecond : session.live.get? b = some second)
    (hne : a ≠ b) (htidy : first.store.Tidy) (htidied : second.store.Tidy)
    (hours : first.fatal = none) (htheirs : second.fatal = none)
    (hdisjoint : first.DisjointOutputs second)
    (hobserved : ∀ label invocation, session.live.get? label = some invocation →
      invocation.observed ≤ session.supervisor.table.version)
    (horphaned : ∀ running ∈ session.detached,
      running.invocation.observed ≤ session.supervisor.table.version) :
    (Simulation.restamped session.supervisor.table.version
      (session.supervisor.table.version + 2)).Sessions
      (session.run [.commit a, .commit b]) (session.run [.commit b, .commit a]) := by
  rw [(run_two_commits hfirst hsecond hne).1, (run_two_commits hsecond hfirst hne.symm).1]
  refine restamped_sessions ?_ (erase_comm session.live a b) rfl ?_ ?_
  · exact Supervisor.restamped_swap htidy htidied hours htheirs session.supervisor hdisjoint
  · intro label invocation hlive
    exact .inl (hobserved label invocation (live_of_erase (live_of_erase hlive)))
  · intro running hrunning
    exact .inl (horphaned running hrunning)

/-- What two sessions have in common, and what tells them apart, that one session comes to by the
commits of two invocations, in one order and in the other. -/
structure CommitsCommute (before : Session) (a b : String) (first second : Invocation)
    (ab ba : Session) : Prop where
  /-- Both commits succeed in either order. Each answers the same step, values and ambiguities; only
  the version is that of the first or of the second commit. -/
  results : ∃ ours theirs : Publication,
    ours.tableVersion = before.supervisor.table.version + 1 ∧
    theirs.tableVersion = before.supervisor.table.version + 1 ∧
    before.turns [.commit a, .commit b] =
      [⟨.commit a, .ended (.ok ours)⟩,
        ⟨.commit b, .ended
          (.ok { theirs with tableVersion := before.supervisor.table.version + 2 })⟩] ∧
    before.turns [.commit b, .commit a] =
      [⟨.commit b, .ended (.ok theirs)⟩,
        ⟨.commit a, .ended
          (.ok { ours with tableVersion := before.supervisor.table.version + 2 })⟩]
  /-- The table is at the same version. -/
  version : ab.supervisor.table.version = before.supervisor.table.version + 2 ∧
    ba.supervisor.table.version = before.supervisor.table.version + 2
  /-- Every name has the same published cell. -/
  cells : ∀ name, ab.supervisor.table.cell? name = ba.supervisor.table.cell? name
  /-- The same names are published. -/
  published : ∀ name, name ∈ ab.supervisor.table.names ↔ name ∈ ba.supervisor.table.names
  /-- Those that the two commits are the first to publish stand in the order of the commits. -/
  names :
    ab.supervisor.table.names = (before.supervisor.table.names ++ first.outputs.keys ++
      second.outputs.keys).eraseDups ∧
    ba.supervisor.table.names = (before.supervisor.table.names ++ second.outputs.keys ++
      first.outputs.keys).eraseDups
  /-- Whatever is done afterwards is answered the same. So every invocation, open at that moment or
  begun later, reports the same ambiguities whenever it commits, and every name goes on to have the
  same cell. -/
  later : ∀ later, ab.turns later = ba.turns later ∧
    ∀ name, (ab.run later).supervisor.table.cell? name =
      (ba.run later).supervisor.table.cell? name
  /-- The open invocations, the detached scripts and the clock are the same. -/
  rest : ab.live = ba.live ∧ ab.detached = ba.detached ∧
    ab.supervisor.clock = ba.supervisor.clock
  /-- The events of the two commits are the same but for their versions, in the order of the
  commits. -/
  events : ∃ ours theirs : List Conflict,
    ab.supervisor.events = before.supervisor.events ++
      (ours.map (Conflict.event first.step) ++
        [.committed first.step first.outputs.keys (before.supervisor.table.version + 1)]) ++
      (theirs.map (Conflict.event second.step) ++
        [.committed second.step second.outputs.keys (before.supervisor.table.version + 2)]) ∧
    ba.supervisor.events = before.supervisor.events ++
      (theirs.map (Conflict.event second.step) ++
        [.committed second.step second.outputs.keys (before.supervisor.table.version + 1)]) ++
      (ours.map (Conflict.event first.step) ++
        [.committed first.step first.outputs.keys (before.supervisor.table.version + 2)])
  /-- The archive keeps the newest of the old records and the two new ones, in the order of the
  commits. -/
  records :
    ab.supervisor.archive.records = (before.supervisor.archive.records ++
      [Supervisor.committedRecord first, Supervisor.committedRecord second]).rtake
        before.supervisor.archive.room ∧
    ba.supervisor.archive.records = (before.supervisor.archive.records ++
      [Supervisor.committedRecord second, Supervisor.committedRecord first]).rtake
        before.supervisor.archive.room
  /-- With room for two records these are the same ones, so the orders evict the same. -/
  kept : 2 ≤ before.supervisor.archive.room →
    ab.supervisor.archive.records.Perm ba.supervisor.archive.records
  /-- The logs of every other step are the same, and those of the two steps as well if they are one.
  -/
  otherLogs : ∀ step, step ≠ first.step ∧ step ≠ second.step ∨ first.step = second.step →
    ab.supervisor.scriptLogs step = ba.supervisor.scriptLogs step
  /-- With room for two records the logs of the one step are the same, unless the commit of the
  other, coming first, pushes out the step's last record. -/
  firstLogs : 2 ≤ before.supervisor.archive.room → ¬ before.Evicts (.commit b) first.step →
    ab.supervisor.scriptLogs first.step = ba.supervisor.scriptLogs first.step
  /-- And so are the logs of the other step. -/
  secondLogs : 2 ≤ before.supervisor.archive.room → ¬ before.Evicts (.commit a) second.step →
    ab.supervisor.scriptLogs second.step = ba.supervisor.scriptLogs second.step
  /-- With room for one record only, the record of the commit that comes first is gone, and the logs
  of its step are gone with it. -/
  noLogs : before.supervisor.archive.room = 1 → first.step ≠ second.step →
    ab.supervisor.scriptLogs first.step = [] ∧ ba.supervisor.scriptLogs second.step = []

section CommitsCommute

variable {before : Session} {a b : String} {first second : Invocation}
  (hab : before.CommitInTurn a b first second) (hba : before.CommitInTurn b a second first)

include hab hba

/-- The names are the old ones and those of both commits, whatever their order. -/
theorem CommitInTurn.published_swap (name : String) :
    name ∈ (before.run [.commit a, .commit b]).supervisor.table.names ↔
      name ∈ (before.run [.commit b, .commit a]).supervisor.table.names := by
  rw [hab.names, hba.names, List.mem_eraseDups, List.mem_eraseDups, List.append_assoc,
    List.append_assoc, List.mem_append, List.mem_append, List.mem_append, List.mem_append,
    or_comm (a := name ∈ first.outputs.keys)]

/-- With room for two records, both new ones stay in either order, behind the same old ones. -/
theorem CommitInTurn.records_perm (hroom : 2 ≤ before.supervisor.archive.room) :
    (before.run [.commit a, .commit b]).supervisor.archive.records.Perm
      (before.run [.commit b, .commit a]).supervisor.archive.records := by
  rw [hab.records, hba.records, Archive.rtake_append_of_le _ hroom,
    Archive.rtake_append_of_le _ hroom]
  exact (List.Perm.swap _ _ []).append_left _

/-- With room for two records neither commit takes the logs of its own step, so they can differ only
by what the other commit does when it comes first. -/
theorem CommitInTurn.firstLogs_swap (hroom : 2 ≤ before.supervisor.archive.room)
    (hnot : ¬ before.Evicts (.commit b) first.step) :
    (before.run [.commit a, .commit b]).supervisor.scriptLogs first.step =
      (before.run [.commit b, .commit a]).supervisor.scriptLogs first.step :=
  (hab.firstLogs hroom).trans (hba.secondLogs hnot).symm

end CommitsCommute

/-- **Commits of disjoint outputs commute.** In every state that a run reaches, take two open
invocations without a fatal error that have written no output in common. Whichever of them commits
first, the results, the table and everything that is done afterwards are the same, but for the
versions that the two commits are given, the order of what is told and kept of them and, where the
archive has room for one record, which record that is (`CommitsCommute`). -/
theorem commits_commute (config : Config) (outlet : LogOutlet) (actions : List Action)
    {a b : String} {first second : Invocation}
    (hfirst : ((new config outlet).run actions).live.get? a = some first)
    (hsecond : ((new config outlet).run actions).live.get? b = some second) (hne : a ≠ b)
    (hours : first.fatal = none) (htheirs : second.fatal = none)
    (hdisjoint : ∀ name ∈ first.outputs.keys, name ∉ second.outputs.keys) :
    ((new config outlet).run actions).CommitsCommute a b first second
      (((new config outlet).run actions).run [.commit a, .commit b])
      (((new config outlet).run actions).run [.commit b, .commit a]) := by
  obtain ⟨_, _, hopened⟩ := opened_of_live rfl hfirst
  obtain ⟨_, _, hother⟩ := opened_of_live rfl hsecond
  have htidy := hopened.reflects.tidy
  have htidied := hother.reflects.tidy
  obtain ⟨hobserved, horphaned⟩ := @observed_le_version (new config outlet) rfl rfl actions
  -- each order on its own
  have hab := commitInTurn hfirst hsecond hne htidy htidied hours htheirs hdisjoint
  have hba := commitInTurn hsecond hfirst hne.symm htidied htidy htheirs hours
    (Invocation.DisjointOutputs.symm hdisjoint)
  -- and the two against each other: they differ in stamps that nothing has observed
  have hsame := restamped_two_commits hfirst hsecond hne htidy htidied hours htheirs hdisjoint
    hobserved horphaned
  constructor
  case results => exact ⟨_, _, rfl, rfl, hab.turns, hba.turns⟩
  case version => exact ⟨hab.version, hba.version⟩
  case cells => exact hsame.supervisor.table.cell?
  case published => exact hab.published_swap hba
  case names => exact ⟨hab.names, hba.names⟩
  case later =>
    intro later
    obtain ⟨hlater, hturns⟩ := restamped_run hsame later
    exact ⟨hturns, hlater.supervisor.table.cell?⟩
  case rest =>
    refine ⟨?_, ?_, hsame.supervisor.clock⟩
    · rw [hab.live, hba.live, erase_comm]
    · rw [hab.detached, hba.detached]
  case events => exact ⟨_, _, hab.events, hba.events⟩
  case records => exact ⟨hab.records, hba.records⟩
  case kept => exact hab.records_perm hba
  case otherLogs =>
    intro step hstep
    rw [(run_two_commits hfirst hsecond hne).1, (run_two_commits hsecond hfirst hne.symm).1]
    exact Supervisor.scriptLogs_swap hours htheirs _ hstep
  case firstLogs => exact hab.firstLogs_swap hba
  case secondLogs =>
    intro hroom hnot
    exact (hba.firstLogs_swap hab hroom hnot).symm
  case noLogs =>
    intro hroom hsteps
    exact ⟨hab.noLogs hroom hsteps, hba.noLogs hroom hsteps.symm⟩

/-- Three invocations are open. Those of the steps `a` and `c` have written the same name. -/
def crossing : List Action :=
  [.begin "a1" { step := ⟨"a"⟩ }, .begin "b1" { step := ⟨"b"⟩ }, .begin "c1" { step := ⟨"c"⟩ },
    .setOutput "a1" "x" (.int 1), .setOutput "b1" "y" (.int 2), .setOutput "c1" "x" (.int 3)]

/-- Whether `a1` commits before `b1` or after it, `c1` then overrides its output and says so. -/
theorem commits_commute_crossing :
    ∃ first second : Invocation,
      ((new {} .trace).run crossing).live.get? "a1" = some first ∧
      ((new {} .trace).run crossing).live.get? "b1" = some second ∧
      first.fatal = none ∧ second.fatal = none ∧
      (∀ name ∈ first.outputs.keys, name ∉ second.outputs.keys) ∧
      ∀ order ∈ [["a1", "b1"], ["b1", "a1"]], ∃ last : Publication,
        (((new {} .trace).run crossing).run (order.map .commit)).turns [.commit "c1"] =
          [⟨.commit "c1", .ended (.ok last)⟩] ∧
        last.ambiguities = [.ambiguity "x" ⟨"c"⟩ ⟨"a"⟩] := by
  obtain ⟨first, second, hfirst, hsecond, hours, htheirs, hdisjoint⟩ :
      ∃ first second : Invocation,
        ((new {} .trace).run crossing).live.get? "a1" = some first ∧
        ((new {} .trace).run crossing).live.get? "b1" = some second ∧
        first.fatal = none ∧ second.fatal = none ∧
        ∀ name ∈ first.outputs.keys, name ∉ second.outputs.keys :=
    ⟨_, _, rfl, rfl, rfl, rfl, by decide⟩
  -- whatever comes later is answered alike, so it is enough to run one order
  have hlater :=
    (commits_commute {} .trace crossing hfirst hsecond (by decide) hours htheirs hdisjoint).later
  obtain ⟨last, hlast, hoverrides⟩ : ∃ last : Publication,
      (((new {} .trace).run crossing).run [.commit "a1", .commit "b1"]).turns [.commit "c1"] =
        [⟨.commit "c1", .ended (.ok last)⟩] ∧
      last.ambiguities = [.ambiguity "x" ⟨"c"⟩ ⟨"a"⟩] := ⟨_, rfl, rfl⟩
  refine ⟨first, second, hfirst, hsecond, hours, htheirs, hdisjoint, ?_⟩
  intro order horder
  rcases List.mem_pair.1 horder with rfl | rfl
  · exact ⟨last, hlast, hoverrides⟩
  · exact ⟨last, (hlater [.commit "c1"]).1 ▸ hlast, hoverrides⟩

/-- Two invocations are open, and the step of one has logged. -/
def speaking : List Action :=
  [.begin "a1" { step := ⟨"a"⟩ }, .begin "b1" { step := ⟨"b"⟩ }, .log ⟨"a"⟩ .info "hello"]

/-- More than versions and orders can differ: where the archive has room for one record, the second
commit takes the record of the first, and the logs of its step with it. -/
theorem not_only_orders_differ :
    ¬ ∀ (config : Config) (outlet : LogOutlet) (actions : List Action) (a b : String)
      (first second : Invocation),
      ((new config outlet).run actions).live.get? a = some first →
      ((new config outlet).run actions).live.get? b = some second → a ≠ b →
      first.fatal = none → second.fatal = none →
      (∀ name ∈ first.outputs.keys, name ∉ second.outputs.keys) →
      let ab := ((new config outlet).run actions).run [.commit a, .commit b]
      let ba := ((new config outlet).run actions).run [.commit b, .commit a]
      ab.supervisor.archive.records.Perm ba.supervisor.archive.records ∧
        ∀ step, ab.supervisor.scriptLogs step = ba.supervisor.scriptLogs step := by
  intro hall
  obtain ⟨-, hlogs⟩ := hall { archiveCapacity := 1 } .trace speaking "a1" "b1" _ _ rfl rfl
    (by decide) rfl rfl (by decide)
  -- both orders are run; in one of them the entry is gone
  have hgone : ((forgetful.run speaking).run [.commit "a1", .commit "b1"]).supervisor.scriptLogs
      ⟨"a"⟩ = [] := rfl
  have hkept : ((forgetful.run speaking).run [.commit "b1", .commit "a1"]).supervisor.scriptLogs
      ⟨"a"⟩ = [⟨⟨"a"⟩, .info, "hello"⟩] := rfl
  exact absurd (hgone.symm.trans ((hlogs ⟨"a"⟩).trans hkept)) (by decide)

end Session

end StepRelay
