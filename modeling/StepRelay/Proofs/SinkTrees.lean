import Mathlib.Data.List.Nodup
import StepRelay.Log.Sink
import StepRelay.Proofs.ScriptLogs

/-!
# Delivery through trees of sinks

A buffer may stand in a tree of sinks any number of times, at any depth. `Sink.paths` lists the
paths that lead to it (`mem_paths_iff`, `nodup_paths`), and one entry that is handed to the root
comes to the buffer once along each of them (`buffers_record`). What has come to a buffer, entries
and clearings in their order, is its list of receipts, and a run leaves each buffer as its own
receipts alone would (`buffers_after`). Of receipts a buffer keeps the newest entries of each step
since the step was last cleared (`entries_receiveAll`).
-/

namespace StepRelay

/-! ## Paths

A path is the list of indices at which one goes on to a part. The parts of a tree are numbered from
an index on, since the induction over them starts with the second part where the first was.
-/

namespace Sink

/-- The part of a sink at an index. -/
def part? : Sink → Nat → Option Sink
  | fanout parts, index => parts[index]?
  | _, _ => none

/-- What stands at the end of a path from a sink through its parts. -/
def at? (sink : Sink) : List Nat → Option Sink
  | [] => some sink
  | index :: rest => (sink.part? index).bind fun part => part.at? rest

mutual

/-- The paths from a sink to the places of a buffer, in the order in which the parts are served. -/
def paths (slot : Nat) : Sink → List (List Nat)
  | buffer other => if other = slot then [[]] else []
  | listener _ => []
  | fanout parts => pathsFrom slot 0 parts

/-- The paths through the parts from `index` on. -/
def pathsFrom (slot index : Nat) : List Sink → List (List Nat)
  | [] => []
  | part :: rest => (part.paths slot).map (index :: ·) ++ pathsFrom slot (index + 1) rest

end

mutual

/-- The paths lead to the buffer, and no others do. -/
theorem mem_paths_iff (slot : Nat) : ∀ (sink : Sink) (path : List Nat),
    path ∈ sink.paths slot ↔ sink.at? path = some (buffer slot)
  | buffer other, path => by
    rw [paths]
    cases path with
    -- the buffer itself, if it is the one that is asked for
    | nil => by_cases h : other = slot <;> simp [at?, h]
    | cons index rest => by_cases h : other = slot <;> simp [at?, part?, h]
  | listener label, path => by
    cases path <;> simp [paths, at?, part?]
  | fanout parts, path => by
    rw [paths, mem_pathsFrom_iff slot 0 parts path]
    cases path with
    | nil => simp [at?]
    | cons index rest => simp [at?, part?, Option.bind_eq_some_iff]

/-- A path through some of the parts begins with the index of one of them. -/
theorem mem_pathsFrom_iff (slot index : Nat) : ∀ (parts : List Sink) (path : List Nat),
    path ∈ pathsFrom slot index parts ↔ ∃ i rest part, path = (index + i) :: rest ∧
      parts[i]? = some part ∧ part.at? rest = some (buffer slot)
  | [], path => by simp [pathsFrom]
  | first :: others, path => by
    rw [pathsFrom, List.mem_append, List.mem_map, mem_pathsFrom_iff slot (index + 1) others path]
    constructor
    · -- through the first part, or through a later one
      rintro (⟨rest, hrest, rfl⟩ | ⟨i, rest, part, rfl, hpart, hat⟩)
      · exact ⟨0, rest, first, rfl, rfl, (mem_paths_iff slot first rest).1 hrest⟩
      · exact ⟨i + 1, rest, part, by rw [Nat.add_assoc, Nat.add_comm 1 i], hpart, hat⟩
    · rintro ⟨i, rest, part, rfl, hpart, hat⟩
      cases i with
      | zero =>
        rw [← Option.some.inj hpart] at hat
        exact .inl ⟨rest, (mem_paths_iff slot first rest).2 hat, rfl⟩
      | succ i =>
        exact .inr ⟨i, rest, part, by rw [Nat.add_assoc, Nat.add_comm 1 i], hpart, hat⟩

end

mutual

theorem nodup_paths (slot : Nat) : ∀ sink : Sink, (sink.paths slot).Nodup
  | buffer other => by
    rw [paths]
    split <;> simp
  | listener _ => List.nodup_nil
  | fanout parts => nodup_pathsFrom slot 0 parts

theorem nodup_pathsFrom (slot index : Nat) :
    ∀ parts : List Sink, (pathsFrom slot index parts).Nodup
  | [] => List.nodup_nil
  | first :: others => by
    rw [pathsFrom, List.nodup_append]
    refine ⟨List.Nodup.map List.cons_injective (nodup_paths slot first),
      nodup_pathsFrom slot _ others, ?_⟩
    -- paths through different parts begin differently
    rintro path hfirst other hother rfl
    obtain ⟨rest, -, rfl⟩ := List.mem_map.1 hfirst
    obtain ⟨i, _, _, hpath, -⟩ := (mem_pathsFrom_iff slot (index + 1) others _).1 hother
    have hindex : index = index + 1 + i := (List.cons.inj hpath).1
    omega

end

end Sink

/-! ## What comes to a buffer

A buffer is known by its receipts: entries, and clearings of single steps. Whatever was done to it
by way of the tree, only their order counts.
-/

/-- One thing that comes to a buffer. -/
inductive Receipt where
  | entry (logged : LogEntry)
  | cleared (step : StepId)
  deriving DecidableEq

/-- The entry, if it is one of the step. -/
def Receipt.entryOf? (step : StepId) : Receipt → Option LogEntry
  | entry logged => if logged.step = step then some logged else none
  | cleared _ => none

/-- The entries of a step that came since the step was last cleared. -/
def sinceCleared (step : StepId) (receipts : List Receipt) : List LogEntry :=
  (receipts.rtakeWhile fun receipt => receipt ≠ .cleared step).filterMap (·.entryOf? step)

namespace StepLogs

/-- What a receipt does to a buffer. -/
def receive (logs : StepLogs) : Receipt → StepLogs
  | .entry entry => logs.record entry
  | .cleared step => logs.clear step

/-- What several receipts do, in order. -/
def receiveAll (logs : StepLogs) (receipts : List Receipt) : StepLogs := receipts.foldl receive logs

theorem Sound.receive {logs : StepLogs} (h : logs.Sound) (receipt : Receipt) :
    (logs.receive receipt).Sound := by
  cases receipt with
  | entry entry => exact (h.record entry).1
  | cleared step => exact h.clear step

theorem capacity_receive (logs : StepLogs) (receipt : Receipt) :
    (logs.receive receipt).capacity = logs.capacity := by
  cases receipt <;> rfl

/-- One more receipt: an entry is put behind the others of its step, a clearing takes all of its
step. -/
theorem sinceCleared_concat (step : StepId) (receipts : List Receipt) (receipt : Receipt) :
    sinceCleared step (receipts ++ [receipt]) =
      if receipt = .cleared step then []
      else sinceCleared step receipts ++ (receipt.entryOf? step).toList := by
  rw [sinceCleared, List.rtakeWhile_concat]
  by_cases h : receipt = .cleared step
  · simp [h]
  · cases hentry : receipt.entryOf? step <;> simp [h, hentry, sinceCleared]

/-- **One receipt more**: an entry joins the newest of its step, a clearing leaves none of its
own. -/
theorem entries_receive {logs : StepLogs} (h : logs.Sound) (receipt : Receipt) (step : StepId) :
    (logs.receive receipt).entries step =
      if receipt = .cleared step then []
      else (logs.entries step ++ (receipt.entryOf? step).toList).rtake logs.capacity := by
  cases receipt with
  | entry entry =>
    -- an entry: of this step, or of another one
    rw [if_neg (by simp), receive, (h.record entry).2 step, Receipt.entryOf?]
    by_cases hstep : entry.step = step <;> simp [hstep]
  | cleared other =>
    rw [receive, entries_clear, Receipt.entryOf?]
    by_cases hother : step = other
    · rw [if_pos hother, if_pos (congrArg Receipt.cleared hother.symm)]
    · -- another step was cleared, and this one keeps what it has
      have hne : Receipt.cleared other ≠ .cleared step := by
        intro heq
        exact hother (Receipt.cleared.inj heq).symm
      rw [if_neg hother, if_neg hne, Option.toList_none, List.append_nil,
        rtake_eq_self (h.length_entries_le step)]

/-- **A buffer keeps the newest entries of a step** of those that came since it was last cleared, up
to its capacity. -/
theorem entries_receiveAll (capacity : Nat) (receipts : List Receipt) (step : StepId) :
    (receiveAll { capacity } receipts).entries step =
      (sinceCleared step receipts).rtake capacity := by
  -- the last receipt is the one that the buffer has just taken in
  have hall : (receiveAll { capacity } receipts).Sound ∧
      (receiveAll { capacity } receipts).capacity = capacity ∧
      (receiveAll { capacity } receipts).entries step =
        (sinceCleared step receipts).rtake capacity := by
    induction receipts using List.reverseRecOn with
    | nil => exact ⟨sound_new capacity, rfl, List.rtake_nil _ |>.symm⟩
    | append_singleton receipts receipt ih =>
      obtain ⟨hsound, hcapacity, hentries⟩ := ih
      have hconcat : receiveAll { capacity } (receipts ++ [receipt]) =
          (receiveAll { capacity } receipts).receive receipt := by
        rw [receiveAll, List.foldl_concat, receiveAll]
      rw [hconcat]
      refine ⟨hsound.receive receipt, (capacity_receive _ _).trans hcapacity, ?_⟩
      rw [entries_receive hsound, sinceCleared_concat, hentries, hcapacity]
      split
      · rw [List.rtake_nil]
      · exact rtake_append_rtake capacity _ _
  exact hall.2.2

/-- The newest entries of a step are the last ones of those that are kept. -/
theorem recent_eq_rtake (logs : StepLogs) (step : StepId) (count : Nat) :
    logs.recent step count =
      (logs.entries step).rtake (min count (logs.entries step).length) := by
  rw [List.rtake]
  unfold recent entries
  cases logs.rings.get? step.id with
  | none => exact (List.drop_nil ..).symm
  | some ring =>
    -- asking for more entries than there are gives all of them
    have hlength : ring.entries.length - min count ring.entries.length =
        ring.entries.length - count := by omega
    show ring.entries.drop _ = ring.entries.drop _
    rw [hlength]

end StepLogs

/-! ## One call

An entry that is handed to a tree goes to all parts of it, one after the other, and from each part
on to its own.
-/

/-- A call of the sinks: an entry for the root of a tree, or a clearing of one buffer. -/
inductive SinkCall where
  | record (root : Sink) (entry : LogEntry)
  | clear (slot : Nat) (step : StepId)

namespace SinkCall

/-- What a call does to the buffers. -/
def apply : SinkCall → Inbox → Inbox
  | record root entry, inbox => root.record entry inbox
  | clear slot step, inbox => inbox.clear slot step

/-- What a call brings to a buffer: an entry comes once along each path from the root. -/
def receipts (slot : Nat) : SinkCall → List Receipt
  | record root entry => (root.paths slot).map fun _ => .entry entry
  | clear other step => if other = slot then [.cleared step] else []

end SinkCall

namespace Inbox

/-- The inbox after calls, made one after the other. -/
def after (inbox : Inbox) (calls : List SinkCall) : Inbox :=
  calls.foldl (fun inbox call => call.apply inbox) inbox

/-- Buffers of these capacities to which nothing has come. -/
def empty (capacities : List Nat) : Inbox where
  buffers := capacities.map fun capacity => { capacity }

/-- A receipt for one buffer is no receipt for another. -/
theorem getElem?_updateBuffer (inbox : Inbox) (other slot : Nat) (receipt : Receipt) :
    (inbox.updateBuffer other (·.receive receipt)).buffers[slot]? =
      inbox.buffers[slot]?.map (·.receiveAll (if other = slot then [receipt] else [])) := by
  rw [updateBuffer, List.getElem?_modify]
  by_cases h : other = slot
  · simp only [if_pos h]
    rfl
  · simp only [if_neg h]
    rfl

end Inbox

namespace Sink

mutual

/-- An entry comes to a buffer once along each path from the sink that it is handed to. -/
theorem buffers_record (slot : Nat) : ∀ (sink : Sink) (entry : LogEntry) (inbox : Inbox),
    (sink.record entry inbox).buffers[slot]? =
      inbox.buffers[slot]?.map fun logs =>
        logs.receiveAll ((sink.paths slot).map fun _ => .entry entry)
  | buffer other, entry, inbox => by
    rw [paths, apply_ite (List.map fun _ => Receipt.entry entry)]
    exact inbox.getElem?_updateBuffer other slot (.entry entry)
  | listener _, _, _ => Option.map_id'.symm
  | fanout parts, entry, inbox => buffers_recordAll slot 0 parts entry inbox

/-- And from several sinks, handed the entry one after the other, along each path from any of
them. -/
theorem buffers_recordAll (slot index : Nat) :
    ∀ (parts : List Sink) (entry : LogEntry) (inbox : Inbox),
      (recordAll parts entry inbox).buffers[slot]? =
        inbox.buffers[slot]?.map fun logs =>
          logs.receiveAll ((pathsFrom slot index parts).map fun _ => .entry entry)
  | [], _, _ => Option.map_id'.symm
  | first :: others, entry, inbox => by
    -- first what comes through the first part, and then the others
    rw [recordAll, buffers_recordAll slot (index + 1) others entry _,
      buffers_record slot first entry inbox, Option.map_map]
    simp only [pathsFrom, List.map_append, List.map_map, StepLogs.receiveAll, List.foldl_append,
      Function.comp_def]

end

end Sink

namespace Inbox

/-- What comes to a buffer in the course of calls. -/
def received (slot : Nat) (calls : List SinkCall) : List Receipt :=
  calls.flatMap (·.receipts slot)

/-- **A call brings to each buffer its receipts**, and nothing else. -/
theorem buffers_apply (call : SinkCall) (inbox : Inbox) (slot : Nat) :
    (call.apply inbox).buffers[slot]? =
      inbox.buffers[slot]?.map (·.receiveAll (call.receipts slot)) := by
  cases call with
  | record root entry => exact root.buffers_record slot entry inbox
  | clear other step => exact inbox.getElem?_updateBuffer other slot (.cleared step)

/-- A run leaves each buffer as its own receipts alone would. -/
theorem buffers_after (calls : List SinkCall) (inbox : Inbox) (slot : Nat) :
    (inbox.after calls).buffers[slot]? =
      inbox.buffers[slot]?.map (·.receiveAll (received slot calls)) := by
  induction calls generalizing inbox with
  | nil => exact Option.map_id'.symm
  | cons call rest ih =>
    show ((call.apply inbox).after rest).buffers[slot]? = _
    rw [ih, buffers_apply, Option.map_map]
    simp only [received, List.flatMap_cons, StepLogs.receiveAll, List.foldl_append,
      Function.comp_def]

/-- **Log entries are delivered through any tree of sinks.** For buffers of any capacities and every
sequence of calls, each of which hands an entry to the root of a tree or clears a step in a buffer:

* the paths that are counted for a buffer are those that lead to it, each of them once;
* a buffer is what its receipts leave of an empty one of its capacity: an entry comes to it once
  along each path from the root, in the order of the calls, and a clearing where it is made;
* it holds, of each step, the newest entries that came since the step was last cleared, as many as
  its capacity allows;
* the recent entries of a step are the last ones of those that it holds. -/
theorem logs_delivered (capacities : List Nat) (calls : List SinkCall) (slot : Nat) :
    let inbox := (empty capacities).after calls
    (∀ (root : Sink) (path : List Nat),
      path ∈ root.paths slot ↔ root.at? path = some (.buffer slot)) ∧
    (∀ root : Sink, (root.paths slot).Nodup) ∧
    inbox.buffers[slot]? = capacities[slot]?.map (fun capacity =>
      StepLogs.receiveAll { capacity } (received slot calls)) ∧
    (∀ step, (inbox.buffer slot).entries step =
      (sinceCleared step (received slot calls)).rtake (capacities.getD slot 0)) ∧
    (∀ step count, (inbox.buffer slot).recent step count =
      ((inbox.buffer slot).entries step).rtake
        (min count ((inbox.buffer slot).entries step).length)) := by
  intro inbox
  -- one statement about the state of a buffer, from which its entries are read off
  have hbuffers : inbox.buffers[slot]? = capacities[slot]?.map (fun capacity =>
      StepLogs.receiveAll { capacity } (received slot calls)) := by
    rw [buffers_after, empty, List.getElem?_map, Option.map_map]
    rfl
  refine ⟨Sink.mem_paths_iff slot, Sink.nodup_paths slot, hbuffers, ?_,
    (inbox.buffer slot).recent_eq_rtake⟩
  intro step
  rw [buffer, List.getD_eq_getElem?_getD, List.getD_eq_getElem?_getD, hbuffers]
  cases capacities[slot]? with
  -- no such buffer: nothing is kept, as with a capacity of zero
  | none => exact (List.rtake_zero _).symm
  | some capacity => exact StepLogs.entries_receiveAll capacity _ step

/-- A buffer that stands in the tree twice gets everything twice, and one of capacity zero keeps
nothing. -/
example :
    let root : Sink := .fanout [.fanout [], .buffer 0, .fanout [.buffer 1, .buffer 0]]
    let line (message : String) : LogEntry := ⟨⟨"a"⟩, .info, message⟩
    let inbox := (empty [3, 0]).after
      [.record root (line "early"), .clear 0 ⟨"a"⟩, .record root (line "one"),
        .record root ⟨⟨"b"⟩, .info, "other"⟩, .record root (line "two")]
    (inbox.buffer 0).entries ⟨"a"⟩ = [line "one", line "two", line "two"] ∧
      (inbox.buffer 1).entries ⟨"a"⟩ = [] := by
  decide

end Inbox

end StepRelay
