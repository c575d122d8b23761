import StepRelay.Proofs.Commuting

/-!
# What the archive holds

A push makes room by taking out the oldest record again and again, and then adds the new one. Seen
from outside, the archive holds the newest of all records that were ever pushed (`pushAll_records`).
`MakesRoom` is the loop itself. It ends because the archive is never asked for room for nothing
(`exists_makesRoom_iff`), and where it ends is what a push computes (`MakesRoom.eq`). An archive
that was filled by pushes is never above its room, so a push takes out one record at most, and names
no step twice (`evicted_nodup`).
-/

namespace StepRelay

namespace Archive

/-! ## The loop of a push

A push drops records from the front until there is room. The loop's result is characterized by two
facts, which determine how much it drops: there is room afterwards, and there was none before the
last drop.
-/

/-- The loop of a push, run to its end on some records: as long as there are `room` of them or more,
the oldest is taken out. Where none is left and there is still no room, the loop has no end. -/
inductive MakesRoom (room : Nat) : List Record → List Record → List Record → Prop
  | enough {records : List Record} (h : records.length < room) : MakesRoom room records [] records
  | takes {oldest : Record} {rest taken left : List Record} (h : room ≤ (oldest :: rest).length)
      (hrest : MakesRoom room rest taken left) :
      MakesRoom room (oldest :: rest) (oldest :: taken) left

/-- Where the loop ends there is room for one record more. -/
theorem MakesRoom.length_left_lt {room : Nat} {records taken left : List Record}
    (h : MakesRoom room records taken left) : left.length < room := by
  induction h with
  | enough h => exact h
  | takes _ _ ih => exact ih

/-- Where the loop ends: it takes out the records that are too many by one. -/
theorem MakesRoom.eq {room : Nat} {records taken left : List Record}
    (h : MakesRoom room records taken left) :
    taken = records.take (records.length + 1 - room) ∧
      left = records.drop (records.length + 1 - room) := by
  induction h with
  | enough h =>
    rw [Nat.sub_eq_zero_of_le h]
    exact ⟨rfl, rfl⟩
  | @takes oldest rest taken left h _ ih =>
    -- one record is out, and one less is too many
    have hexcess : (oldest :: rest).length + 1 - room = rest.length + 1 - room + 1 :=
      Nat.succ_sub h
    rw [hexcess, List.take_succ_cons, List.drop_succ_cons, ← ih.1, ← ih.2]
    exact ⟨rfl, rfl⟩

/-- The loop ends if room is asked for at least one record, and only then. -/
theorem exists_makesRoom_iff (room : Nat) (records : List Record) :
    (∃ taken left, MakesRoom room records taken left) ↔ 0 < room := by
  constructor
  · -- what is left is fewer than the room, so there is some
    rintro ⟨taken, left, h⟩
    exact Nat.zero_lt_of_lt h.length_left_lt
  · intro hroom
    -- every round takes a record out, so the loop runs along the records
    induction records with
    | nil => exact ⟨[], [], .enough hroom⟩
    | cons oldest rest ih =>
      by_cases h : room ≤ (oldest :: rest).length
      · obtain ⟨taken, left, hrest⟩ := ih
        exact ⟨oldest :: taken, left, .takes h hrest⟩
      · exact ⟨[], oldest :: rest, .enough (Nat.lt_of_not_le h)⟩

/-- A push runs the loop to its end, adds the record, and names the steps of what was taken out that
have no record left, one for each run of the same step. -/
theorem push_makesRoom (archive : Archive) (record : Record) :
    ∃ taken left, MakesRoom archive.room archive.records taken left ∧
      (archive.push record).1.records = left ++ [record] ∧
      (archive.push record).2 = ((taken.map Record.step).filter fun step =>
        !(left ++ [record]).any fun kept => kept.step == step).eraseReps := by
  obtain ⟨taken, left, h⟩ :=
    (exists_makesRoom_iff archive.room archive.records).2 (Nat.le_max_right ..)
  obtain ⟨htaken, hleft⟩ := h.eq
  refine ⟨taken, left, h, ?_, ?_⟩
  · rw [hleft]
    rfl
  · rw [htaken, hleft]
    rfl

/-! ## Many pushes

The room does not change, so pushing many records keeps the newest of them, by induction from the
last push.
-/

/-- Archives finished invocations one after the other. -/
def pushAll (archive : Archive) (records : List Record) : Archive :=
  records.foldl (fun archive record => (archive.push record).1) archive

/-- What was pushed last was pushed onto what the others had left. -/
theorem pushAll_concat (archive : Archive) (records : List Record) (record : Record) :
    archive.pushAll (records ++ [record]) = ((archive.pushAll records).push record).1 := by
  rw [pushAll, List.foldl_append]
  rfl

/-- The room of an archive is given once and for all. -/
theorem room_pushAll (archive : Archive) (records : List Record) :
    (archive.pushAll records).room = archive.room := by
  induction records using List.reverseRecOn with
  | nil => rfl
  | append_singleton records record ih =>
    rw [pushAll_concat, ← ih]
    rfl

/-- An archive that was empty holds the newest records, as many as it has room for. -/
theorem pushAll_records (capacity : Nat) (pushed : List Record) :
    (pushAll { capacity } pushed).records = pushed.rtake (max capacity 1) := by
  induction pushed using List.reverseRecOn with
  | nil => exact (List.rtake_nil _).symm
  | append_singleton pushed record ih =>
    have hroom : (pushAll { capacity } pushed).room = max capacity 1 := room_pushAll ..
    rw [pushAll_concat, push_records_eq, ih, hroom, rtake_append_rtake]

/-- An archive that is not above its room names no step twice. -/
theorem evicted_nodup {archive : Archive} (h : archive.records.length ≤ archive.room)
    (record : Record) : (archive.push record).2.Nodup := by
  rw [push]
  -- one record is taken out at most, and so one step is named at most
  generalize hsteps : List.filter _ _ = steps
  have hlength : steps.length ≤ 1 := by
    rw [← hsteps]
    refine Nat.le_trans (List.length_filter_le ..) ?_
    rw [List.length_map, List.length_take]
    omega
  cases steps with
  | nil => exact List.nodup_nil
  | cons step rest =>
    have hrest : rest = [] :=
      List.length_eq_zero_iff.1 (Nat.le_zero.1 (Nat.le_of_succ_le_succ hlength))
    rw [hrest]
    exact List.nodup_singleton step

/-! ## The newest record of a step

A look-up searches from the newest record. The steps that a push evicts are those which the search
no longer finds.
-/

/-- What a look-up finds: the record of the step behind which there is no other one of it. -/
theorem latest?_eq_some_iff (archive : Archive) (step : StepId) (record : Record) :
    archive.latest? step = some record ↔
      record.step = step ∧ ∃ older newer, archive.records = older ++ record :: newer ∧
        ∀ later ∈ newer, later.step ≠ step := by
  rw [latest?, List.find?_eq_some_iff_append, beq_iff_eq]
  refine and_congr_right fun _ => ?_
  -- the look-up goes from the newest record to the oldest
  constructor
  · rintro ⟨newer, older, hrecords, hnone⟩
    refine ⟨older.reverse, newer.reverse, ?_, ?_⟩
    · rw [← archive.records.reverse_reverse, hrecords]
      simp
    · intro later hlater
      simpa using hnone later (List.mem_reverse.1 hlater)
  · rintro ⟨older, newer, hrecords, hnone⟩
    refine ⟨newer.reverse, older.reverse, by simp [hrecords], ?_⟩
    intro later hlater
    simpa using hnone later (List.mem_reverse.1 hlater)

/-- A look-up finds nothing exactly if no record is of the step. -/
theorem latest?_eq_none_iff (archive : Archive) (step : StepId) :
    archive.latest? step = none ↔ ∀ record ∈ archive.records, record.step ≠ step := by
  simp [latest?]

/-- What was pushed last is the newest record of its step. -/
theorem latest?_push (archive : Archive) (record : Record) :
    (archive.push record).1.latest? record.step = some record := by
  obtain ⟨evicted, kept, -, hpushed⟩ := archive.push_records record
  rw [latest?_eq_some_iff]
  exact ⟨rfl, kept, [], hpushed, List.forall_mem_nil _⟩

/-- **The archive holds the newest records.** Whatever its capacity, where none counts as one, and
whatever finished invocations were archived, of steps in any order and any number of times:

* the archive holds the last of them, in order, as many as the capacity says;
* the newest record of a step is the one of these behind which there is no other of the step, and
  there is none if none of these is of the step;
* the next push comes to an end, and it names the steps that had a record before it and have none
  after it, each once. -/
theorem holds_newest (capacity : Nat) (pushed : List Record) :
    let archive := pushAll { capacity } pushed
    archive.records = pushed.rtake (max capacity 1) ∧
    (∀ step record, archive.latest? step = some record ↔
      record.step = step ∧ ∃ older newer, archive.records = older ++ record :: newer ∧
        ∀ later ∈ newer, later.step ≠ step) ∧
    (∀ step, archive.latest? step = none ↔ ∀ record ∈ archive.records, record.step ≠ step) ∧
    ∀ record,
      (∃ taken left, MakesRoom (max capacity 1) archive.records taken left ∧
        (archive.push record).1.records = left ++ [record] ∧
        (archive.push record).2 = ((taken.map Record.step).filter fun step =>
          !(left ++ [record]).any fun kept => kept.step == step).eraseReps) ∧
      (∀ step, step ∈ (archive.push record).2 ↔
        (∃ old ∈ archive.records, old.step = step) ∧
          ∀ kept ∈ (archive.push record).1.records, kept.step ≠ step) ∧
      (archive.push record).2.Nodup := by
  intro archive
  have hroom : archive.room = max capacity 1 := room_pushAll ..
  have hrecords : archive.records = pushed.rtake (max capacity 1) := pushAll_records ..
  refine ⟨hrecords, archive.latest?_eq_some_iff, archive.latest?_eq_none_iff, ?_⟩
  intro record
  refine ⟨hroom ▸ archive.push_makesRoom record, ?_, ?_⟩
  · intro step
    rw [mem_evicted_iff, Has, Has, not_exists]
    simp only [not_and, ne_eq]
  · -- an archive filled by pushes is not above its room
    apply evicted_nodup
    rw [hrecords, hroom]
    exact length_rtake_le ..

end Archive

end StepRelay
