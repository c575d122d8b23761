import StepRelay.Proofs.Table

/-!
# Publishes that break off

A publish asks a source for one output after the other, and puts each into the table before it asks
for the next. If the source breaks off, the report is lost and everything else stands: the table is
left as by a publish of the cells that had come till then (`publishFrom_eq`). A history in which
some publishes break off therefore leaves the table of one in which all of them come to their end
(`attemptAll_eq`), so what is known of tables by their history holds of it as well
(`attemptAll_eq_replay`).
-/

namespace StepRelay

/-! ## What a source gives

The cells of a publish come from a source that is asked for one after the other, and that may break
off at any of them. What it has given until then is a list.
-/

namespace Source

/-- The cells that come before the end or the break. -/
def given : Source → List Cell
  | ended => []
  | broken => []
  | next cell rest => cell :: rest.given

/-- Whether there is no end, but a break. -/
def breaks : Source → Bool
  | ended => false
  | broken => true
  | next _ rest => rest.breaks

/-- A source that breaks off at `n` has given what comes before. -/
theorem given_upTo (cells : List Cell) (n : Nat) : (upTo cells n).given = cells.take n := by
  induction cells generalizing n with
  | nil => cases n <;> rfl
  | cons cell rest ih =>
    cases n with
    | zero => rfl
    | succ n => exact congrArg (cell :: ·) (ih n)

/-- A list is asked for one item more than it has. -/
theorem breaks_upTo (cells : List Cell) (n : Nat) :
    (upTo cells n).breaks = decide (n ≤ cells.length) := by
  induction cells generalizing n with
  | nil => cases n <;> rfl
  | cons cell rest ih =>
    cases n with
    | zero => rfl
    | succ n => simpa [upTo, breaks] using ih n

end Source

/-- What one publish is called with, if its outputs come from a source. -/
structure PublishAttempt where
  step : StepId
  source : Source
  observed : LogicalTime

namespace PublishAttempt

/-- The publish that is asked for what has come, and for no more. -/
def came (attempt : PublishAttempt) : PublishCall :=
  ⟨attempt.step, attempt.source.given, attempt.observed⟩

/-- What the caller is told of a report. -/
def told (attempt : PublishAttempt) (report : PublishReport) : Option PublishReport :=
  if attempt.source.breaks then none else some report

end PublishAttempt

namespace Table

/-! ## One publish

A cell is written as soon as it is given, under the version that was counted up before the first
one. Breaking off undoes nothing.
-/

/-- What has come is put in, whether the source ends after it or breaks off. -/
theorem landFrom_eq (step : StepId) (observed version : LogicalTime)
    (landed : OrderedMap Published) (source : Source) :
    landFrom step observed version landed source =
      ((land step observed version landed source.given).1,
        if source.breaks then none else
          some (land step observed version landed source.given).2) := by
  induction source generalizing landed with
  | ended => rfl
  | broken => rfl
  | next cell rest ih =>
    simp only [landFrom, land, Source.given, Source.breaks, ih]
    -- whether the cell is reported is known before the source is asked for the next
    cases landed.get? cell.name with
    | none => rfl
    | some old =>
      by_cases hold : old.isUnobserved step observed = true <;>
        cases rest.breaks <;> simp [hold]

/-- **A publish from a source** is the publish of what the source gives; whether it breaks off
decides only whether the caller learns of the report. -/
theorem publishFrom_eq (table : Table) (attempt : PublishAttempt) :
    table.publishFrom attempt.step attempt.source attempt.observed =
      let published :=
        table.publish attempt.came.step attempt.came.cells attempt.came.observed
      (published.1, attempt.told published.2) := by
  simp only [publishFrom, publish, landFrom_eq, PublishAttempt.came, PublishAttempt.told]
  cases attempt.source.breaks <;> rfl

/-! ## One publish after the other

So a history with broken publishes leaves the table of a history without: each publish is replaced
by one of the cells that it got to write.
-/

/-- Makes publishes in turn, and collects their reports. -/
def publishAll : Table → List PublishCall → Table × List PublishReport
  | table, [] => (table, [])
  | table, call :: rest =>
    let (published, report) := table.publish call.step call.cells call.observed
    let (last, reports) := published.publishAll rest
    (last, report :: reports)

/-- Makes publishes in turn, of which some may break off. -/
def attemptAll : Table → List PublishAttempt → Table × List (Option PublishReport)
  | table, [] => (table, [])
  | table, attempt :: rest =>
    let (left, report) := table.publishFrom attempt.step attempt.source attempt.observed
    let (last, reports) := left.attemptAll rest
    (last, report :: reports)

/-- Breaks take reports away, and leave no other trace in the table or in what is reported later. -/
theorem attemptAll_eq (table : Table) (attempts : List PublishAttempt) :
    table.attemptAll attempts =
      let published := table.publishAll (attempts.map PublishAttempt.came)
      (published.1, List.zipWith PublishAttempt.told attempts published.2) := by
  induction attempts generalizing table with
  | nil => rfl
  | cons attempt rest ih =>
    simp only [attemptAll, List.map_cons, publishAll, List.zipWith_cons_cons, publishFrom_eq, ih]

/-- The table after publishes in turn is that of the replay. -/
theorem publishAll_fst (table : Table) (calls : List PublishCall) :
    (table.publishAll calls).1 =
      calls.foldl (fun table call => (table.publish call.step call.cells call.observed).1)
        table := by
  induction calls generalizing table with
  | nil => rfl
  | cons call rest ih => exact ih _

/-- Every table is that of a history of publishes that came to their end. -/
theorem attemptAll_eq_replay (attempts : List PublishAttempt) :
    (attemptAll {} attempts).1 = replay (attempts.map PublishAttempt.came) := by
  rw [attemptAll_eq]
  exact publishAll_fst {} (attempts.map PublishAttempt.came)

/-- **A publish that breaks off stands as far as it came.** Take any table, and a source that breaks
off when it is asked for the output at `n`, if it comes so far. Nothing is reported exactly if it
does. The outputs that came before are published all the same, and no others: at a new version,
under their names, behind the names that were there, for every resolution, and for all that is
published later and reported then. -/
theorem broken_publish_stands (table : Table) (step : StepId) (outputs : List Cell) (n : Nat)
    (observed : LogicalTime) :
    let left := table.publishFrom step (.upTo outputs n) observed
    let come := outputs.take n
    let latest := fun name => (come.findRev? fun cell => cell.name == name).or (table.cell? name)
    (left.2 = none ↔ n ≤ outputs.length) ∧
    left.1.version = table.version + 1 ∧
    left.1.names = (table.names ++ come.map Cell.name).eraseDups ∧
    (∀ name, left.1.cell? name = latest name) ∧
    (∀ requested, left.1.resolve requested =
      { cells := requested.filterMap fun name => (latest name).map (Cell.relabel · .input)
        version := table.version + 1 }) ∧
    (∀ later : List PublishAttempt, left.1.attemptAll later =
      let published :=
        (table.publish step come observed).1.publishAll (later.map PublishAttempt.came)
      (published.1, List.zipWith PublishAttempt.told later published.2)) := by
  intro left come latest
  obtain ⟨hleft, htold⟩ : left.1 = (table.publish step come observed).1 ∧
      (left.2 = none ↔ n ≤ outputs.length) := by
    -- the source gives the outputs before `n` and breaks if there are as many
    have heq := table.publishFrom_eq ⟨step, .upTo outputs n, observed⟩
    simp only [PublishAttempt.came, PublishAttempt.told, Source.given_upTo,
      Source.breaks_upTo] at heq
    refine ⟨congrArg Prod.fst heq, ?_⟩
    rw [show left.2 = _ from congrArg Prod.snd heq]
    simp
  have hcell (name : String) : left.1.cell? name = latest name := by
    rw [hleft, publish_cell?]
  have hversion : left.1.version = table.version + 1 := by
    rw [hleft, publish_version]
  refine ⟨htold, hversion, ?_, hcell, fun requested => ?_, fun later => ?_⟩
  · rw [hleft]
    exact publish_names (eraseDups_of_nodup table.cells.nodup).symm step come observed
  · have hcells := left.1.resolve_cells requested
    simp only [hcell] at hcells
    exact congrArg₂ Resolution.mk hcells hversion
  · rw [hleft, attemptAll_eq]

/-- A reader of the table need not see all of a step's outputs or none of them. -/
theorem not_every_broken_publish_undone :
    ¬ ∀ (table : Table) (step : StepId) (outputs : List Cell) (n : Nat) (observed : LogicalTime),
      n ≤ outputs.length →
      let left := (table.publishFrom step (.upTo outputs n) observed).1
      (∀ name, left.cell? name = table.cell? name) ∨
        ∀ name, left.cell? name = (table.publish step outputs observed).1.cell? name := by
  intro hall
  let output (name : String) : Cell := ⟨name, .null, ⟨"a"⟩, .output, 1⟩
  -- of two outputs the first has come, the second has not
  rcases hall {} ⟨"a"⟩ [output "x", output "y"] 1 0 (by decide) with hnone | hfull
  · exact Option.some_ne_none _ (hnone "x")
  · exact Option.some_ne_none _ (hfull "y").symm

end Table

end StepRelay
