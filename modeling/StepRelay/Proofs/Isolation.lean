import StepRelay.Proofs.Kept

/-!
# What a running step can tell of its surroundings

A script answers to a `View`: the step and inputs of its invocation, the values written so far, and
the fatal error. `perform_view` says that the answers to its calls and what they do to the view
depend on the view alone, so neither the clock nor the table nor any other invocation shows. The
view that an invocation begins with depends on the values published under the declared names
(`begin_inputs`). Together they make two runs of a script alike that begin on tables which agree on
these names, whatever else happens around them (`hosted_scripts_isolated`).

## The argument

* What begins with the same values has the same view (`begin_inputs_congr`), and a call is answered
  by the view alone (`perform_view`).
* So a script follows a course that its first view fixes. No action on another label takes it off
  the course (`live_act_of_elsewhere`), so all that time decides is how far it has come
  (`OnCourse.run`).
* Two runs on one course are alike when they have come equally far (`OnCourse.alike`), and in
  particular at the end.
-/

namespace StepRelay

/-! ## What an invocation begins with

Everything that a begin reads is asked for by the request: the declared names of the table, and the
constants. Two tables that answer these names alike are all the same to it.
-/

namespace Supervisor

/-- The values that constants laid over resolved values leave. -/
def layValues (override : Bool) : OrderedMap Value → Entries Value → OrderedMap Value
  | values, [] => values
  | values, (name, value) :: rest =>
    if values.contains name ∧ ¬ override then layValues override values rest
    else layValues override (values.insert name value) rest

/-- The published values under declared names. -/
def publishedValues (table : Table) (declared : List String) : Entries Value :=
  declared.filterMap fun name => (table.value? name).map (name, ·)

/-- Each cell stands under its own name. -/
def CellsNamed (cells : OrderedMap Cell) : Prop :=
  ∀ name cell, cells.get? name = some cell → cell.name = name

/-- Cells that are put under their names stand under them. -/
theorem cellsNamed_byName (cells : List Cell) : CellsNamed (Cell.byName cells) := by
  intro name cell hcell
  rw [Cell.byName, OrderedMap.get?_ofPairs,
    Entries.last?_map Cell.name (fun cell : Cell => cell)] at hcell
  obtain ⟨found, hfound, rfl⟩ := Option.map_eq_some_iff.1 hcell
  rw [List.findRev?_eq_find?_reverse] at hfound
  simpa using List.find?_some hfound

theorem CellsNamed.insert {cells : OrderedMap Cell} (h : CellsNamed cells) (cell : Cell) :
    CellsNamed (cells.insert cell.name cell) := by
  intro name found hfound
  rw [OrderedMap.get?_insert] at hfound
  split at hfound
  · next hname =>
    rw [← Option.some.inj hfound]
    exact hname
  · exact h name found hfound

/-- Constants are laid over cells as over their values, whatever the clock says. -/
theorem layConstants_values {cells : OrderedMap Cell} (h : CellsNamed cells) (override : Bool)
    (step : StepId) (clock : Clock) (constants : Entries Value) :
    CellsNamed (layConstants override step cells clock constants).1 ∧
      (layConstants override step cells clock constants).1.map Cell.value =
        layValues override (cells.map Cell.value) constants := by
  induction constants generalizing cells clock with
  | nil => exact ⟨h, rfl⟩
  | cons pair rest ih =>
    obtain ⟨name, value⟩ := pair
    by_cases hkept : cells.contains name ∧ ¬ override
    · -- the published value stays, and the clock does not move
      have hrest := ih h clock
      simpa only [layConstants, layValues, OrderedMap.contains_map, if_pos hkept] using hrest
    · -- the constant is laid over it, at the next time
      have hrest := ih (h.insert ⟨name, value, step, .input, clock.tick.now⟩) clock.tick
      rw [OrderedMap.map_insert] at hrest
      simpa only [layConstants, layValues, OrderedMap.contains_map, if_neg hkept] using hrest

/-- The inputs of an invocation are the values of its cells, name by name. -/
theorem valuesByName_values {cells : OrderedMap Cell} (h : CellsNamed cells) :
    Cell.valuesByName cells.values = cells.map Cell.value := by
  have hpairs : (cells.values.map fun cell => (cell.name, cell.value)) =
      Entries.mapItems Cell.value (cells.values.map fun cell => (cell.name, cell)) := by
    simp [Entries.mapItems]
  rw [Cell.valuesByName, hpairs, OrderedMap.map_values_eq_entries h]
  exact OrderedMap.ofPairs_entries (cells.map Cell.value)

/-- **Resolving gives the published values under the declared names**, whatever their versions and
origins are. -/
theorem byName_resolve {table : Table} (hnamed : table.Named) (declared : List String) :
    (Cell.byName (table.resolve declared).cells).map Cell.value =
      .ofPairs (publishedValues table declared) := by
  rw [Cell.byName, OrderedMap.map_ofPairs]
  congr 1
  rw [Table.resolve, Entries.mapItems, List.map_map, List.map_filterMap, publishedValues]
  apply List.filterMap_congr
  intro name _
  cases hpublished : table.cells.get? name with
  | none => simp [Table.value?, Table.cell?, hpublished]
  | some published =>
    -- resolving relabels the cell, with the name that it has already
    have hname := hnamed name published hpublished
    simp [Table.value?, Table.cell?, hpublished, Cell.relabel, hname]

/-- **The inputs of a begin** are the published values under the declared names, with the constants
laid over them. -/
theorem begin_inputs {s : Supervisor} (hnamed : s.table.Named) (request : StepRequest) :
    (s.begin request).2.inputs = ⟨request.step,
      layValues s.config.constantsOverridePublished
        (.ofPairs (publishedValues s.table request.declared)) request.constants.entries⟩ := by
  obtain ⟨hcells, hvalues⟩ := layConstants_values
    (cellsNamed_byName (s.table.resolve request.declared).cells)
    s.config.constantsOverridePublished request.step s.clock request.constants.entries
  rw [byName_resolve hnamed] at hvalues
  rw [← hvalues, ← valuesByName_values hcells]
  rfl

/-- **So where two tables agree on the declared names, a step begins with the same inputs.** Nothing
else of the two supervisors counts but the configuration. -/
theorem begin_inputs_congr {s t : Supervisor} (hs : s.table.Named) (ht : t.table.Named)
    (hconfig : s.config = t.config) {request : StepRequest}
    (hagree : ∀ name ∈ request.declared, s.table.value? name = t.table.value? name) :
    (s.begin request).2.inputs = (t.begin request).2.inputs := by
  have hvalues : publishedValues s.table request.declared =
      publishedValues t.table request.declared := by
    apply List.filterMap_congr
    intro name hname
    rw [hagree name hname]
  rw [begin_inputs hs, begin_inputs ht, hconfig, hvalues]

end Supervisor

/-! ## What a script can bring to light

A script sees answers, and a host sees what a commit returns. Both are functions of the `View`.
-/

/-- What of an invocation shows in the answers to its script and in its result: everything but
times and versions. -/
structure View where
  step : StepId
  inputs : Inputs
  state : OrderedMap Value
  outputs : OrderedMap Value
  fatal : Option StepError

/-- The view of an invocation. -/
def Invocation.view (invocation : Invocation) : View where
  step := invocation.step
  inputs := invocation.inputs
  state := invocation.state
  outputs := invocation.outputs
  fatal := invocation.fatal

namespace View

/-- The answer to a call, and the view after it. -/
def serve (view : View) : (call : Call) → View × call.Answer
  | .inputs => (view, view.inputs)
  | .set name value =>
    if view.outputs.contains name then
      (view, .error (.kindConflict view.step name .output .state))
    else ({ view with state := view.state.insert name value }, .ok ())
  | .setOutput name value =>
    if view.state.contains name then
      (view, .error (.kindConflict view.step name .state .output))
    else
      match value.toJson with
      | .ok _ => ({ view with outputs := view.outputs.insert name value }, .ok ())
      | .error source =>
        let error := StepError.serialization view.step name source
        ({ view with fatal := view.fatal.or (some error) }, .error error)
  | .state => (view, view.state)
  | .log .. => (view, ())
  | .pause => (view, ())

/-- What a commit publishes, or why it publishes nothing. -/
def result (view : View) : Except StepError (StepId × OrderedMap Value) :=
  match view.fatal with
  | some error => .error error
  | none => .ok (view.step, view.outputs)

end View

namespace Supervisor

@[simp] theorem view_markRunning (invocation : Invocation) :
    invocation.markRunning.view = invocation.view := by
  simp [Invocation.view]

/-- A write sets a value, whether its cell was there or not. -/
theorem values_put (cells : OrderedMap Cell) (step : StepId) (name : String) (value : Value)
    (kind : CellKind) (time : LogicalTime) :
    (StepStore.put cells step name value kind time).map Cell.value =
      (cells.map Cell.value).insert name value := by
  unfold StepStore.put
  split
  · rw [OrderedMap.map_insert]
    rfl
  · rw [OrderedMap.map_insert]

/-- **A call is answered by the view.** The supervisor has no part in the answer, and none in the
view after it. -/
theorem perform_view (s : Supervisor) (invocation : Invocation) (call : Call) :
    ((s.perform invocation call).2.1.view, (s.perform invocation call).2.2) =
      invocation.view.serve call := by
  cases call with
  | inputs | state | log | pause => rfl
  -- a write looks at the clock and the store's cells, but only times and versions come of that
  | set name value =>
    simp only [perform, afterWrite]
    rcases invocation.set_cases s.clock name value with ⟨hfree, hset⟩ | ⟨htaken, hset⟩
    · rw [hset]
      simp [Invocation.view, View.serve, OrderedMap.contains_map, values_put, hfree]
    · rw [hset]
      simp [Invocation.view, View.serve, OrderedMap.contains_map, htaken]
  | setOutput name value =>
    simp only [perform, afterWrite]
    rcases invocation.setOutput_cases s.clock name value with
      ⟨hfree, ⟨json, hjson⟩, hset⟩ | ⟨htaken, hset⟩ | ⟨hfree, source, hjson, hset⟩
    · rw [hset]
      simp [Invocation.view, View.serve, OrderedMap.contains_map, values_put, hfree, hjson]
    · rw [hset]
      simp [Invocation.view, View.serve, OrderedMap.contains_map, htaken]
    · rw [hset]
      simp [Invocation.view, View.serve, OrderedMap.contains_map, hfree, hjson]

/-- **A commit answers by the view** as well, but for the version and the ambiguities. -/
theorem commit_view (s : Supervisor) (invocation : Invocation) :
    (s.commit invocation).2.map (fun publication => (publication.step, publication.values)) =
      invocation.view.result := by
  cases hfatal : invocation.fatal with
  | some error => simp [commit, View.result, Invocation.view, hfatal, Except.map]
  | none => simp [commit, View.result, Invocation.view, hfatal, Except.map]

end Supervisor

/-! ## Scripts among other actions

A script together with the view it starts with fixes a course: the calls that it makes and the
answers that it gets, one after the other. Whatever is done in between, a script is always at some
point of its course, and the number of calls tells at which.
-/

/-- How far a script has come: what it can see, what is left of it, and the calls it has made. -/
structure Course where
  view : View
  script : Script
  transcript : List Exchange

namespace Course

/-- The script makes its next call, if it has not ended. -/
def next (course : Course) : Course :=
  match course.script with
  | .ends _ => course
  | .call call next =>
    let (view, answer) := course.view.serve call
    ⟨view, next answer, course.transcript ++ [⟨call, answer⟩]⟩

/-- Some calls are made. -/
def after : Nat → Course → Course
  | 0, course => course
  | calls + 1, course => after calls course.next

theorem after_add (a b : Nat) (course : Course) :
    after (a + b) course = after b (after a course) := by
  induction a generalizing course with
  | zero => rw [Nat.zero_add, after]
  | succ a ih => rw [Nat.succ_add, after, ih, after]

/-- A script that has ended makes no call. -/
theorem next_of_ends {course : Course} {outcome : Outcome} (h : course.script = .ends outcome) :
    course.next = course := by
  simp [next, h]

theorem after_of_ends {course : Course} {outcome : Outcome} (h : course.script = .ends outcome)
    (calls : Nat) : after calls course = course := by
  induction calls with
  | zero => rfl
  | succ calls ih => rw [after, next_of_ends h, ih]

/-- More calls only add to the transcript, and a script that makes none has ended. -/
theorem transcript_after (calls : Nat) (course : Course) :
    course.transcript <+: (after calls course).transcript ∧
      ((after calls course).transcript.length = course.transcript.length →
        after calls course = course) := by
  induction calls generalizing course with
  | zero => exact ⟨List.prefix_refl _, fun _ => rfl⟩
  | succ calls ih =>
    obtain ⟨hextends, -⟩ := ih course.next
    rw [after]
    cases hscript : course.script with
    | ends outcome =>
      rw [next_of_ends hscript] at hextends ⊢
      exact ⟨hextends, fun _ => after_of_ends hscript calls⟩
    | call call next =>
      have hnext : course.next.transcript =
          course.transcript ++ [⟨call, (course.view.serve call).2⟩] := by
        simp [Course.next, hscript]
      have hmade : course.transcript <+: course.next.transcript :=
        hnext ▸ List.prefix_append _ _
      refine ⟨hmade.trans hextends, ?_⟩
      -- a call was made, so the lengths differ
      intro hlength
      have hle := hextends.length_le
      rw [hlength, hnext, List.length_append, List.length_singleton] at hle
      omega

/-- Of two points of one course, one is further than the other. -/
theorem transcripts_comparable (a b : Nat) (course : Course) :
    (after a course).transcript <+: (after b course).transcript ∨
      (after b course).transcript <+: (after a course).transcript := by
  rcases Nat.le_total a b with hab | hab
  · obtain ⟨more, rfl⟩ := Nat.exists_eq_add_of_le hab
    exact .inl (after_add a more course ▸ (transcript_after more (after a course)).1)
  · obtain ⟨more, rfl⟩ := Nat.exists_eq_add_of_le hab
    exact .inr (after_add b more course ▸ (transcript_after more (after b course)).1)

/-- Two points of one course are the same if as many calls were made, or if the script had ended
at both. -/
theorem after_eq {course : Course} {a b : Nat}
    (h : (after a course).transcript.length = (after b course).transcript.length ∨
      (∃ outcome, (after a course).script = .ends outcome) ∧
        ∃ outcome, (after b course).script = .ends outcome) :
    after a course = after b course := by
  -- the later point is some calls away from the earlier one, and none of them can have been made
  wlog hab : a ≤ b generalizing a b
  · exact (this (h.imp Eq.symm And.symm) (Nat.le_of_not_le hab)).symm
  obtain ⟨more, rfl⟩ := Nat.exists_eq_add_of_le hab
  rw [after_add] at h ⊢
  rcases h with hlength | ⟨⟨outcome, hends⟩, -⟩
  · exact ((transcript_after more (after a course)).2 hlength.symm).symm
  · exact (after_of_ends hends more).symm

end Course

/-- The label of the open invocation that an action is on. -/
def Action.label? : Action → Option String
  | .begin label _ | .set label _ _ | .setOutput label _ _ | .commit label | .fail label _ =>
    some label
  | .log .. | .execute .. | .executeAsync .. | .resume _ | .finish _ => none

/-- **An action on another label leaves the invocation alone.** -/
theorem live_act_of_elsewhere {action : Action} {label : String}
    (h : action.label? ≠ some label) (session : Session) :
    (session.act action).1.live.get? label = session.live.get? label := by
  cases action with
  | begin target request =>
    -- a new invocation under another label
    have htarget : target ≠ label := fun heq => h (congrArg some heq)
    rw [Session.act, OrderedMap.get?_insert, if_neg htarget]
  | set target name value | setOutput target name value =>
    have htarget : target ≠ label := fun heq => h (congrArg some heq)
    simp only [Session.act]
    split
    · rfl
    · rw [Session.afterWrite, OrderedMap.get?_insert, if_neg htarget]
  | commit target | fail target error =>
    have htarget : target ≠ label := fun heq => h (congrArg some heq)
    simp only [Session.act]
    split
    · rfl
    · rw [OrderedMap.get?_erase, if_neg htarget]
  | log | execute | executeAsync => rfl
  | resume index =>
    simp only [Session.act]
    split
    · rfl
    · split <;> rfl
  | finish index =>
    simp only [Session.act]
    split <;> rfl

/-! ## Hosted scripts

A script that is hosted makes its calls one at a time, with arbitrary actions in between. Its course
is the one that it would take alone, since none of these actions is on its label.
-/

/-- A session in which a script works on the invocation under a label: what is left of the script,
and the calls it has made. -/
structure Hosted where
  session : Session
  script : Script
  transcript : List Exchange

/-- What may happen next beside the label of the script's invocation. -/
inductive Move (label : String) where
  /-- The script makes its next call, if it has not ended. -/
  | call
  /-- Anything else, as long as it is not on the script's own invocation. -/
  | other (action : Action) (elsewhere : action.label? ≠ some label)

/-- Begins a step under a label, and has a script work on the invocation. -/
def Session.host (session : Session) (label : String) (request : StepRequest) (script : Script) :
    Hosted :=
  let (supervisor, invocation) := session.supervisor.begin request
  ⟨{ session with supervisor, live := session.live.insert label invocation.markRunning },
    script, []⟩

namespace Hosted

variable {label : String}

/-- The next thing that happens. -/
def move (hosted : Hosted) : Move label → Hosted
  | .call =>
    match hosted.script, hosted.session.live.get? label with
    | .call call next, some invocation =>
      let (supervisor, invocation, answer) := hosted.session.supervisor.perform invocation call
      ⟨{ hosted.session with
          supervisor, live := hosted.session.live.insert label invocation },
        next answer, hosted.transcript ++ [⟨call, answer⟩]⟩
    | _, _ => hosted
  | .other action _ => { hosted with session := (hosted.session.act action).1 }

/-- Several things happen, in order. -/
def run (hosted : Hosted) (moves : List (Move label)) : Hosted := moves.foldl move hosted

/-- How many of the moves are calls of the script. -/
def calls : List (Move label) → Nat
  | [] => 0
  | .call :: rest => calls rest + 1
  | .other .. :: rest => calls rest

/-- A hosted script is at this point of a course. -/
structure OnCourse (label : String) (hosted : Hosted) (course : Course) : Prop where
  view : ∃ invocation, hosted.session.live.get? label = some invocation ∧
    invocation.view = course.view
  script : hosted.script = course.script
  transcript : hosted.transcript = course.transcript

/-- A call takes it to the next point. -/
theorem OnCourse.call {hosted : Hosted} {course : Course} (h : OnCourse label hosted course) :
    OnCourse label (hosted.move (.call : Move label)) course.next := by
  obtain ⟨⟨invocation, hlive, hview⟩, hscript, htranscript⟩ := h
  cases hcall : course.script with
  | ends outcome =>
    rw [Course.next_of_ends hcall]
    -- the script has ended, and neither moves
    have hmove : hosted.move (.call : Move label) = hosted := by simp [move, hscript, hcall]
    rw [hmove]
    exact ⟨⟨invocation, hlive, hview⟩, hscript, htranscript⟩
  | call call next =>
    -- the answer is that of the view, and the same at both
    have hperform := hosted.session.supervisor.perform_view invocation call
    rw [hview, Prod.ext_iff] at hperform
    obtain ⟨hafter, hanswer⟩ := hperform
    simp only [move, hscript, hcall, hlive, Course.next, htranscript]
    refine ⟨⟨_, ?_, hafter⟩, congrArg next hanswer, ?_⟩
    · rw [OrderedMap.get?_insert, if_pos rfl]
    · simp only at hanswer
      rw [hanswer]

/-- Among whatever else is done, a script takes the course that it would take by itself. -/
theorem OnCourse.run {hosted : Hosted} {course : Course} (h : OnCourse label hosted course)
    (moves : List (Move label)) :
    OnCourse label (hosted.run moves) (Course.after (calls moves) course) := by
  induction moves generalizing hosted course with
  | nil => exact h
  | cons move rest ih =>
    cases move with
    | call => exact ih h.call
    | other action elsewhere =>
      -- the supervisor may be any other one now: being on course says nothing of it
      refine ih ⟨?_, h.script, h.transcript⟩
      simp only [Hosted.move, live_act_of_elsewhere elsewhere]
      exact h.view

/-! ## Two runs of one script

Two runs are compared by the number of calls that have been made: as far as both have come, they
have come the same way.
-/

/-- Two scripts have come equally far in the same way. -/
structure Alike (label : String) (a b : Hosted) : Prop where
  /-- They made the same calls and got the same answers. -/
  transcript : a.transcript = b.transcript
  script : a.script = b.script
  held : ∃ ours theirs, a.session.live.get? label = some ours ∧
    b.session.live.get? label = some theirs ∧ ours.inputs = theirs.inputs ∧
    ours.state = theirs.state ∧ ours.outputs = theirs.outputs
  /-- A commit would fail in both with one error, or publish the same values in both. -/
  commit : ∃ ours theirs, (a.session.act (.commit label)).2 = .ended ours ∧
    (b.session.act (.commit label)).2 = .ended theirs ∧
    ours.map (fun publication => (publication.step, publication.values)) =
      theirs.map (fun publication => (publication.step, publication.values))

/-- **Scripts at the same point are alike.** -/
theorem OnCourse.alike {a b : Hosted} {course : Course} (ha : OnCourse label a course)
    (hb : OnCourse label b course) : Alike label a b := by
  obtain ⟨⟨ours, hours, hourview⟩, hscriptA, htranscriptA⟩ := ha
  obtain ⟨⟨theirs, htheirs, htheirview⟩, hscriptB, htranscriptB⟩ := hb
  have hview : ours.view = theirs.view := hourview.trans htheirview.symm
  refine ⟨htranscriptA.trans htranscriptB.symm, hscriptA.trans hscriptB.symm,
    ⟨ours, theirs, hours, htheirs, congrArg View.inputs hview, congrArg View.state hview,
      congrArg View.outputs hview⟩, ?_⟩
  refine ⟨(a.session.supervisor.commit ours).2, (b.session.supervisor.commit theirs).2, ?_, ?_, ?_⟩
  · simp only [Session.act, hours]
  · simp only [Session.act, htheirs]
  · rw [Supervisor.commit_view, Supervisor.commit_view, hview]

/-- Scripts that start on the same course stay on it, each at its own pace. -/
theorem run_alike {a b : Hosted} {course : Course} (ha : OnCourse label a course)
    (hb : OnCourse label b course) (movesA movesB : List (Move label)) :
    ((a.run movesA).transcript <+: (b.run movesB).transcript ∨
      (b.run movesB).transcript <+: (a.run movesA).transcript) ∧
    ((a.run movesA).transcript.length = (b.run movesB).transcript.length ∨
        (∃ outcome, (a.run movesA).script = .ends outcome) ∧
          (∃ outcome, (b.run movesB).script = .ends outcome) →
      Alike label (a.run movesA) (b.run movesB)) := by
  have hA := ha.run movesA
  have hB := hb.run movesB
  rw [hA.transcript, hB.transcript, hA.script, hB.script]
  refine ⟨Course.transcripts_comparable _ _ course, ?_⟩
  intro hstage
  -- as many calls, or both at the end: the same point of the course
  rw [Course.after_eq hstage] at hA
  exact hA.alike hB

/-- A script that makes calls while nothing else is done ends after some of them, as it does when it
is run. -/
theorem run_replicate_call (session : Session) (script : Script) (supervisor : Supervisor)
    {invocation : Invocation} {live : OrderedMap Invocation}
    (hlive : live.get? label = some invocation) (transcript : List Exchange) :
    let ran := Supervisor.runScript script supervisor invocation transcript
    ∃ calls ended,
      run ⟨{ session with supervisor, live }, script, transcript⟩
          (.replicate calls (.call : Move label)) =
        ⟨{ session with supervisor := ran.1, live := ended }, .ends ran.2.2.2, ran.2.2.1⟩ ∧
      ended.get? label = some ran.2.1 := by
  induction script generalizing supervisor invocation live transcript with
  | ends outcome => exact ⟨0, live, rfl, hlive⟩
  | call call next ih =>
    -- after one call the invocation is live again, and the rest of the script is run
    have hperformed : (live.insert label (supervisor.perform invocation call).2.1).get? label =
        some (supervisor.perform invocation call).2.1 := by
      rw [OrderedMap.get?_insert, if_pos rfl]
    obtain ⟨calls, ended, hrun, hended⟩ := ih (supervisor.perform invocation call).2.2
      (supervisor.perform invocation call).1 hperformed
      (transcript ++ [⟨call, (supervisor.perform invocation call).2.2⟩])
    refine ⟨calls + 1, ended, ?_, hended⟩
    rw [List.replicate_succ, run, List.foldl_cons]
    simp only [move, hlive]
    exact hrun

end Hosted

/-- Executing a script is hosting it under some label, with nothing else done until it has ended,
and then settling its invocation. -/
theorem execute_eq_hosted (session : Session) (label : String) (request : StepRequest)
    (script : Script) :
    ∃ calls invocation outcome,
      let hosted := (session.host label request script).run (.replicate calls (.call : Move label))
      let settled := hosted.session.supervisor.settle invocation outcome
      hosted.script = .ends outcome ∧ hosted.session.live.get? label = some invocation ∧
        session.supervisor.execute request script =
          (settled.1, { result := settled.2, transcript := hosted.transcript }) := by
  let begun := session.supervisor.begin request
  let ran := Supervisor.runScript script begun.1 begun.2.markRunning []
  have hbegun : (session.live.insert label begun.2.markRunning).get? label =
      some begun.2.markRunning := by
    rw [OrderedMap.get?_insert, if_pos rfl]
  -- an execution makes all the calls at a stretch; hosted, it is given time for as many
  obtain ⟨calls, ended, hrun, hended⟩ :=
    Hosted.run_replicate_call session script begun.1 hbegun []
  have hhosted : (session.host label request script).run (.replicate calls (.call : Move label)) =
      ⟨{ session with supervisor := ran.1, live := ended }, .ends ran.2.2.2, ran.2.2.1⟩ := hrun
  refine ⟨calls, ran.2.1, ran.2.2.2, ?_⟩
  rw [hhosted]
  exact ⟨rfl, hended, rfl⟩

/-- A hosted script starts on the course that its inputs set. -/
theorem host_onCourse (session : Session) (label : String) (request : StepRequest)
    (script : Script) :
    Hosted.OnCourse label (session.host label request script)
      ⟨⟨request.step, (session.supervisor.begin request).2.inputs, ∅, ∅, none⟩, script, []⟩ := by
  refine ⟨⟨(session.supervisor.begin request).2.markRunning, ?_, ?_⟩, rfl, rfl⟩
  · simp only [Session.host]
    rw [OrderedMap.get?_insert, if_pos rfl]
  · rw [Supervisor.view_markRunning]
    rfl

/-- **A running step is isolated.** Take two runs under one configuration in which a step begins,
for one script, where the tables agree on the values under the declared names. Whatever the runs did
before, and whatever else they do between the calls of the script:

* as far as both scripts have come, they made the same calls and got the same answers;
* when they have made as many calls, or have both ended, they hold the same inputs, state and
  outputs, and a commit would fail with the same error or publish the same values. -/
theorem hosted_scripts_isolated (config : Config) {outletA outletB : LogOutlet}
    {actionsA actionsB : List Action} {request : StepRequest}
    (hagree : ∀ name ∈ request.declared,
      ((Session.new config outletA).run actionsA).supervisor.table.value? name =
        ((Session.new config outletB).run actionsB).supervisor.table.value? name)
    (script : Script) (label : String) (movesA movesB : List (Move label)) :
    let a := (((Session.new config outletA).run actionsA).host label request script).run movesA
    let b := (((Session.new config outletB).run actionsB).host label request script).run movesB
    (a.transcript <+: b.transcript ∨ b.transcript <+: a.transcript) ∧
    (a.transcript.length = b.transcript.length ∨
        (∃ outcome, a.script = .ends outcome) ∧ (∃ outcome, b.script = .ends outcome) →
      Hosted.Alike label a b) := by
  have hnamed : ∀ outlet, (Session.new config outlet).supervisor.table.Named :=
    fun _ _ _ h => nomatch h
  have hA := (Session.new config outletA).follows_run actionsA
  have hB := (Session.new config outletB).follows_run actionsB
  -- the same inputs are the same course; what happens later on only sets the pace
  have hinputs := Supervisor.begin_inputs_congr (hA.named (hnamed outletA))
    (hB.named (hnamed outletB)) (hA.config.trans hB.config.symm) hagree
  have honA := host_onCourse ((Session.new config outletA).run actionsA) label request script
  have honB := host_onCourse ((Session.new config outletB).run actionsB) label request script
  rw [← hinputs] at honB
  exact Hosted.run_alike honA honB movesA movesB

/-- Publishes what it finds under the name `n`, and then fails to publish a NaN. -/
def relayScript : Script :=
  .call .inputs fun (inputs : Inputs) =>
    .call (.setOutput "copy" ((inputs.get? "n").getD .null)) fun _ =>
      .call (.setOutput "ratio" (.float .nan)) fun _ => .ends .returned

/-- Leaves the name `n` published, by the step `a`. -/
def publishedByA : List Action :=
  [.begin "a" { step := ⟨"a"⟩ }, .setOutput "a" "n" (.int 1), .commit "a"]

/-- Leaves `n` with the same value, by another step, beside an undeclared name and an open
invocation of the step `c`. -/
def publishedByB : List Action :=
  [.begin "c1" { step := ⟨"c"⟩ }, .begin "b" { step := ⟨"b"⟩ }, .setOutput "b" "m" (.int 7),
    .setOutput "b" "n" (.int 1), .commit "b"]

/-- The calls of the script under `c2` while the invocation under `c1` runs and commits. -/
def movesBeside : List (Move "c2") :=
  [.call, .other (.setOutput "c1" "n" (.int 9)) (by decide),
    .other (.setOutput "c1" "copy" (.int 2)) (by decide), .call, .other (.commit "c1") (by decide),
    .call]

/-- The script of the step `c` does not notice that another invocation of `c` overwrites `n` and
publishes its output's name before it. -/
theorem hosted_scripts_isolated_relay :
    (∀ name ∈ ["n"],
      ((Session.new {} .trace).run publishedByA).supervisor.table.value? name =
        ((Session.new {} .listener).run publishedByB).supervisor.table.value? name) ∧
    Hosted.Alike "c2"
      ((((Session.new {} .trace).run publishedByA).host "c2" { step := ⟨"c"⟩, declared := ["n"] }
        relayScript).run (.replicate 3 (.call : Move "c2")))
      ((((Session.new {} .listener).run publishedByB).host "c2" { step := ⟨"c"⟩, declared := ["n"] }
        relayScript).run movesBeside) := by
  -- the one declared name holds the same value in both tables, from different steps
  have hagree : ∀ name ∈ ["n"],
      ((Session.new {} .trace).run publishedByA).supervisor.table.value? name =
        ((Session.new {} .listener).run publishedByB).supervisor.table.value? name := by
    intro name hname
    rw [List.mem_singleton.1 hname]
    rfl
  exact ⟨hagree, (hosted_scripts_isolated {} hagree relayScript "c2" _ _).2
    (.inr ⟨⟨.returned, rfl⟩, ⟨.returned, rfl⟩⟩)⟩

end StepRelay
