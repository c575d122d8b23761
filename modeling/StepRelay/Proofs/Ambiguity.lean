import StepRelay.Proofs.Run

/-!
# Which ambiguities a commit reports

A publish compares each output with the cell that it replaces: with the step that the cell came from
and with the version at which it landed. `publicationAt_observed` turns these versions into places
of the run, since the version that an invocation observed was that of its begin. So a report tells
whether the last publisher of the name was of another step and published after the begin
(`commit_ambiguities`). Publishers before the last one leave no trace: an overlap with one of them
is reported or not as the last publisher has it (`overlap_reported_iff`).
-/

namespace StepRelay

/-! ## The conflicts of one publish

Whether an output conflicts is decided by the cell that it replaces. The conflicts of all outputs
become the ambiguities of the publication, in their order.
-/

namespace Table

/-- An output conflicts with the cell that it replaces if that cell came from another step and
landed behind the version observed. -/
theorem conflict?_eq_some_iff {landed : OrderedMap Published} {step : StepId}
    {observed : LogicalTime} {name : String} {conflict : Conflict} :
    conflict? landed step observed name = some conflict ↔
      ∃ old, landed.get? name = some old ∧ old.cell.origin ≠ step ∧
        observed < old.publishedAt ∧ conflict = ⟨name, old.cell.origin⟩ := by
  rw [conflict?, Option.bind_eq_some_iff]
  constructor
  · -- what is reported was found there, and the test on it succeeded
    rintro ⟨old, hold, hconflict⟩
    split at hconflict
    · next hunobserved =>
      simp only [Published.isUnobserved, Bool.and_eq_true, bne_iff_ne, ne_eq,
        decide_eq_true_eq] at hunobserved
      exact ⟨old, hold, hunobserved.1, hunobserved.2, (Option.some.inj hconflict).symm⟩
    · cases hconflict
  · rintro ⟨old, hold, horigin, hobserved, rfl⟩
    refine ⟨old, hold, ?_⟩
    rw [if_pos]
    simp [Published.isUnobserved, horigin, hobserved]

/-- The conflicts of a list of names are for some of these names, in their order. -/
theorem conflict?_names_sublist (landed : OrderedMap Published) (step : StepId)
    (observed : LogicalTime) (names : List String) :
    ((names.filterMap (conflict? landed step observed)).map Conflict.name).Sublist names := by
  induction names with
  | nil => exact .slnil
  | cons name rest ih =>
    rw [List.filterMap_cons]
    cases hconflict : conflict? landed step observed name with
    | none => exact ih.cons name
    | some conflict =>
      -- the conflict is under the name that it was looked up for
      obtain ⟨old, -, -, -, rfl⟩ := conflict?_eq_some_iff.1 hconflict
      exact ih.cons_cons name

end Table

/-- No conflict is lost or made up on the way into the reports of a commit. -/
theorem mem_map_ambiguity_iff {step previous : StepId} {name : String}
    {conflicts : List Conflict} :
    StepError.ambiguity name step previous ∈ conflicts.map (Conflict.ambiguity step) ↔
      ⟨name, previous⟩ ∈ conflicts := by
  rw [List.mem_map]
  constructor
  · rintro ⟨⟨other, origin⟩, hmem, heq⟩
    simp only [Conflict.ambiguity, StepError.ambiguity.injEq, true_and] at heq
    obtain ⟨rfl, rfl⟩ := heq
    exact hmem
  · intro hmem
    exact ⟨_, hmem, rfl⟩

namespace Session

/-! ## Versions and places

A cell carries the version at which it landed, an invocation the version that it observed. Both are
versions of the one table, which only grows, so comparing them is comparing places of the run.
-/

/-- A version observed at a begin is older than what was published after the begin, and than
nothing else. -/
theorem publicationAt_observed {session : Session} (hempty : session.live = ∅)
    {actions : List Action} {label : String} {request : StepRequest} {start i : Nat}
    {publication : Publication} (hbegun : actions[start]? = some (.begin label request))
    (hpublished : Turn.publicationAt (session.turns actions) i = some publication) :
    (session.run (actions.take start)).supervisor.table.version < publication.tableVersion ↔
      start < i := by
  have hi := Turn.lt_length_of_publicationAt hpublished
  rw [length_turns] at hi
  have hpublishes := run_publishes hempty (List.getElem?_eq_getElem hi)
  rw [hpublished] at hpublishes
  have hlands : publication.Lands _ _ := hpublishes
  rw [hlands.stamped]
  constructor
  · intro hversion
    by_contra hle
    -- a begin publishes nothing, so a publication not after it is before it
    have hne : i ≠ start := by
      rintro rfl
      rw [Turn.publicationAt, getElem?_turns, hbegun] at hpublished
      cases hpublished
    have hmono := version_mono hempty actions (show i + 1 ≤ start by omega)
    exact Nat.lt_irrefl _ (Nat.lt_of_lt_of_le hversion hmono)
  · intro hlt
    rw [hlands.version]
    exact Nat.lt_succ_of_le (version_mono hempty actions (Nat.le_of_lt hlt))

/-! ## What a commit has published

A commit in a run is traced back to the begin of its invocation, which tells the version that it
observed.
-/

/-- A commit of the run was that of the invocation which was last begun under its label. -/
theorem opened_of_committed {session : Session} (hempty : session.live = ∅)
    {actions : List Action} {label : String} {request : StepRequest} {start : Nat}
    {publication : Publication} (since : OpenSince actions label request start)
    (committed : ((session.run actions).act (.commit label)).2 = .ended (.ok publication)) :
    ∃ invocation, Opened session actions label request start invocation ∧
      ((session.run actions).supervisor.commit invocation).2 = .ok publication ∧
      ((session.run actions).act (.commit label)).1.supervisor =
        ((session.run actions).supervisor.commit invocation).1 := by
  cases hlive : (session.run actions).live.get? label with
  | none =>
    -- without an invocation the reply would be another
    simp [act, hlive] at committed
  | some invocation =>
    obtain ⟨other, i, hopened⟩ := opened_of_live hempty hlive
    obtain ⟨rfl, rfl⟩ := hopened.since.unique since
    simp only [act, hlive] at committed
    refine ⟨invocation, hopened, ?_, ?_⟩
    · injection committed
    · simp [act, hlive]

/-- A commit reports one conflict for each output whose last publisher was of another step and
published after the begin, and no other. -/
theorem conflicts_of_committed {session : Session} (hempty : session.live = ∅)
    (htable : session.supervisor.table.cells = ∅) {actions : List Action} {label : String}
    {request : StepRequest} {start : Nat} {publication : Publication}
    (since : OpenSince actions label request start)
    (committed : ((session.run actions).act (.commit label)).2 = .ended (.ok publication)) :
    ∃ conflicts : List Conflict,
      publication.ambiguities = conflicts.map (Conflict.ambiguity request.step) ∧
      (conflicts.map Conflict.name).Sublist publication.values.keys ∧
      ∀ conflict, conflict ∈ conflicts ↔ conflict.name ∈ publication.values.keys ∧
        ∃ i earlier, Turn.LastPublish (session.turns actions) conflict.name i earlier ∧
          earlier.step = conflict.previousStep ∧ conflict.previousStep ≠ request.step ∧
          start < i := by
  obtain ⟨invocation, hopened, hok, -⟩ := opened_of_committed hempty since committed
  obtain ⟨-, hvalues, hambiguities, -⟩ := Supervisor.commit_ok hopened.reflects.tidy hok
  have hstep : invocation.step = request.step := hopened.step
  rw [← hvalues, hstep, hopened.observed] at hambiguities
  refine ⟨_, hambiguities, Table.conflict?_names_sublist .., ?_⟩
  rintro ⟨name, previous⟩
  have htraced := traced_run hempty htable actions name
  rw [List.mem_filterMap]
  constructor
  · -- a conflict was met, so the cell replaced tells its publisher
    rintro ⟨_, hname, hconflict⟩
    obtain ⟨old, hold, horigin, hobserved, heq⟩ := Table.conflict?_eq_some_iff.1 hconflict
    simp only [Conflict.mk.injEq] at heq
    obtain ⟨rfl, rfl⟩ := heq
    obtain ⟨i, earlier, hlast, hearlier, hversion⟩ := htraced.held old hold
    rw [← hversion, publicationAt_observed hempty since.begun hlast.published] at hobserved
    exact ⟨hname, i, earlier, hlast, hearlier, horigin, hobserved⟩
  · -- a publisher overlaps, so its cell is still there to be met
    rintro ⟨hname, i, earlier, hlast, rfl, hne, hstart⟩
    obtain ⟨old, hold⟩ := htraced.exists_get?_of_lastPublish hlast
    obtain ⟨j, other, hother, hotherstep, hversion⟩ := htraced.held old hold
    -- the cell is that of the one last publisher
    obtain ⟨rfl, rfl⟩ := hlast.unique hother
    rw [← publicationAt_observed hempty since.begun hlast.published, hversion] at hstart
    refine ⟨name, hname, Table.conflict?_eq_some_iff.2 ⟨old, hold, ?_, hstart, ?_⟩⟩
    · exact hotherstep ▸ hne
    · rw [hotherstep]

/-! ## Reports and overlaps

What is left is to put the conflicts of a commit in terms of the run: who published a name last, and
when.
-/

/-- **A commit reports exactly the overlaps with last publishers.** In every run, whatever was done
in it and in whichever order, the commit of an invocation that was begun at `start` publishes the
accepted outputs and reports an ambiguity for a name exactly if it is one of them and its last
publisher was of another step and published after `start`; the ambiguity names that step. Each name
is reported once, in the order of first writes, and the table holds the new values in any case. -/
theorem commit_ambiguities {config : Config} {outlet : LogOutlet} {actions : List Action}
    {label : String} {request : StepRequest} {start : Nat} {publication : Publication}
    (since : OpenSince actions label request start)
    (committed :
      (((new config outlet).run actions).act (.commit label)).2 = .ended (.ok publication)) :
    let turns := (new config outlet).turns actions
    let written := Attempt.accepted .output (Turn.asked label (turns.drop (start + 1)))
    publication.step = request.step ∧
    publication.values = .ofPairs written ∧
    (∀ name previous, .ambiguity name request.step previous ∈ publication.ambiguities ↔
      name ∈ written.keys ∧ ∃ i earlier, Turn.LastPublish turns name i earlier ∧
        earlier.step = previous ∧ previous ≠ request.step ∧ start < i) ∧
    (∃ conflicts : List Conflict,
      publication.ambiguities = conflicts.map (Conflict.ambiguity request.step) ∧
      (conflicts.map Conflict.name).Sublist written.keys.eraseDups ∧
      (conflicts.map Conflict.name).Nodup) ∧
    (∀ name value, written.last? name = some value →
      (((new config outlet).run actions).act (.commit label)).1.supervisor.table.value? name =
        some value) := by
  intro turns written
  obtain ⟨invocation, hopened, hok, hafter⟩ := opened_of_committed rfl since committed
  obtain ⟨hstep, hvalues, -, hlands⟩ := Supervisor.commit_ok hopened.reflects.tidy hok
  rw [hopened.reflects.outputs] at hvalues
  have hkeys : publication.values.keys = written.keys.eraseDups := by
    rw [hvalues, OrderedMap.keys_ofPairs]
  obtain ⟨conflicts, hambiguities, hsublist, hconflicts⟩ :=
    conflicts_of_committed rfl rfl since committed
  refine ⟨hstep.trans hopened.step, hvalues, ?_, ⟨conflicts, hambiguities, ?_, ?_⟩, ?_⟩
  · intro name previous
    rw [hambiguities, mem_map_ambiguity_iff, hconflicts, hkeys, List.mem_eraseDups]
  · rw [← hkeys]
    exact hsublist
  · -- no output is written under two names
    exact hsublist.nodup publication.values.nodup
  · intro name value hvalue
    obtain ⟨cell, hcell, hcellvalue, -⟩ := hlands.cell?_of_last hvalues hvalue
    rw [hafter, Table.value?, hcell, Option.map_some, hcellvalue]

/-- Two invocations that overlap in the name `n`; that of the step `c` has yet to commit. -/
def overlapping : List Action :=
  [.begin "c" { step := ⟨"c"⟩ }, .begin "a" { step := ⟨"a"⟩ }, .setOutput "a" "n" (.int 1),
    .setOutput "c" "m" (.int 2), .commit "a", .setOutput "c" "n" (.int 3)]

/-- In it nothing else is begun under the label of the step `c`. -/
theorem openSince_overlapping : OpenSince overlapping "c" { step := ⟨"c"⟩ } 0 := by
  refine ⟨rfl, ?_⟩
  rintro (_ | _ | _ | _ | _ | _ | i) other hi hbegun <;> simp [overlapping] at hi hbegun

/-- The overlap is reported, and for the reason that it is one. -/
theorem commit_ambiguities_overlapping :
    ∃ publication,
      (((new {} .trace).run overlapping).act (.commit "c")).2 = .ended (.ok publication) ∧
      .ambiguity "n" ⟨"c"⟩ ⟨"a"⟩ ∈ publication.ambiguities ∧
      ∃ i earlier, Turn.LastPublish ((new {} .trace).turns overlapping) "n" i earlier ∧
        earlier.step = ⟨"a"⟩ ∧ 0 < i := by
  obtain ⟨publication, committed, hreported⟩ : ∃ publication,
      (((new {} .trace).run overlapping).act (.commit "c")).2 = .ended (.ok publication) ∧
      .ambiguity "n" ⟨"c"⟩ ⟨"a"⟩ ∈ publication.ambiguities := ⟨_, rfl, .head _⟩
  obtain ⟨-, -, hambiguities, -⟩ := commit_ambiguities openSince_overlapping committed
  obtain ⟨-, i, earlier, hlast, hstep, -, hi⟩ := (hambiguities "n" ⟨"a"⟩).1 hreported
  exact ⟨publication, committed, hreported, i, earlier, hlast, hstep, hi⟩

/-- **An overlap is reported by way of the last publisher.** Where an invocation that was begun at
`start` commits a name which some other one published meanwhile, the name has a last publisher from
then or later, and the commit reports an ambiguity for the name exactly if that one was of another
step. So an overlap goes unreported exactly if a further invocation of the committing step itself
published the name last. -/
theorem overlap_reported_iff {config : Config} {outlet : LogOutlet} {actions : List Action}
    {label : String} {request : StepRequest} {start : Nat} {publication : Publication}
    (since : OpenSince actions label request start)
    (committed :
      (((new config outlet).run actions).act (.commit label)).2 = .ended (.ok publication))
    {during : Nat} {other : Publication} {name : String}
    (published : Turn.publicationAt ((new config outlet).turns actions) during = some other)
    (overlaps : start < during) (theirs : name ∈ other.values.keys)
    (own : name ∈ publication.values.keys) :
    ∃ i last, Turn.LastPublish ((new config outlet).turns actions) name i last ∧ during ≤ i ∧
      ((∃ previous, .ambiguity name request.step previous ∈ publication.ambiguities) ↔
        last.step ≠ request.step) := by
  have hempty : (new config outlet).live = ∅ := rfl
  have htable : (new config outlet).supervisor.table.cells = ∅ := rfl
  obtain ⟨i, last, hlast⟩ :=
    (traced_run hempty htable actions name).exists_lastPublish published theirs
  have hduring : during ≤ i := hlast.le published theirs
  obtain ⟨conflicts, hambiguities, -, hconflicts⟩ :=
    conflicts_of_committed hempty htable since committed
  refine ⟨i, last, hlast, hduring, ?_⟩
  simp only [hambiguities, mem_map_ambiguity_iff, hconflicts]
  constructor
  · rintro ⟨previous, -, j, earlier, hearlier, rfl, hne, -⟩
    -- it is the last publisher that was reported
    obtain ⟨rfl, rfl⟩ := hlast.unique hearlier
    exact hne
  · intro hne
    exact ⟨last.step, own, i, last, hlast, rfl, hne, Nat.lt_of_lt_of_le overlaps hduring⟩

/-- In the overlapping run the last publisher is of another step. -/
theorem overlap_reported_overlapping :
    ∃ i last, Turn.LastPublish ((new {} .trace).turns overlapping) "n" i last ∧ 4 ≤ i ∧
      last.step ≠ ⟨"c"⟩ := by
  obtain ⟨publication, committed, hown, hreported⟩ : ∃ publication,
      (((new {} .trace).run overlapping).act (.commit "c")).2 = .ended (.ok publication) ∧
      "n" ∈ publication.values.keys ∧
      .ambiguity "n" ⟨"c"⟩ ⟨"a"⟩ ∈ publication.ambiguities := ⟨_, rfl, by decide, .head _⟩
  obtain ⟨other, published, htheirs⟩ : ∃ other,
      Turn.publicationAt ((new {} .trace).turns overlapping) 4 = some other ∧
      "n" ∈ other.values.keys := ⟨_, rfl, by decide⟩
  obtain ⟨i, last, hlast, hi, hiff⟩ := overlap_reported_iff openSince_overlapping committed
    published (by decide) htheirs hown
  exact ⟨i, last, hlast, hi, hiff.1 ⟨_, hreported⟩⟩

/-- Three invocations, two of them of the step `c`. The first is open while that of the step `a`
publishes the name `n`; then the second, begun after that, publishes the name as well. -/
def masking : List Action :=
  [.begin "c1" { step := ⟨"c"⟩ }, .begin "a1" { step := ⟨"a"⟩ }, .setOutput "a1" "n" (.int 1),
    .commit "a1", .begin "c2" { step := ⟨"c"⟩ }, .setOutput "c2" "n" (.int 2), .commit "c2",
    .setOutput "c1" "n" (.int 3)]

/-- In it nothing else is begun under the label of the first invocation of `c`. -/
theorem openSince_masking : OpenSince masking "c1" { step := ⟨"c"⟩ } 0 := by
  refine ⟨rfl, ?_⟩
  rintro (_ | _ | _ | _ | _ | _ | _ | _ | i) other hi hbegun <;> simp [masking] at hi hbegun

/-- Not every overlap of two steps is reported: the second invocation of `c` hides that of `a` from
the commit of the first. -/
theorem not_every_overlap_reported :
    ¬ ∀ (config : Config) (outlet : LogOutlet) (actions : List Action) (label : String)
      (request : StepRequest) (start : Nat) (publication : Publication) (during : Nat)
      (other : Publication) (name : String),
      OpenSince actions label request start →
      (((new config outlet).run actions).act (.commit label)).2 = .ended (.ok publication) →
      Turn.publicationAt ((new config outlet).turns actions) during = some other →
      start < during → other.step ≠ request.step →
      name ∈ other.values.keys → name ∈ publication.values.keys →
      ∃ previous, .ambiguity name request.step previous ∈ publication.ambiguities := by
  intro hall
  -- the commit of the first invocation, which reports nothing
  obtain ⟨publication, committed, hown, hreports⟩ : ∃ publication,
      (((new {} .trace).run masking).act (.commit "c1")).2 = .ended (.ok publication) ∧
      "n" ∈ publication.values.keys ∧ publication.ambiguities = [] := ⟨_, rfl, by decide, rfl⟩
  -- the publish that it should have reported, made while it was open
  obtain ⟨other, published, hstep, htheirs⟩ : ∃ other,
      Turn.publicationAt ((new {} .trace).turns masking) 3 = some other ∧
      other.step = ⟨"a"⟩ ∧ "n" ∈ other.values.keys := ⟨_, rfl, rfl, by decide⟩
  obtain ⟨previous, hreported⟩ := hall {} .trace masking "c1" _ 0 publication 3 other "n"
    openSince_masking committed published (by decide) (by simp [hstep]) htheirs hown
  rw [hreports] at hreported
  cases hreported

end Session

end StepRelay
