import StepRelay.Proofs.Beginning
import StepRelay.Proofs.Conversion

/-!
# No double that is not finite is published

A value has a text exactly if all its doubles are finite (`Value.exists_encode_iff`). State values
and constants are taken as they are; an output is asked for its tree first. So the outputs of an
invocation stay finite under every call (`View.finite_serve`), and with them the table and the
archive under every action (`Session.Finite.act`), since nothing gets there but outputs.

## The argument

* An output is asked for its tree before it is accepted, so every call keeps the outputs finite
  (`View.finite_serve`, `finite_runScript`).
* What is archived as outputs or published are the outputs of one invocation (`Finite.commit`,
  `Finite.recordFailure`); nothing else writes to the table.
* The session adds the invocations that are still open, whose outputs may be published later
  (`Finite.act`, `Finite.run`).
-/

namespace StepRelay

/-! ## Values that have a text

Having a text and having only finite doubles are the same thing. It is a property of single items,
so it is kept by whatever moves items about.
-/

namespace Value

/-- **A value has a text exactly if all its doubles are finite.** -/
theorem exists_encode_iff (value : Value) :
    (∃ text, value.encode = .ok text) ↔ value.AllFinite := by
  rw [← exists_toJson_iff]
  constructor
  · rintro ⟨text, htext⟩
    obtain ⟨json, hjson, -⟩ := bind_eq_ok_iff.1 htext
    exact ⟨json, hjson⟩
  · rintro ⟨json, hjson⟩
    exact ⟨json.render, bind_eq_ok_iff.2 ⟨json, hjson, rfl⟩⟩

/-- The doubles of the value are finite, and so it has a text. -/
structure Writable (value : Value) : Prop where
  finite : value.AllFinite
  text : ∃ text, value.encode = .ok text

/-- One half of being writable is enough. -/
theorem AllFinite.writable {value : Value} (h : value.AllFinite) : value.Writable :=
  ⟨h, (exists_encode_iff value).2 h⟩

end Value

/-- All values of a map are finite. -/
def OrderedMap.Finite (values : OrderedMap Value) : Prop :=
  ∀ name value, values.get? name = some value → value.AllFinite

theorem OrderedMap.finite_empty : (∅ : OrderedMap Value).Finite := by
  intro name value h
  cases h

/-- A finite value more keeps a map finite. -/
theorem OrderedMap.Finite.insert {values : OrderedMap Value} (h : values.Finite) (name : String)
    {value : Value} (hvalue : value.AllFinite) : (values.insert name value).Finite := by
  intro other found hfound
  rw [OrderedMap.get?_insert] at hfound
  by_cases hname : name = other
  · rw [if_pos hname, Option.some.injEq] at hfound
    exact hfound ▸ hvalue
  · rw [if_neg hname] at hfound
    exact h other found hfound

/-! ## Outputs of one invocation

An output is refused if it has no tree, and it has a tree exactly if all its doubles are finite.
Every other call leaves the outputs as they are.
-/

/-- The one door to the outputs is guarded. -/
theorem View.finite_serve {view : View} (h : view.outputs.Finite) (call : Call) :
    (view.serve call).1.outputs.Finite := by
  cases call with
  | inputs | state | log | pause => exact h
  | set name value =>
    simp only [View.serve]
    split <;> exact h
  | setOutput name value =>
    simp only [View.serve]
    split
    · exact h
    · split
      · -- accepted: it has a tree, so it is finite
        next json hjson =>
        exact h.insert name (value.exists_toJson_iff.1 ⟨json, hjson⟩)
      · exact h

namespace Supervisor

/-- **A call of a script keeps its outputs finite**, whatever it passes. -/
theorem finite_perform {invocation : Invocation} (h : invocation.outputs.Finite) (s : Supervisor)
    (call : Call) : (s.perform invocation call).2.1.outputs.Finite := by
  have hview : (s.perform invocation call).2.1.view = (invocation.view.serve call).1 :=
    congrArg Prod.fst (s.perform_view invocation call)
  have houtputs : (s.perform invocation call).2.1.outputs =
      (invocation.view.serve call).1.outputs := congrArg View.outputs hview
  rw [houtputs]
  exact View.finite_serve h call

/-- An invocation begins without outputs. -/
theorem finite_begin (s : Supervisor) (request : StepRequest) :
    (s.begin request).2.outputs.Finite :=
  OrderedMap.finite_empty

theorem finite_markRunning {invocation : Invocation} (h : invocation.outputs.Finite) :
    invocation.markRunning.outputs.Finite := by
  simpa using h

/-- However many calls a script makes, its outputs stay finite. -/
theorem finite_runScript (script : Script) (s : Supervisor) {invocation : Invocation}
    (h : invocation.outputs.Finite) (transcript : List Exchange) :
    (runScript script s invocation transcript).2.1.outputs.Finite := by
  induction script generalizing s invocation transcript with
  | ends outcome => exact h
  | call call next ih => exact ih _ _ (finite_perform h s call) _

theorem finite_advance (calls : Nat) (s : Supervisor) {running : Running}
    (h : running.invocation.outputs.Finite) :
    (s.advance calls running).2.1.invocation.outputs.Finite := by
  induction calls generalizing s running with
  | zero => exact h
  | succ calls ih =>
    rw [advance]
    cases hnext : s.next? running with
    | none => exact h
    | some after =>
      obtain ⟨call, -, hinvocation, -⟩ := next?_eq_some hnext
      exact ih after.1 (hinvocation ▸ finite_perform h s call)

/-! ## The table and the archive

The invariant is `Finite`, of the table and the archive; `EndsFinite` adds what an end answers. The
lemmas of this part have the invariant of the supervisor as their common hypothesis, and the
finiteness of the outputs where an invocation comes in.
-/

/-- What is published and what is archived as outputs is finite. -/
structure Finite (s : Supervisor) : Prop where
  table : ∀ name value, s.table.value? name = some value → value.AllFinite
  archive : ∀ record ∈ s.archive.records, record.outputs.Finite

/-- What an ended invocation has published is finite, too. -/
structure EndsFinite (after : Supervisor) (result : Except StepError Publication) : Prop where
  supervisor : after.Finite
  published : ∀ publication, result = .ok publication → publication.values.Finite

/-- An invocation that fails publishes nothing. -/
theorem Finite.endsFinite {after : Supervisor} (h : after.Finite) (error : StepError) :
    after.EndsFinite (.error error) := by
  refine ⟨h, ?_⟩
  intro publication hok
  cases hok

section Finite

variable {s : Supervisor} (h : s.Finite)

include h

/-- Only the table and the archive count. -/
theorem Finite.of_kept {after : Supervisor} (htable : after.table = s.table)
    (harchive : after.archive = s.archive) : after.Finite :=
  ⟨htable ▸ h.table, harchive ▸ h.archive⟩

/-- One finite record more keeps the archive finite; what it evicts is no loss. -/
theorem Finite.push (record : Record) (hrecord : record.outputs.Finite) :
    ∀ other ∈ (s.archive.push record).1.records, other.outputs.Finite := by
  obtain ⟨evicted, kept, hrecords, hpushed⟩ := s.archive.push_records record
  rw [hpushed]
  intro other hother
  rcases List.mem_append.1 hother with hkept | hnew
  · apply h.archive
    rw [hrecords]
    exact List.mem_append_right evicted hkept
  · rwa [List.mem_singleton.1 hnew]

/-- **A failure archives the outputs as they are**, and publishes nothing. -/
theorem Finite.recordFailure (step : StepId) (inputs state : OrderedMap Value)
    {outputs : OrderedMap Value} (houtputs : outputs.Finite) (error : StepError) :
    (s.recordFailure step inputs state outputs error).Finite := by
  constructor
  · rw [recordFailure_table]
    exact h.table
  · rw [recordFailure_archive]
    exact h.push _ houtputs

theorem Finite.fail {invocation : Invocation} (houtputs : invocation.outputs.Finite)
    (error : StepError) : (s.fail invocation error).EndsFinite (.error error) :=
  (h.recordFailure _ _ _ houtputs error).endsFinite error

/-- A commit puts the outputs of its invocation into the table and nothing else. -/
theorem Finite.publish {invocation : Invocation} (houtputs : invocation.outputs.Finite)
    {name : String} {value : Value}
    (hvalue : (s.table.publish invocation.step invocation.store.outputs.values
      invocation.observed).1.value? name = some value) : value.AllFinite := by
  rw [Table.value?, Table.publish_cell?] at hvalue
  cases hfound : invocation.store.outputs.values.findRev? (fun cell => cell.name == name) with
  | none =>
    rw [hfound, Option.none_or] at hvalue
    exact h.table name value hvalue
  | some cell =>
    rw [hfound, Option.some_or, Option.map_some, Option.some.injEq] at hvalue
    rw [List.findRev?_eq_find?_reverse] at hfound
    obtain ⟨pair, hpair, rfl⟩ :=
      List.mem_map.1 (List.mem_reverse.1 (List.mem_of_find?_eq_some hfound))
    -- the cell is one of the invocation's, under its own key
    apply houtputs pair.1
    rw [Invocation.outputs_eq, OrderedMap.get?_map, OrderedMap.get?,
      Entries.get?_of_mem invocation.store.outputs.nodup hpair, Option.map_some, hvalue]

/-- **A commit publishes and archives finite values**: the outputs of its invocation, which are
finite already. Nothing is checked once more at the commit. -/
theorem Finite.commit {invocation : Invocation} (houtputs : invocation.outputs.Finite) :
    (s.commit invocation).1.EndsFinite (s.commit invocation).2 := by
  cases hfatal : invocation.fatal with
  | some error =>
    rw [commit_of_fatal hfatal]
    exact h.fail houtputs error
  | none =>
    refine ⟨⟨?_, ?_⟩, ?_⟩
    · intro name value hvalue
      rw [commit_table hfatal] at hvalue
      exact h.publish houtputs hvalue
    · rw [commit_archive hfatal]
      exact h.push _ houtputs
    · -- what is answered is what the invocation shows as its outputs
      intro publication hok
      have hview := s.commit_view invocation
      rw [hok, View.result] at hview
      simp only [Invocation.view, hfatal, Except.map, Except.ok.injEq, Prod.mk.injEq] at hview
      exact hview.2 ▸ houtputs

/-- A script's end, whatever its outcome. -/
theorem Finite.settle {invocation : Invocation} (houtputs : invocation.outputs.Finite)
    (outcome : Outcome) :
    (s.settle invocation outcome).1.EndsFinite (s.settle invocation outcome).2 := by
  unfold Supervisor.settle
  split
  · exact h.commit houtputs
  · exact h.fail houtputs _

/-- A script that runs to its end, whatever calls it makes. -/
theorem Finite.join {running : Running} (houtputs : running.invocation.outputs.Finite) :
    let ran := runScript running.script s running.invocation running.transcript
    (ran.1.settle ran.2.1 ran.2.2.2).1.EndsFinite (ran.1.settle ran.2.1 ran.2.2.2).2 := by
  intro ran
  have hran : ran.1.Finite := h.of_kept (runScript_table ..) (runScript_archive ..)
  exact hran.settle (finite_runScript running.script s houtputs running.transcript) ran.2.2.2

theorem Finite.begin (request : StepRequest) : (s.begin request).1.Finite :=
  h.of_kept (begin_table ..) (begin_archive ..)

/-- **An execution publishes finite values.** -/
theorem Finite.execute (request : StepRequest) (script : Script) :
    (s.execute request script).1.EndsFinite (s.execute request script).2.result := by
  have hbegun := finite_markRunning (s.finite_begin request)
  exact @Finite.join _ (h.begin request) ⟨(s.begin request).2.markRunning, script, []⟩ hbegun

/-- **And so does one that may be cancelled.** A script that runs on after its cancellation has no
part in the table any more. -/
theorem Finite.executeAsync (request : StepRequest) (script : Script)
    (cancellation : Cancellation) :
    (s.executeAsync request script cancellation).1.EndsFinite
      (s.executeAsync request script cancellation).2.result := by
  cases cancellation with
  | never => exact h.execute request script
  | beforeStart => exact (h.begin request).fail (s.finite_begin request) _
  | afterCalls calls =>
    let begun : Running := ⟨(s.begin request).2.markRunning, script, []⟩
    have hreached := (h.begin request).of_kept (advance_keeps calls (s.begin request).1 begun).1
      (advance_archive calls (s.begin request).1 begun)
    have houtputs : begun.invocation.outputs.Finite := finite_markRunning (s.finite_begin request)
    replace houtputs := finite_advance calls (s.begin request).1 houtputs
    simp only [Supervisor.executeAsync]
    split
    · -- cancelled: the record has no outputs
      next ran running hadvance =>
      rw [hadvance] at hreached
      exact (hreached.recordFailure _ _ _ OrderedMap.finite_empty _).endsFinite _
    · next ran running hadvance =>
      -- the script has ended before the cancellation
      rw [hadvance] at hreached houtputs
      exact hreached.join houtputs

end Finite

end Supervisor

/-! ## Runs

A session adds the live invocations, whose outputs may yet be published.
-/

namespace Session

/-- Neither what was published or archived nor what may yet be published has a double that is not
finite. -/
structure Finite (session : Session) : Prop where
  supervisor : session.supervisor.Finite
  live : ∀ label invocation, session.live.get? label = some invocation →
    invocation.outputs.Finite

/-- An action that leaves a session finite, and what it has published as well. -/
def ActsFinite (acted : Session × Reply) : Prop :=
  acted.1.Finite ∧
    ∀ publication, acted.2.publication? = some publication → publication.values.Finite

theorem Finite.actsFinite {after : Session} (h : after.Finite) {reply : Reply}
    (hsilent : reply.publication? = none) : ActsFinite (after, reply) := by
  refine ⟨h, ?_⟩
  intro publication hpublication
  rw [hsilent] at hpublication
  cases hpublication

/-- A new session has published nothing. -/
theorem finite_new (config : Config) (outlet : LogOutlet) : (new config outlet).Finite := by
  refine ⟨⟨?_, List.forall_mem_nil _⟩, ?_⟩
  · intro name value h
    cases h
  · intro label invocation h
    cases h

section Finite

variable {session : Session} (h : session.Finite)

include h

/-- The detached scripts have no part in it. -/
theorem Finite.ran {supervisor : Supervisor} (hsupervisor : supervisor.Finite)
    (detached : List Running) : ({ session with supervisor, detached } : Session).Finite :=
  ⟨hsupervisor, h.live⟩

/-- An invocation with finite outputs may be added under a label. -/
theorem Finite.insert {supervisor : Supervisor} (hsupervisor : supervisor.Finite) (label : String)
    {invocation : Invocation} (houtputs : invocation.outputs.Finite) :
    ({ session with
      supervisor, live := session.live.insert label invocation } : Session).Finite := by
  refine ⟨hsupervisor, ?_⟩
  intro other found hfound
  rw [OrderedMap.get?_insert] at hfound
  by_cases hlabel : label = other
  · rw [if_pos hlabel, Option.some.injEq] at hfound
    exact hfound ▸ houtputs
  · rw [if_neg hlabel] at hfound
    exact h.live other found hfound

theorem Finite.written (label : String) {written : Invocation.Written}
    (houtputs : written.invocation.outputs.Finite) :
    ActsFinite (session.afterWrite label written) := by
  have hsupervisor : ({ session.supervisor with clock := written.clock } : Supervisor).Finite :=
    h.supervisor.of_kept rfl rfl
  exact (h.insert hsupervisor label houtputs).actsFinite rfl

/-- An end takes its invocation from the live ones. -/
theorem Finite.ended {supervisor : Supervisor} {result : Except StepError Publication}
    (hended : supervisor.EndsFinite result) (label : String) :
    ActsFinite ({ session with supervisor, live := session.live.erase label }, .ended result) := by
  refine ⟨⟨hended.supervisor, ?_⟩, ?_⟩
  · intro other found hfound
    exact h.live other found (live_of_erase hfound)
  · intro publication hpublication
    cases result with
    | ok published =>
      rw [Reply.publication?, Option.some.injEq] at hpublication
      exact hpublication ▸ hended.published published rfl
    | error error => cases hpublication

/-- An execution has no part in the live invocations. -/
theorem Finite.executed {executed : Supervisor × Supervisor.Execution}
    (hended : executed.1.EndsFinite executed.2.result) :
    ActsFinite (session.afterExecution executed) := by
  refine ⟨⟨hended.supervisor, h.live⟩, ?_⟩
  intro publication hpublication
  exact hended.published publication (toOption_eq_some_iff.1 hpublication)

/-- Whatever is done keeps a session finite and publishes finite values. -/
theorem Finite.act (action : Action) : ActsFinite (session.act action) := by
  have hnothing : ActsFinite (session, .unknown) := h.actsFinite rfl
  cases action with
  | begin label request =>
    -- a new invocation has no outputs yet
    have hbegun := h.insert (h.supervisor.begin request) label
      (session.supervisor.finite_begin request)
    exact hbegun.actsFinite rfl
  | set label name value =>
    simp only [Session.act]
    split
    · exact hnothing
    · next invocation hlive =>
      -- the write is the script's call of the same name
      exact h.written label (Supervisor.finite_perform (h.live label invocation hlive)
        session.supervisor (.set name value))
  | setOutput label name value =>
    simp only [Session.act]
    split
    · exact hnothing
    · next invocation hlive =>
      exact h.written label (Supervisor.finite_perform (h.live label invocation hlive)
        session.supervisor (.setOutput name value))
  | commit label =>
    simp only [Session.act]
    split
    · exact hnothing
    · next invocation hlive =>
      exact h.ended (h.supervisor.commit (h.live label invocation hlive)) label
  | fail label error =>
    simp only [Session.act]
    split
    · exact hnothing
    · next invocation hlive =>
      exact h.ended (h.supervisor.fail (h.live label invocation hlive) error) label
  | log step level message =>
    have hlogged := h.supervisor.of_kept (session.supervisor.log_table step level message)
      (session.supervisor.log_archive step level message)
    exact (h.ran hlogged session.detached).actsFinite rfl
  | execute request script => exact h.executed (h.supervisor.execute request script)
  | executeAsync request script cancellation =>
    exact h.executed (h.supervisor.executeAsync request script cancellation)
  | resume index =>
    simp only [Session.act]
    split
    · exact hnothing
    · split
      · exact h.actsFinite rfl
      · next running _ _ after ran hnext =>
        -- what is left of a cancelled script publishes nothing
        obtain ⟨call, rfl, -⟩ := Supervisor.next?_eq_some hnext
        have hcalled := h.supervisor.of_kept
          (session.supervisor.perform_table running.invocation call)
          (session.supervisor.perform_archive running.invocation call)
        exact (h.ran hcalled _).actsFinite rfl
  | finish index =>
    simp only [Session.act]
    split
    · exact hnothing
    · next running _ =>
      have hfinished := h.supervisor.of_kept (session.supervisor.finishDetached_table running)
        (session.supervisor.finishDetached_archive running)
      exact (h.ran hfinished _).actsFinite rfl

/-- **In a run** nothing that is not finite gets anywhere. -/
theorem Finite.run (actions : List Action) : (session.run actions).Finite := by
  induction actions generalizing session with
  | nil => exact h
  | cons action rest ih => exact ih (h.act action).1

/-- What an action of the run publishes is finite, too. -/
theorem Finite.publicationAt {actions : List Action} {i : Nat} {publication : Publication}
    (hpublished : Turn.publicationAt (session.turns actions) i = some publication) :
    publication.values.Finite := by
  rw [Turn.publicationAt, getElem?_turns] at hpublished
  cases haction : actions[i]? with
  | none =>
    rw [haction] at hpublished
    cases hpublished
  | some action =>
    rw [haction] at hpublished
    exact ((h.run (actions.take i)).act action).2 publication hpublished

end Finite

/-- **No double that is not finite is ever published.** In every run, whatever values are passed to
`set`, to `setOutput` and as constants, all doubles are finite, and so there is a text, of

* every value in the table;
* every value of every publication;
* every output in every archived record, committed or not;
* every cell that a step resolves from the table: an input that a step begins with is a constant of
  its own request or stands in the table. -/
theorem published_values_finite (config : Config) (outlet : LogOutlet) (actions : List Action) :
    let supervisor := ((new config outlet).run actions).supervisor
    let turns := (new config outlet).turns actions
    (∀ name value, supervisor.table.value? name = some value → value.Writable) ∧
    (∀ i publication, Turn.publicationAt turns i = some publication →
      ∀ name value, publication.values.get? name = some value → value.Writable) ∧
    (∀ record ∈ supervisor.archive.records,
      ∀ name value, record.outputs.get? name = some value → value.Writable) ∧
    (∀ declared, ∀ cell ∈ (supervisor.table.resolve declared).cells, cell.value.Writable) ∧
    (∀ request name value, (supervisor.begin request).2.inputs.get? name = some value →
      request.constants.get? name = some value ∨
        supervisor.table.value? name = some value ∧ value.Writable) := by
  intro supervisor turns
  have hnew := finite_new config outlet
  have hran := (hnew.run actions).supervisor
  have hnamed : supervisor.table.Named :=
    ((new config outlet).follows_run actions).named fun _ _ hnone => nomatch hnone
  refine ⟨?_, ?_, ?_, ?_, ?_⟩
  · intro name value hvalue
    exact (hran.table name value hvalue).writable
  · intro i publication hpublished name value hvalue
    exact (hnew.publicationAt hpublished name value hvalue).writable
  · intro record hrecord name value hvalue
    exact (hran.archive record hrecord name value hvalue).writable
  · intro declared cell hcell
    rw [Table.resolve_cells, List.mem_filterMap] at hcell
    obtain ⟨name, -, hfound⟩ := hcell
    obtain ⟨published, hpublished, rfl⟩ := Option.map_eq_some_iff.1 hfound
    -- a resolved cell differs from the published one in its kind
    apply Value.AllFinite.writable
    apply hran.table name
    rw [Table.value?, hpublished]
    rfl
  · intro request name value hvalue
    -- an input is a resolved value or a constant, and a constant may be anything
    rw [Supervisor.begin_get? hnamed] at hvalue
    split at hvalue
    · exact .inr ⟨hvalue, (hran.table name value hvalue).writable⟩
    · exact .inl hvalue

end Session

end StepRelay
