import StepRelay.Proofs.Finiteness

/-!
# Outputs that are sent on as text

An output is accepted for its tree (`Invocation.setOutput_ok_iff`), which has no limit on how deep
it nests. Whoever receives the text reads it with a parser that has one. So an accepted output is
read back up to 127 nested brackets (`Value.AllFinite.travels`), and deeper ones are accepted and
published although their text cannot be read (`not_every_accepted_output_read_back`).
-/

namespace StepRelay

namespace Value

/-- How a value fares as text: it comes back, structurally the same, unless it nests too deep. -/
def Travels (value : Value) : Prop :=
  ∃ text, value.encode = .ok text ∧
    (value.depth ≤ 127 → decode text = .ok value) ∧
    (127 < value.depth → ∃ message, decode text = .error (.encoding message))

/-- A value without infinite doubles travels, by the tree that it has. -/
theorem AllFinite.travels {value : Value} (h : value.AllFinite) (hkeys : value.WellFormed) :
    value.Travels := by
  obtain ⟨json, hmirrors⟩ := exists_tree value h
  exact ⟨json.render, hmirrors.encode, hmirrors.decode hkeys, hmirrors.decode_of_deep⟩

/-- What does not have a tree is not encoded for the same reason. -/
theorem encode_of_toJson_error {value : Value} {source : ValueError}
    (h : value.toJson = .error source) : value.encode = .error source := by
  rw [encode, h]
  rfl

/-! ## Values of any depth

The limit is reached by values of one kind, which are as deep as one likes and finite and
well-formed all the way.
-/

/-- Null inside a number of sequences. -/
def nested : Nat → Value
  | 0 => null
  | depth + 1 => sequence [nested depth]

/-- Each sequence adds one to the depth. -/
theorem depth_nested (n : Nat) : (nested n).depth = n := by
  induction n with
  | zero => rfl
  | succ n ih =>
    show max (nested n).depth 0 + 1 = n + 1
    rw [ih, Nat.max_zero]

theorem allFinite_nested (n : Nat) : (nested n).AllFinite := by
  induction n with
  | zero => trivial
  | succ n ih => exact ⟨ih, trivial⟩

/-- There is no mapping in it either, so no key is repeated. -/
theorem wellFormed_nested (n : Nat) : (nested n).WellFormed := by
  induction n with
  | zero => trivial
  | succ n ih => exact ⟨ih, trivial⟩

end Value

namespace Invocation

/-- An output is accepted exactly if its name holds no state and all its doubles are finite. -/
theorem setOutput_ok_iff (invocation : Invocation) (clock : Clock) (name : String)
    (value : Value) :
    (invocation.setOutput clock name value).outcome = .ok () ↔
      invocation.store.state.contains name = false ∧ value.AllFinite := by
  rw [← value.exists_toJson_iff]
  -- a taken name and a missing tree are the two ways to be refused
  rcases invocation.setOutput_cases clock name value with
    ⟨hfree, hjson, hset⟩ | ⟨htaken, hset⟩ | ⟨hfree, source, hjson, hset⟩
  · rw [hset]
    exact iff_of_true rfl ⟨hfree, hjson⟩
  · rw [hset, htaken]
    simp
  · rw [hset, hjson]
    simp

/-- Under a free name only the tree can be missing. -/
theorem setOutput_of_not_finite {invocation : Invocation} {name : String}
    (hfree : invocation.store.state.contains name = false) (clock : Clock) {value : Value}
    (h : ¬ value.AllFinite) :
    ∃ source, value.encode = .error source ∧
      (invocation.setOutput clock name value).outcome =
        .error (.serialization invocation.step name source) := by
  rw [← value.exists_toJson_iff] at h
  rcases invocation.setOutput_cases clock name value with
    ⟨-, hjson, -⟩ | ⟨htaken, -⟩ | ⟨-, source, hjson, hset⟩
  · exact absurd hjson h
  · -- the name is free
    rw [hfree] at htaken
    cases htaken
  · refine ⟨source, Value.encode_of_toJson_error hjson, ?_⟩
    rw [hset]

end Invocation

namespace Session

/-- **An accepted output is read back from its text, unless it nests too deep.** For every
invocation, name and value whose mappings repeat no key:

* the output is accepted exactly if the name holds no state and every double is finite; under a name
  without state it is refused otherwise, with the error that its encoding gives;
* what is accepted is encoded, and its text decoded to the very same value up to 127 nested
  brackets; a deeper text is refused by the decoder;
* so it is with every value that any run has published. -/
theorem accepted_output_read_back (invocation : Invocation) (clock : Clock) (name : String)
    {value : Value} (hkeys : value.WellFormed) :
    let outcome := (invocation.setOutput clock name value).outcome
    (outcome = .ok () ↔ invocation.store.state.contains name = false ∧ value.AllFinite) ∧
    (invocation.store.state.contains name = false → ¬ value.AllFinite →
      ∃ source, value.encode = .error source ∧
        outcome = .error (.serialization invocation.step name source)) ∧
    (outcome = .ok () → ∃ text, value.encode = .ok text ∧
      (value.depth ≤ 127 → Value.decode text = .ok value) ∧
      (127 < value.depth → ∃ message, Value.decode text = .error (.encoding message))) ∧
    (∀ (config : Config) (outlet : LogOutlet) (actions : List Action) (i : Nat)
      (publication : Publication),
      Turn.publicationAt ((new config outlet).turns actions) i = some publication →
      ∀ key published, publication.values.get? key = some published → published.WellFormed →
        published.Travels) := by
  intro outcome
  have haccepted := invocation.setOutput_ok_iff clock name value
  refine ⟨haccepted, ?_, ?_, ?_⟩
  · intro hfree hbad
    exact Invocation.setOutput_of_not_finite hfree clock hbad
  · intro hok
    exact (haccepted.1 hok).2.travels hkeys
  · -- what has been published was accepted once; finiteness is kept by every run
    intro config outlet actions i publication hpublished key published hvalue hdistinct
    have hfinite := (finite_new config outlet).publicationAt hpublished key published hvalue
    exact hfinite.travels hdistinct

/-- At the limit a value is accepted and comes back. -/
theorem accepted_output_read_back_nested :
    (Value.nested 127).WellFormed ∧
    ((Invocation.start ⟨"a"⟩ [] 0).setOutput {} "n" (.nested 127)).outcome = .ok () ∧
    ∃ text, (Value.nested 127).encode = .ok text ∧ Value.decode text = .ok (.nested 127) := by
  have hkeys := Value.wellFormed_nested 127
  obtain ⟨haccepted, -, hread, -⟩ :=
    accepted_output_read_back (Invocation.start ⟨"a"⟩ [] 0) {} "n" hkeys
  have hok := haccepted.2 ⟨rfl, Value.allFinite_nested 127⟩
  obtain ⟨text, htext, hback, -⟩ := hread hok
  exact ⟨hkeys, hok, text, htext, hback (Nat.le_of_eq (Value.depth_nested 127))⟩

/-- Not every accepted output is read back: one bracket more is accepted as well. -/
theorem not_every_accepted_output_read_back :
    ¬ ∀ (invocation : Invocation) (clock : Clock) (name : String) (value : Value),
      value.WellFormed → (invocation.setOutput clock name value).outcome = .ok () →
      ∃ text, value.encode = .ok text ∧ Value.decode text = .ok value := by
  intro hall
  have hkeys := Value.wellFormed_nested 128
  have hfinite := Value.allFinite_nested 128
  have hok := ((Invocation.start ⟨"a"⟩ [] 0).setOutput_ok_iff {} "n" (.nested 128)).2 ⟨rfl, hfinite⟩
  obtain ⟨text, htext, hback⟩ := hall _ _ _ _ hkeys hok
  -- the only text that it has is too deep
  obtain ⟨other, hother, -, hdeep⟩ := hfinite.travels hkeys
  rw [htext, Except.ok.injEq] at hother
  obtain ⟨message, herror⟩ := hdeep (by rw [Value.depth_nested]; decide)
  rw [← hother, hback] at herror
  cases herror

end Session

end StepRelay
