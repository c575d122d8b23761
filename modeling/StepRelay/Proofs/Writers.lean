import StepRelay.Proofs.Conversion

/-!
# Every writer writes the same text

Two recursions make trees of values, `toJson` with the path to where it is and `toTree` without, and
a third one, `write`, makes text without a tree. The second does what the first does with the path
forgotten (`toTree_eq`), and the third does what the second does with each part printed as soon as
it is there (`write_eq`). So the first double that is not finite stops all three, and if there is
none all texts are that of one tree (`writers_agree`).
-/

namespace StepRelay

/-- An error is mapped the same, whichever of two parts it comes from. -/
theorem mapError_bind {ε ε' α β : Type} (f : ε → ε') (x : Except ε α) (g : α → Except ε β) :
    (x >>= g).mapError f = x.mapError f >>= fun a => (g a).mapError f := by
  cases x <;> rfl

/-- Mapping errors does not make one a success. -/
theorem toOption_mapError {ε ε' α : Type} (f : ε → ε') (x : Except ε α) :
    (x.mapError f).toOption = x.toOption := by
  cases x <;> rfl

/-- A mapped error comes from an error. -/
theorem mapError_eq_error_iff {ε ε' α : Type} {f : ε → ε'} {x : Except ε α} {error : ε'} :
    x.mapError f = .error error ↔ ∃ cause, x = .error cause ∧ f cause = error := by
  cases x <;> simp [Except.mapError]

/-- The double that an error is about. -/
def ValueError.double? : ValueError → Option Double
  | nonFinite _ d => some d
  | _ => none

namespace Value

/-! ## Trees without paths

Both recursions go through a value in the same order, so the induction is theirs: over values,
sequences and mappings at once.
-/

mutual

/-- The tree that is made without paths is the one that is made with them, and so is the double that
there is none for. -/
theorem toTree_eq (path : String) :
    ∀ value : Value, value.toTree.mapError some = (toJsonAt path value).mapError ValueError.double?
  | null | bool _ | int _ | string _ => rfl
  | float d => by
    rw [toTree, toJsonAt]
    -- the only place where either recursion can stop
    by_cases hfinite : d.isFinite = true
    · rw [dif_pos hfinite, dif_pos hfinite]
      rfl
    · rw [dif_neg hfinite, dif_neg hfinite]
      rfl
  | sequence items => by
    rw [toTree, toJsonAt, mapError_bind, mapError_bind, itemsToTrees_eq path 0 items]
    rfl
  | mapping entries => by
    rw [toTree, toJsonAt, mapError_bind, mapError_bind, entriesToTrees_eq path entries]
    rfl

/-- So it is for the items of a sequence, wherever the count of them stands. -/
theorem itemsToTrees_eq (path : String) (index : Nat) : ∀ items : List Value,
    (itemsToTrees items).mapError some =
      (itemsToJson path index items).mapError ValueError.double?
  | [] => rfl
  | item :: rest => by
    rw [itemsToTrees, itemsToJson, mapError_bind, mapError_bind,
      toTree_eq (indexPath path index) item]
    simp only [mapError_bind, itemsToTrees_eq path (index + 1) rest]
    rfl

theorem entriesToTrees_eq (path : String) : ∀ entries : List (String × Value),
    (entriesToTrees entries).mapError some =
      (entriesToJson path entries).mapError ValueError.double?
  | [] => rfl
  | (key, item) :: rest => by
    rw [entriesToTrees, entriesToJson, mapError_bind, mapError_bind,
      toTree_eq (keyPath path key) item]
    simp only [mapError_bind, entriesToTrees_eq path rest]
    rfl

end

theorem toTree_toOption (value : Value) : value.toTree.toOption = value.toJson.toOption := by
  rw [← toOption_mapError some, toTree_eq "$", toOption_mapError, toJson]

/-- The tree made with paths is also the one made without. -/
theorem toTree_of_toJson {value : Value} {json : Json} (h : value.toJson = .ok json) :
    value.toTree = .ok json := by
  rw [← toOption_eq_some_iff, toTree_toOption, h, toOption_ok]

/-- What stops the making of a tree with paths stops the other at the same double. -/
theorem toTree_of_nonFinite {value : Value} {path : String} {d : Double}
    (h : value.toJson = .error (.nonFinite path d)) : value.toTree = .error d := by
  have heq := toTree_eq "$" value
  rw [show toJsonAt "$" value = .error (.nonFinite path d) from h] at heq
  -- errors without paths are kept apart by their doubles
  obtain ⟨other, htree, hother⟩ := mapError_eq_error_iff.1 heq
  rw [htree, Option.some.inj hother]

/-! ## Text without a tree

Printing as one goes stops where making the tree would have stopped, and what it has printed by then
is dropped.
-/

mutual

/-- A value is written as its tree is printed, and fails to be written as it fails to have a
tree. -/
theorem write_eq : ∀ value : Value, value.write = value.toTree.map Json.text
  | null | bool _ | int _ | string _ => rfl
  | float d => by
    rw [write, toTree]
    by_cases hfinite : d.isFinite = true
    · rw [if_pos hfinite, dif_pos hfinite]
      rfl
    · rw [if_neg hfinite, dif_neg hfinite]
      rfl
  | sequence items => by
    rw [write, toTree, writeItems_eq items]
    cases itemsToTrees items <;> rfl
  | mapping entries => by
    rw [write, toTree, writeEntries_eq entries]
    cases entriesToTrees entries <;> rfl

theorem writeItems_eq : ∀ items, writeItems items = (itemsToTrees items).map Json.itemTexts
  | [] => rfl
  | item :: rest => by
    rw [writeItems, itemsToTrees, write_eq item, writeItems_eq rest]
    -- the first item fails, or the rest does, or both texts are there
    cases item.toTree with
    | error d => rfl
    | ok first => cases itemsToTrees rest <;> rfl

theorem writeEntries_eq :
    ∀ entries, writeEntries entries = (entriesToTrees entries).map Json.memberTexts
  | [] => rfl
  | (key, item) :: rest => by
    rw [writeEntries, entriesToTrees, write_eq item, writeEntries_eq rest]
    -- as for items, with the key in front
    cases item.toTree with
    | error d => rfl
    | ok first => cases entriesToTrees rest <;> rfl

end

/-- What is written is the text of the tree, if there is one. -/
theorem write_toOption (value : Value) :
    value.write.toOption = value.toJson.toOption.map Json.text := by
  rw [write_eq, ← toTree_toOption]
  cases value.toTree <;> rfl

/-- A value that has a tree is written as the text of it. -/
theorem write_of_toJson {value : Value} {json : Json} (h : value.toJson = .ok json) :
    value.write = .ok json.text := by
  rw [← toOption_eq_some_iff, write_toOption, h, toOption_ok, Option.map_some]

/-- Only a double that is not finite keeps a value from being written. -/
theorem exists_write_iff (value : Value) : (∃ text, value.write = .ok text) ↔ value.AllFinite := by
  rw [← exists_toJson_iff]
  simp only [← toOption_eq_some_iff, write_toOption, Option.map_eq_some_iff]
  constructor
  · rintro ⟨text, json, hjson, -⟩
    exact ⟨json, hjson⟩
  · rintro ⟨json, hjson⟩
    exact ⟨json.text, json, hjson, rfl⟩

/-! ## All of them

All four are put in terms of the tree with paths, if there is one, and of its first failure
otherwise.
-/

/-- **Every writer writes the same text.** If all doubles of a value are finite, its encoding, the
text that is written without a tree, the text of the tree that is made without paths and the text
that messages show are one. Otherwise none of the first three is there, all for the first double
that is not finite, and messages show the type of the value. -/
theorem writers_agree (value : Value) :
    (value.AllFinite → ∃ text, value.encode = .ok text ∧
      value.write = .ok text.toList ∧
      (∃ json, value.toTree = .ok json ∧ json.render = text) ∧
      value.display = text) ∧
    (¬ value.AllFinite → ∃ way d, firstNonFinite? value.doubles = some (way, d) ∧
      value.encode = .error (.nonFinite (Segment.path "$" way) d) ∧
      value.write = .error d ∧
      value.toTree = .error d ∧
      value.display = "<" ++ value.typeName ++ ">") := by
  constructor
  · intro hfinite
    obtain ⟨json, hjson⟩ := (exists_toJson_iff value).2 hfinite
    refine ⟨json.render, ?_, ?_, ⟨json, toTree_of_toJson hjson, rfl⟩, ?_⟩
    · rw [encode, hjson]
      rfl
    · rw [write_of_toJson hjson, Json.render, String.toList_ofList]
    · rw [display, hjson]
  · intro hbad
    -- a double that is not finite is among those met, so there is a first one
    rw [← firstNonFinite?_eq_none_iff, ← ne_eq, Option.ne_none_iff_exists'] at hbad
    obtain ⟨⟨way, d⟩, hfirst⟩ := hbad
    have hjson := (toJson_eq_error_iff value _).2 ⟨way, d, hfirst, rfl⟩
    have htree := toTree_of_nonFinite hjson
    refine ⟨way, d, hfirst, ?_, ?_, htree, ?_⟩
    · rw [encode, hjson]
      rfl
    · rw [write_eq, htree]
      rfl
    · rw [display, hjson]

end Value

end StepRelay
