import StepRelay.Proofs.Spelling

/-!
# Values through text and back

A value whose doubles are finite has a tree of the same shape, the tree is printed as a document,
and a document is read back unless it nests deeper than 127 brackets. Each way is exact, so `decode`
finds the very value that `encode` wrote (`decode_encode`).
-/

namespace StepRelay.Value

open Json

/-! ## Trees of values

A value and its tree have the same shape, so one recursion gives the tree together with all that is
known of it.
-/

/-- What a tree has to be for a value to come back from it. -/
structure Mirrors (json : Json) (value : Value) : Prop where
  tree : ∀ path, toJsonAt path value = .ok json
  back : build? plainBuilder json = some value
  depth : json.depth = value.depth
  wellFormed : value.WellFormed → json.WellFormed

theorem mirrors_int (n : Int64) : Mirrors (.number (intNumber n)) (int n) where
  tree := fun _ => rfl
  back := by
    have hlt : n.toInt < Nat.pow 2 63 := n.toInt_lt
    change (ofNumber (intNumber n)).toOption = _
    rw [intNumber, ofNumber, if_pos hlt, Int64.ofInt_toInt]
    rfl
  depth := rfl
  wellFormed := fun _ => trivial

theorem mirrors_float {d : Double} (h : d.isFinite = true) :
    Mirrors (.number (.double d h)) (float d) where
  tree := fun _ => by
    rw [toJsonAt, dif_pos h]
  back := rfl
  depth := rfl
  wellFormed := fun _ => trivial

mutual

/-- **A value whose doubles are finite has a tree of its shape.** Induction over the value, with its
items and its entries. -/
theorem exists_tree : ∀ value : Value, value.AllFinite → ∃ json, Mirrors json value
  | null, _ => ⟨.null, fun _ => rfl, rfl, rfl, id⟩
  | bool flag, _ => ⟨.bool flag, fun _ => rfl, rfl, rfl, id⟩
  | int n, _ => ⟨_, mirrors_int n⟩
  | float d, h => ⟨_, mirrors_float h⟩
  | string text, _ => ⟨.string text, fun _ => rfl, rfl, rfl, id⟩
  | sequence items, h => by
    obtain ⟨trees, htrees, hvalues, hdepth, hkeys⟩ := exists_trees items h
    refine ⟨.array trees, fun path => ?_, ?_, ?_, hkeys⟩
    · rw [toJsonAt, htrees]
      rfl
    · rw [build?, hvalues]
      rfl
    · rw [Json.depth, depth, hdepth]
  | mapping entries, h => by
    obtain ⟨trees, htrees, hvalues, hdepth, hnames, hkeys⟩ := exists_members entries h
    refine ⟨.object trees, fun path => ?_, ?_, ?_, fun hdistinct => ⟨?_, hkeys hdistinct.2⟩⟩
    · rw [toJsonAt, htrees]
      rfl
    · rw [build?, hvalues]
      rfl
    · rw [Json.depth, depth, hdepth]
    · -- the members have the keys of the entries, which are distinct
      rw [hnames]
      exact hdistinct.1

theorem exists_trees : ∀ items : List Value, ItemsAllFinite items → ∃ trees : List Json,
    (∀ path index, itemsToJson path index items = .ok trees) ∧
      buildItems? plainBuilder trees = some items ∧
      Json.depthOfItems trees = Value.depthOfItems items ∧
      (Value.ItemsWellFormed items → Json.ItemsWellFormed trees)
  | [], _ => ⟨[], fun _ _ => rfl, rfl, rfl, id⟩
  | item :: rest, h => by
    obtain ⟨tree, hitem⟩ := exists_tree item h.1
    obtain ⟨trees, htrees, hvalues, hdepth, hkeys⟩ := exists_trees rest h.2
    refine ⟨tree :: trees, fun path index => ?_, ?_, ?_, fun hdistinct => ?_⟩
    · rw [itemsToJson, hitem.tree, htrees]
      rfl
    · rw [buildItems?, hitem.back, hvalues]
      rfl
    · rw [Json.depthOfItems, Value.depthOfItems, hitem.depth, hdepth]
    · exact ⟨hitem.wellFormed hdistinct.1, hkeys hdistinct.2⟩

theorem exists_members : ∀ entries : List (String × Value), EntriesAllFinite entries →
    ∃ trees : List (String × Json),
      (∀ path, entriesToJson path entries = .ok trees) ∧
        buildMembers? plainBuilder trees = some entries ∧
        Json.depthOfMembers trees = Value.depthOfEntries entries ∧
        Entries.keys trees = Entries.keys entries ∧
        (Value.EntriesWellFormed entries → Json.MembersWellFormed trees)
  | [], _ => ⟨[], fun _ => rfl, rfl, rfl, rfl, id⟩
  | (key, item) :: rest, h => by
    obtain ⟨tree, hitem⟩ := exists_tree item h.1
    obtain ⟨trees, htrees, hvalues, hdepth, hnames, hkeys⟩ := exists_members rest h.2
    refine ⟨(key, tree) :: trees, fun path => ?_, ?_, ?_, ?_, fun hdistinct => ?_⟩
    · rw [entriesToJson, hitem.tree, htrees]
      rfl
    · rw [buildMembers?, hitem.back, hvalues]
      rfl
    · rw [Json.depthOfMembers, Value.depthOfEntries, hitem.depth, hdepth]
    · rw [Entries.keys_cons, Entries.keys_cons, hnames]
    · exact ⟨hitem.wellFormed hdistinct.1, hkeys hdistinct.2⟩

end

/-- A tree that is printed is parsed again, unless it nests too deep. -/
theorem parseRaw_render (json : Json) :
    (parseRaw json.render).toOption = if json.depth ≤ depthLimit then some json else none := by
  obtain ⟨d, htext, htree, hdepth⟩ := exists_document json
  have hrender : json.render = Padded.text ⟨.none, d, .none⟩ := by
    rw [render, Padded.text, htext]
    exact congrArg String.ofList (List.append_nil json.text).symm
  rw [hrender, parseRaw_text]
  change d.within? depthLimit = _
  rw [Document.within?, htree, hdepth]

/-! ## What stands in for a value

Between a value and its text stands a tree, and `Mirrors` is all that is needed of it.
-/

namespace Mirrors

variable {json : Json} {value : Value} (h : Mirrors json value)

include h

/-- The text of the value is that of the tree. -/
theorem encode : value.encode = .ok json.render := by
  rw [Value.encode, toJson, h.tree]
  rfl

/-- The text is parsed to the tree itself, unless it nests too deep. -/
theorem parseRaw : (parseRaw json.render).toOption =
    if value.depth ≤ 127 then some json else none := by
  have hparse := parseRaw_render json
  rwa [h.depth, depthLimit] at hparse

/-- **The text is decoded to the value**, up to the limit of nesting. -/
theorem decode (hkeys : value.WellFormed) (hdepth : value.depth ≤ 127) :
    Value.decode json.render = .ok value := by
  have hparse := h.parseRaw
  rw [if_pos hdepth] at hparse
  -- no member is lost on the way through the tree
  have hmerged : json.merged = json := merged_of_wellFormed json (h.wellFormed hkeys)
  refine (decode_eq_ok_iff json.render value).2 ⟨json, toOption_eq_some_iff.1 hparse, ?_⟩
  rw [hmerged, h.back]

/-- **Beyond the limit it is an encoding error.** -/
theorem decode_of_deep (hdepth : 127 < value.depth) :
    ∃ message, Value.decode json.render = .error (.encoding message) := by
  have hparse := h.parseRaw
  rw [if_neg (Nat.not_le.2 hdepth)] at hparse
  -- what the raw reader refuses, every reader does
  have hnone : (parse json.render).toOption = none := by
    rw [parse_toOption, hparse]
    rfl
  obtain ⟨fault, hfault⟩ := toOption_eq_none_iff.1 hnone
  refine ⟨fault.describe json.render.toList, ?_⟩
  rw [Value.decode, hfault]

end Mirrors

/-- **What is encoded is decoded to the same value**, if every double is finite and no mapping
repeats a key, exactly up to 127 nested brackets. A deeper text is an encoding error. -/
theorem decode_encode {value : Value} (hfinite : value.AllFinite) (hkeys : value.WellFormed) :
    ∃ text, value.encode = .ok text ∧
      (value.depth ≤ 127 → decode text = .ok value) ∧
      (127 < value.depth → ∃ message, decode text = .error (.encoding message)) := by
  obtain ⟨json, hjson⟩ := exists_tree value hfinite
  exact ⟨json.render, hjson.encode, hjson.decode hkeys, hjson.decode_of_deep⟩

/-- Minus zero and a control character come back as well. -/
theorem decode_encode_minus_zero :
    ∃ text, encode (.mapping [("a\x00", .sequence [.float (.zero true), .int (-1)])]) = .ok text ∧
      decode text = .ok (.mapping [("a\x00", .sequence [.float (.zero true), .int (-1)])]) := by
  have hfinite : AllFinite (.mapping [("a\x00", .sequence [.float (.zero true), .int (-1)])]) :=
    ⟨⟨rfl, trivial, trivial⟩, trivial⟩
  have hkeys : WellFormed (.mapping [("a\x00", .sequence [.float (.zero true), .int (-1)])]) :=
    ⟨List.nodup_singleton _, ⟨trivial, trivial, trivial⟩, trivial⟩
  obtain ⟨text, hencode, hdecode, -⟩ := decode_encode hfinite hkeys
  exact ⟨text, hencode, hdecode (by decide)⟩

end StepRelay.Value
