import StepRelay.Proofs.Acceptance
import StepRelay.Proofs.Transport

/-!
# Foreign text encoded again

A text may spell its numbers, blanks and escapes as it likes and repeat its keys. Its raw tree nests
no deeper than the reader may go (`depth_of_parseRaw`), and merging the repeated keys makes it no
deeper and leaves each key once (`depth_merged_le`, `wellFormed_merged`). The value of such a tree
has its shape (`shape_ofJsonAt`) and only doubles that a text can spell, so it is encoded, and its
text is decoded to it again: after one pass nothing changes any more (`decode_normalises`).
-/

namespace StepRelay

namespace Json

/-! ## How deep the tree of a document is

The limit of the reader is on the document, with its repeated keys. The three inductions follow the
three definitions of `Document.depth`.
-/

namespace Document

mutual

/-- **The tree of a document is as deep as the document.** -/
theorem depth_of_tree? : ∀ (d : Document) {json : Json}, d.tree? = some json → json.depth = d.depth
  | null, _, h | bool _, _, h => by
    -- scalars add nothing, whatever they are spelled like
    rw [← Option.some.inj h]
    rfl
  | number literal, _, h => by
    obtain ⟨n, -, rfl⟩ := Option.map_eq_some_iff.1 h
    rfl
  | string pieces, _, h => by
    obtain ⟨chars, -, rfl⟩ := Option.map_eq_some_iff.1 h
    rfl
  | array inside items, _, h => by
    obtain ⟨trees, htrees, rfl⟩ := Option.map_eq_some_iff.1 h
    rw [Json.depth, depth, depth_of_itemTrees? items htrees]
  | object inside members, _, h => by
    obtain ⟨trees, htrees, rfl⟩ := Option.map_eq_some_iff.1 h
    rw [Json.depth, depth, depth_of_memberTrees? members htrees]

theorem depth_of_itemTrees? : ∀ (items : List (Padded Document)) {trees : List Json},
    itemTrees? items = some trees → Json.depthOfItems trees = depthOfItems items
  | [], _, h => by
    rw [← Option.some.inj h]
    rfl
  | ⟨before, item, behind⟩ :: rest, _, h => by
    rw [itemTrees?] at h
    obtain ⟨first, hfirst, h⟩ := Option.bind_eq_some_iff.1 h
    obtain ⟨others, hothers, rfl⟩ := Option.map_eq_some_iff.1 h
    rw [Json.depthOfItems, depthOfItems, depth_of_tree? item hfirst,
      depth_of_itemTrees? rest hothers]

theorem depth_of_memberTrees? : ∀ (members : List (Padded (List Piece) × Padded Document))
    {trees : List (String × Json)}, memberTrees? members = some trees →
      Json.depthOfMembers trees = depthOfMembers members
  | [], _, h => by
    rw [← Option.some.inj h]
    rfl
  | (key, ⟨before, item, behind⟩) :: rest, _, h => by
    rw [memberTrees?] at h
    obtain ⟨name, -, h⟩ := Option.bind_eq_some_iff.1 h
    obtain ⟨first, hfirst, h⟩ := Option.bind_eq_some_iff.1 h
    obtain ⟨others, hothers, rfl⟩ := Option.map_eq_some_iff.1 h
    rw [Json.depthOfMembers, depthOfMembers, depth_of_tree? item hfirst,
      depth_of_memberTrees? rest hothers]

end

end Document

/-- What was read nests no deeper than the reader may go. -/
theorem depth_of_parseRaw {text : String} {raw : Json} (h : parseRaw text = .ok raw) :
    raw.depth ≤ depthLimit := by
  obtain ⟨document, -, hwithin⟩ := (parseRaw_eq_ok_iff text raw).1 h
  rw [Document.within?] at hwithin
  split at hwithin
  · next hdepth =>
    rw [Document.depth_of_tree? document.inner hwithin]
    exact hdepth
  · cases hwithin

/-! ## What merging does to the shape of a tree

Merging drops members and moves them. So it can make a tree shallower, but not deeper.
-/

/-- That members are well formed is said of each of them. -/
theorem membersWellFormed_iff (members : List (String × Json)) :
    MembersWellFormed members ↔ ∀ member ∈ members, member.2.WellFormed := by
  induction members with
  | nil => exact iff_of_true trivial (List.forall_mem_nil _)
  | cons member rest ih => rw [MembersWellFormed, ih, List.forall_mem_cons]

/-- Their depth is bounded if that of each is. -/
theorem depthOfMembers_le_iff (members : List (String × Json)) (bound : Nat) :
    depthOfMembers members ≤ bound ↔ ∀ member ∈ members, member.2.depth ≤ bound := by
  induction members with
  | nil => exact iff_of_true (Nat.zero_le bound) (List.forall_mem_nil _)
  | cons member rest ih => rw [depthOfMembers, Nat.max_le, ih, List.forall_mem_cons]

mutual

theorem wellFormed_merged : ∀ json : Json, json.merged.WellFormed
  | null | bool _ | number _ | string _ => trivial
  | array items => itemsWellFormed_merged items
  | object members => by
    -- the keys are distinct by the merging, and each item that is left was merged itself
    refine ⟨Entries.nodup_merge _, (membersWellFormed_iff _).2 ?_⟩
    intro member hmember
    exact membersWellFormed_merged members member (Entries.mem_of_mem_merge hmember)

theorem itemsWellFormed_merged : ∀ items, ItemsWellFormed (mergedItems items)
  | [] => trivial
  | item :: rest => ⟨wellFormed_merged item, itemsWellFormed_merged rest⟩

theorem membersWellFormed_merged :
    ∀ members, ∀ member ∈ mergedMembers members, member.2.WellFormed
  | [], _, h => nomatch h
  | (key, item) :: rest, member, h => by
    rcases List.mem_cons.1 h with rfl | hrest
    · exact wellFormed_merged item
    · exact membersWellFormed_merged rest member hrest

end

mutual

/-- A merged tree is no deeper, since its members are some of the members that were there. -/
theorem depth_merged_le : ∀ json : Json, json.merged.depth ≤ json.depth
  | null | bool _ | number _ | string _ => Nat.le_refl 0
  | array items => Nat.succ_le_succ (depthOfItems_merged_le items)
  | object members => by
    -- every member that is left was there
    refine Nat.succ_le_succ ((depthOfMembers_le_iff _ _).2 ?_)
    intro member hmember
    exact (depthOfMembers_le_iff _ _).1 (depthOfMembers_merged_le members) member
      (Entries.mem_of_mem_merge hmember)

theorem depthOfItems_merged_le : ∀ items, depthOfItems (mergedItems items) ≤ depthOfItems items
  | [] => Nat.le_refl 0
  | item :: rest => by
    have hitem := depth_merged_le item
    have hrest := depthOfItems_merged_le rest
    rw [mergedItems, depthOfItems, depthOfItems]
    omega

theorem depthOfMembers_merged_le :
    ∀ members, depthOfMembers (mergedMembers members) ≤ depthOfMembers members
  | [] => Nat.le_refl 0
  | (key, item) :: rest => by
    have hitem := depth_merged_le item
    have hrest := depthOfMembers_merged_le rest
    rw [mergedMembers, depthOfMembers, depthOfMembers]
    omega

end

end Json

namespace Value

/-! ## The shape of a value made of a tree

Depth and distinct keys pass from a tree to the value that is made of it, along the same recursion.
-/

mutual

/-- A value is as deep as the tree it is made of, and repeats no key if the tree does not. -/
theorem shape_ofJsonAt : ∀ (json : Json) {path : String} {value : Value},
    ofJsonAt path json = .ok value →
      value.depth = json.depth ∧ (json.WellFormed → value.WellFormed)
  | .null, _, _, h | .bool _, _, _, h | .string _, _, _, h | .number (.double _ _), _, _, h => by
    rw [← Except.ok.inj h]
    exact ⟨rfl, id⟩
  | .number (.integer n fits), _, _, h => by
    rw [ofJsonAt] at h
    -- an integer that does not fit has no value
    split at h
    · rw [← Except.ok.inj h]
      exact ⟨rfl, id⟩
    · cases h
  | .array items, _, _, h => by
    rw [ofJsonAt] at h
    obtain ⟨values, hvalues, h⟩ := bind_eq_ok_iff.1 h
    obtain ⟨hdepth, hkeys⟩ := shape_itemsOfJson items hvalues
    rw [← Except.ok.inj h]
    exact ⟨congrArg (· + 1) hdepth, hkeys⟩
  | .object members, _, _, h => by
    rw [ofJsonAt] at h
    obtain ⟨entries, hentries, h⟩ := bind_eq_ok_iff.1 h
    obtain ⟨hdepth, hnames, hkeys⟩ := shape_entriesOfJson members hentries
    rw [← Except.ok.inj h]
    refine ⟨congrArg (· + 1) hdepth, fun hdistinct => ⟨?_, hkeys hdistinct.2⟩⟩
    rw [hnames]
    exact hdistinct.1

theorem shape_itemsOfJson : ∀ (items : List Json) {path : String} {index : Nat}
    {values : List Value}, itemsOfJson path index items = .ok values →
      depthOfItems values = Json.depthOfItems items ∧
        (Json.ItemsWellFormed items → ItemsWellFormed values)
  | [], _, _, _, h => by
    rw [← Except.ok.inj h]
    exact ⟨rfl, id⟩
  | item :: rest, _, _, _, h => by
    rw [itemsOfJson] at h
    obtain ⟨first, hfirst, h⟩ := bind_eq_ok_iff.1 h
    obtain ⟨others, hothers, h⟩ := bind_eq_ok_iff.1 h
    obtain ⟨hdepth, hkeys⟩ := shape_ofJsonAt item hfirst
    obtain ⟨hdepths, hrest⟩ := shape_itemsOfJson rest hothers
    rw [← Except.ok.inj h, depthOfItems, Json.depthOfItems, hdepth, hdepths]
    exact ⟨rfl, fun hdistinct => ⟨hkeys hdistinct.1, hrest hdistinct.2⟩⟩

theorem shape_entriesOfJson : ∀ (members : List (String × Json)) {path : String}
    {entries : List (String × Value)}, entriesOfJson path members = .ok entries →
      depthOfEntries entries = Json.depthOfMembers members ∧
        Entries.keys entries = Entries.keys members ∧
        (Json.MembersWellFormed members → EntriesWellFormed entries)
  | [], _, _, h => by
    rw [← Except.ok.inj h]
    exact ⟨rfl, rfl, id⟩
  | (key, item) :: rest, _, _, h => by
    rw [entriesOfJson] at h
    obtain ⟨first, hfirst, h⟩ := bind_eq_ok_iff.1 h
    obtain ⟨others, hothers, h⟩ := bind_eq_ok_iff.1 h
    obtain ⟨hdepth, hkeys⟩ := shape_ofJsonAt item hfirst
    obtain ⟨hdepths, hnames, hrest⟩ := shape_entriesOfJson rest hothers
    rw [← Except.ok.inj h, depthOfEntries, Json.depthOfMembers, hdepth, hdepths,
      Entries.keys_cons, Entries.keys_cons, hnames]
    exact ⟨rfl, rfl, fun hdistinct => ⟨hkeys hdistinct.1, hrest hdistinct.2⟩⟩

end

/-- A decoded value is made of a tree that could be read and that repeats no key. -/
theorem ofJson_of_decode {text : String} {value : Value} (h : decode text = .ok value) :
    ∃ json : Json, ofJson json = .ok value ∧ json.WellFormed ∧ json.depth ≤ 127 := by
  obtain ⟨raw, hraw, hbuild⟩ := (decode_eq_ok_iff text value).1 h
  have hdepth : raw.depth ≤ 127 := Json.depth_of_parseRaw hraw
  refine ⟨raw.merged, ?_, Json.wellFormed_merged raw, ?_⟩
  · rw [ofJson, ← toOption_eq_some_iff, Json.ofJsonAt_toOption, hbuild]
  · exact Nat.le_trans (Json.depth_merged_le raw) hdepth

/-! ## Once more

A decoded value satisfies all that is asked of a value to be encoded and decoded again.
-/

/-- The compact text of what a text says. -/
def reencode (text : String) : Except ValueError String := do (← decode text).encode

/-- **Decoding normalises.** A decoded value has only finite doubles, repeats no key and nests at
most 127 brackets deep. So it is encoded, its text is decoded to the very same value, and to encode
once more changes nothing. -/
theorem decode_normalises {text : String} {value : Value} (h : decode text = .ok value) :
    value.AllFinite ∧ value.WellFormed ∧ value.depth ≤ 127 ∧
      ∃ written, value.encode = .ok written ∧ decode written = .ok value ∧
        reencode text = .ok written ∧ reencode written = .ok written := by
  obtain ⟨json, hvalue, hdistinct, hlimit⟩ := ofJson_of_decode h
  obtain ⟨hdepth, hshape⟩ := shape_ofJsonAt json hvalue
  have hkeys : value.WellFormed := hshape hdistinct
  have hdeep : value.depth ≤ 127 := hdepth ▸ hlimit
  -- the tree itself shows that every double can be written
  have hfinite : value.AllFinite :=
    (exists_toJson_iff value).1 ⟨json, toJson_of_ofJsonAt json hvalue "$"⟩
  obtain ⟨written, hwritten, hback, -⟩ := hfinite.travels hkeys
  have hagain : decode written = .ok value := hback hdeep
  refine ⟨hfinite, hkeys, hdeep, written, hwritten, hagain, ?_, ?_⟩
  · rw [reencode, h]
    exact hwritten
  · rw [reencode, hagain]
    exact hwritten

set_option maxRecDepth 4000 in
/-- Blanks, an escape, a repeated key, an exponent and minus zero, as another writer may have
them. -/
theorem decode_normalises_foreign :
    ∃ value, decode "\x7b \"a\" : 1, \"b\":[-0, \"\\u0041\"], \"a\":15e-1 \x7d" = .ok value ∧
      value.encode = .ok "\x7b\"a\":1.5,\"b\":[-0.0,\"A\"]\x7d" ∧
      decode "\x7b\"a\":1.5,\"b\":[-0.0,\"A\"]\x7d" = .ok value := by
  -- one run of decoder and encoder; the rest is the theorem
  have hsome : (reencode "\x7b \"a\" : 1, \"b\":[-0, \"\\u0041\"], \"a\":15e-1 \x7d").toOption =
      some "\x7b\"a\":1.5,\"b\":[-0.0,\"A\"]\x7d" := by
    decide +kernel
  have hresult := toOption_eq_some_iff.1 hsome
  obtain ⟨value, hvalue, -⟩ := bind_eq_ok_iff.1 hresult
  obtain ⟨-, -, -, written, hwritten, hback, hreencode, -⟩ := decode_normalises hvalue
  rw [hresult, Except.ok.injEq] at hreencode
  rw [← hreencode] at hwritten hback
  exact ⟨value, hvalue, hwritten, hback⟩

end Value

end StepRelay
