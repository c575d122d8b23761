import StepRelay.Proofs.Writers
import StepRelay.Value.Item

/-!
# Every reader of trees finds the same value

`ofJson` makes a value of a tree and keeps the path to where it is, `ofTree` makes one without
paths. The second does what the first does with the paths forgotten (`ofTree_eq`), so one integer
stops both: the first one above the signed 64-bit range. The reader without paths takes a tree for a
source of items like any other, `Json.offered` says which, and what it makes of them is what
`ofItem` makes of the items (`ofItem_offered`).
-/

namespace StepRelay

/-- What an error about a number is to a reader that does not know the way to the number. -/
def ValueError.mismatch? : ValueError → Option Json.Mismatch
  | integerOutOfRange _ n => some (.integerTooLarge n)
  | _ => none

namespace Json

mutual

/-- The item that a tree is to a reader: an integer below zero is a signed one, any other an
unsigned. -/
def offered : Json → Item
  | null => .unit
  | bool flag => .bool flag
  | number (.integer n _) => if n < 0 then .signed n else .unsigned n.toNat
  | number (.double d _) => .double d
  | string text => .text text
  | array items => .sequence (offeredItems items)
  | object members => .mapping (offeredMembers members)

/-- The items that an array offers. -/
def offeredItems : List Json → List Item
  | [] => []
  | item :: rest => item.offered :: offeredItems rest

/-- The members that an object offers. -/
def offeredMembers : List (String × Json) → List (String × Item)
  | [] => []
  | (key, item) :: rest => (key, item.offered) :: offeredMembers rest

end

end Json

namespace Value

/-! ## Values without paths

The reader of trees makes the same decisions as the conversion and only says less about a failure,
so each of its three functions is compared with its counterpart.
-/

mutual

/-- The value that is made without paths is the one that is made with them, and so is the integer
that there is none for. -/
theorem ofTree_eq (path : String) : ∀ json : Json,
    (ofTree json).mapError some = (ofJsonAt path json).mapError ValueError.mismatch?
  | .null | .bool _ | .string _ | .number (.double _ _) => rfl
  | .number (.integer n fits) => by
    rw [ofTree, ofNumber, ofJsonAt]
    -- the one place where a value may be missing
    by_cases hlt : n < Nat.pow 2 63
    · rw [if_pos hlt, if_pos hlt]
      rfl
    · rw [if_neg hlt, if_neg hlt]
      rfl
  | .array items => by
    rw [ofTree, ofJsonAt, mapError_bind, mapError_bind, itemsOfTrees_eq path 0 items]
    rfl
  | .object members => by
    rw [ofTree, ofJsonAt, mapError_bind, mapError_bind, entriesOfTrees_eq path members]
    rfl

theorem itemsOfTrees_eq (path : String) (index : Nat) : ∀ items : List Json,
    (itemsOfTrees items).mapError some =
      (itemsOfJson path index items).mapError ValueError.mismatch?
  | [] => rfl
  | item :: rest => by
    rw [itemsOfTrees, itemsOfJson, mapError_bind, mapError_bind,
      ofTree_eq (indexPath path index) item]
    simp only [mapError_bind, itemsOfTrees_eq path (index + 1) rest]
    rfl

theorem entriesOfTrees_eq (path : String) : ∀ members : List (String × Json),
    (entriesOfTrees members).mapError some =
      (entriesOfJson path members).mapError ValueError.mismatch?
  | [] => rfl
  | (key, item) :: rest => by
    rw [entriesOfTrees, entriesOfJson, mapError_bind, mapError_bind,
      ofTree_eq (keyPath path key) item]
    simp only [mapError_bind, entriesOfTrees_eq path rest]
    rfl

end

/-- **What is made with paths is made without them.** -/
theorem ofTree_of_ofJson {json : Json} {value : Value} (h : ofJson json = .ok value) :
    ofTree json = .ok value := by
  have heq := ofTree_eq "$" json
  rw [show ofJsonAt "$" json = .ok value from h] at heq
  rw [← toOption_eq_some_iff, ← toOption_mapError some, heq]
  rfl

/-- **And what stops one reader stops the other**: the same integer. -/
theorem ofTree_of_tooLarge {json : Json} {path : String} {n : Int}
    (h : ofJson json = .error (.integerOutOfRange path n)) :
    ofTree json = .error (.integerTooLarge n) := by
  have heq := ofTree_eq "$" json
  rw [show ofJsonAt "$" json = .error (.integerOutOfRange path n) from h] at heq
  obtain ⟨mismatch, htree, hmismatch⟩ := mapError_eq_error_iff.1 heq
  rw [htree, Option.some.inj hmismatch]

/-! ## Trees as sources of items

A reader is offered integers in two ways, signed or not, and takes both by their size. It merges the
entries of a mapping, which makes no difference if no key comes twice.
-/

/-- The entries have the keys of the members. -/
theorem keys_entriesOfTrees {members : List (String × Json)} {entries : List (String × Value)}
    (h : entriesOfTrees members = .ok entries) : Entries.keys entries = Entries.keys members := by
  induction members generalizing entries with
  | nil =>
    rw [← Except.ok.inj h]
    rfl
  | cons member rest ih =>
    obtain ⟨key, item⟩ := member
    rw [entriesOfTrees] at h
    -- whatever becomes of the item, the key stays
    obtain ⟨first, -, h⟩ := bind_eq_ok_iff.1 h
    obtain ⟨others, hothers, h⟩ := bind_eq_ok_iff.1 h
    rw [← Except.ok.inj h, Entries.keys_cons, Entries.keys_cons, ih hothers]

/-- An integer is made a value of by its sign and its size alone. -/
theorem ofItem_integer (n : Int) (fits : -Nat.pow 2 63 ≤ n ∧ n < Nat.pow 2 64) :
    ofItem (Json.number (.integer n fits)).offered = ofNumber (.integer n fits) := by
  rw [Json.offered, ofNumber]
  by_cases hneg : n < 0
  · -- below zero it is a signed one, and not too large
    have hlt : n < Nat.pow 2 63 := Int.lt_trans hneg (by decide)
    rw [if_pos hneg, if_pos hlt, ofItem]
  · -- from zero on it is unsigned, and its size is what it was
    have hcast : ((n.toNat : Nat) : Int) = n := Int.toNat_of_nonneg (Int.not_lt.1 hneg)
    have hiff : n.toNat < Nat.pow 2 63 ↔ n < Nat.pow 2 63 := by omega
    rw [if_neg hneg, ofItem, hcast]
    simp only [hiff]

mutual

/-- A reader that is offered the items of a tree makes the value of the tree. -/
theorem ofItem_offered : ∀ json : Json, json.WellFormed → ofItem json.offered = ofTree json
  | .null, _ | .bool _, _ | .string _, _ | .number (.double _ _), _ => rfl
  | .number (.integer n fits), _ => ofItem_integer n fits
  | .array items, h => by
    rw [Json.offered, ofItem, ofTree, ofItems_offered items h]
  | .object members, h => by
    rw [Json.offered, ofItem, ofTree, ofEntries_offered members h.2]
    cases hentries : entriesOfTrees members with
    | error mismatch => rfl
    | ok entries =>
      -- no key comes twice, so there is nothing to merge
      have hkeys : (Entries.keys entries).Nodup := by
        rw [keys_entriesOfTrees hentries]
        exact h.1
      show Except.ok (mapping (Entries.merge entries)) = Except.ok (mapping entries)
      rw [Entries.merge_eq_self hkeys]

theorem ofItems_offered : ∀ items : List Json, Json.ItemsWellFormed items →
    ofItems (Json.offeredItems items) = itemsOfTrees items
  | [], _ => rfl
  | item :: rest, h => by
    rw [Json.offeredItems, ofItems, itemsOfTrees, ofItem_offered item h.1,
      ofItems_offered rest h.2]

theorem ofEntries_offered : ∀ members : List (String × Json), Json.MembersWellFormed members →
    ofEntries (Json.offeredMembers members) = entriesOfTrees members
  | [], _ => rfl
  | (key, item) :: rest, h => by
    rw [Json.offeredMembers, ofEntries, entriesOfTrees, ofItem_offered item h.1,
      ofEntries_offered rest h.2]

end

/-! ## All of them

What remains is to say which trees are taken, and with which value.
-/

/-- **Every reader of trees finds the same value.** Of a tree without an integer above the signed
64-bit range both readers make one value. Otherwise both fail for the first such integer: one names
the way to it, which leads there, the other the integer alone. What the second makes of a tree is
what it makes of the items that the tree offers. And the tree of a value whose doubles are finite is
read back as that value. -/
theorem tree_readers_agree :
    (∀ json : Json,
      (json.Fitting → ∃ value, ofJson json = .ok value ∧ ofTree json = .ok value) ∧
      (¬ json.Fitting → ∃ way n, Json.firstTooLarge? json.integers = some (way, n) ∧
        ofJson json = .error (.integerOutOfRange (Segment.path "$" way) n) ∧
        ofTree json = .error (.integerTooLarge n) ∧
        (json.WellFormed → ∃ fits, json.at? way = some (.number (.integer n fits)))) ∧
      (json.WellFormed → ofItem json.offered = ofTree json)) ∧
    (∀ value : Value, value.AllFinite →
      ∃ json, value.toTree = .ok json ∧ ofTree json = .ok value) := by
  refine ⟨fun json => ⟨?_, ?_, ofItem_offered json⟩, ?_⟩
  · intro hfitting
    obtain ⟨value, hvalue⟩ := (exists_ofJson_iff json).2 hfitting
    exact ⟨value, hvalue, ofTree_of_ofJson hvalue⟩
  · intro hbad
    cases hvalue : ofJson json with
    | ok value => exact absurd ((exists_ofJson_iff json).1 ⟨value, hvalue⟩) hbad
    | error error =>
      -- the conversion stops at the first integer that does not fit, and names its place
      obtain ⟨way, n, hfirst, rfl⟩ := (ofJson_eq_error_iff json error).1 hvalue
      refine ⟨way, n, hfirst, rfl, ofTree_of_tooLarge hvalue, ?_⟩
      intro hkeys
      exact Json.at?_of_mem_integers json hkeys _ (List.mem_of_find?_eq_some hfirst)
  · intro value hfinite
    obtain ⟨json, hjson⟩ := (exists_toJson_iff value).2 hfinite
    exact ⟨json, toTree_of_toJson hjson, ofTree_of_ofJson (ofJson_of_toJson hjson)⟩

/-- Of two integers that are too large the one that stands first stops both readers. -/
example :
    let json : Json := .object
      [("a", .array [.null, .number (.integer (Nat.pow 2 63) (by decide))]),
        ("b", .number (.integer (Nat.pow 2 63 + 1) (by decide)))]
    ofJson json = .error (.integerOutOfRange "$.a[1]" (Nat.pow 2 63)) ∧
      ofTree json = .error (.integerTooLarge (Nat.pow 2 63)) :=
  ⟨rfl, rfl⟩

end Value

end StepRelay
