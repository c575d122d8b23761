import StepRelay.Proofs.RoundTrip

/-!
# Values and trees made of each other

A value has a tree exactly if all its doubles are finite, a tree has a value exactly if no integer
in it is above the signed 64-bit range, and what is made of one is made into it again
(`conversions_inverse`).

A conversion that fails reports the first number that cannot pass. `Value.doubles` and
`Json.integers` list the numbers in the order in which they stand, each with the way to it, so that
the first one is looked up in a list (`failure?_toJsonAt`, `failure?_ofJsonAt`). A loop fails where
the first of its rounds does (`failure?_round`), and a list that is put together of parts has its
first bad item in the first part that has one (`map_first?_under_append`); the two are the same
induction.
-/

namespace StepRelay

/-! ## The first failure

A conversion goes on until something fails. So of two parts the failure of the first counts, and
that of the second only if there is none.
-/

/-- What a computation fails with, if it fails. -/
def failure? {ε α : Type} : Except ε α → Option ε
  | .ok _ => none
  | .error e => some e

section Failure

variable {ε α β γ : Type}

/-- A computation has a failure exactly if it fails with it. -/
theorem failure?_eq_some_iff {x : Except ε α} {e : ε} : failure? x = some e ↔ x = .error e := by
  cases x <;> simp [failure?]

/-- It has none exactly if it gives a result. -/
theorem failure?_eq_none_iff {x : Except ε α} : failure? x = none ↔ ∃ a, x = .ok a := by
  cases x <;> simp [failure?]

/-- A round that is followed by others fails, or else the others do. -/
theorem failure?_round (x : Except ε α) (more : Except ε β) (add : α → β → γ) :
    failure? (x >>= fun a => more >>= fun b => pure (add a b)) =
      (failure? x).or (failure? more) := by
  cases x with
  | error e => rfl
  | ok a => cases more <;> rfl

/-- What is done with the result does not fail. -/
theorem failure?_bind_pure (x : Except ε α) (f : α → β) :
    failure? (x >>= fun a => pure (f a)) = failure? x := by
  cases x <;> rfl

end Failure

/-! ## Ways

A way is the list of segments from a value to something in it. Reports carry it as a path, which
grows at its end as the conversion goes down, while the way of a find grows at its front as the walk
comes back up. The lemmas relate the two.
-/

namespace Segment

/-- How a segment is written in a path. -/
def text : Segment → String
  | index i => "[" ++ toString i ++ "]"
  | key name => "." ++ name

/-- The path that begins with `start` and goes on along a way. -/
def path (start : String) (way : List Segment) : String := start ++ String.join (way.map text)

/-- A way that goes nowhere leaves the path at its start. -/
theorem path_nil (start : String) : path start [] = start := by
  rw [path, List.map_nil, String.join_nil, String.append_empty]

/-- The first segment of a way belongs to the path as well as to the way. -/
theorem path_cons (start : String) (segment : Segment) (way : List Segment) :
    path start (segment :: way) = path (start ++ segment.text) way := by
  rw [path, path, List.map_cons, String.join_cons, String.append_assoc]

end Segment

/-- What was met on a walk through a value or a tree, each thing with the way to it. -/
abbrev Finds (α : Type) := List (List Segment × α)

namespace Finds

variable {α β : Type}

/-- The finds of a walk that has begun one segment further out. -/
def under (segment : Segment) (finds : Finds α) : Finds α :=
  finds.map fun find => (segment :: find.1, find.2)

/-- The first find of a kind. -/
def first? (bad : α → Bool) (finds : Finds α) : Option (List Segment × α) :=
  finds.find? fun find => bad find.2

/-- Nothing bad was found if nothing was in either part. -/
theorem first?_eq_none_append_iff {bad : α → Bool} {segment : Segment} {finds others : Finds α} :
    first? bad (under segment finds ++ others) = none ↔
      first? bad finds = none ∧ first? bad others = none := by
  simp [first?, under]

/-- What is reported of the first bad find: it is in the front part, or there is none in it. -/
theorem map_first?_under_append {bad : α → Bool} {report inner : List Segment × α → β}
    {segment : Segment} (h : ∀ way a, report (segment :: way, a) = inner (way, a))
    (finds others : Finds α) :
    (first? bad (under segment finds ++ others)).map report =
      ((first? bad finds).map inner).or ((first? bad others).map report) := by
  -- in the front part only the ways are one segment longer
  have hunder : (first? bad (under segment finds)).map report = (first? bad finds).map inner := by
    rw [first?, under, List.find?_map, Option.map_map, first?]
    congr 1
    funext find
    exact h find.1 find.2
  rw [← hunder, ← Option.map_or, first?, first?, first?, List.find?_append]

/-- A find one segment further out is a find with that segment in front of its way. -/
theorem mem_under_iff {segment : Segment} {finds : Finds α} {find : List Segment × α} :
    find ∈ under segment finds ↔ ∃ way, find.1 = segment :: way ∧ (way, find.2) ∈ finds := by
  obtain ⟨way, a⟩ := find
  simp only [under, List.mem_map, Prod.mk.injEq]
  constructor
  · rintro ⟨inner, hinner, rfl, rfl⟩
    exact ⟨inner.1, rfl, hinner⟩
  · rintro ⟨inner, rfl, hinner⟩
    exact ⟨_, hinner, rfl, rfl⟩

end Finds

/-! ## From values to trees

The walk `doubles` lists all doubles of a value with their ways, in the order in which the
conversion meets them. Then the first failure of the conversion is the first bad find of the walk.
-/

namespace Value

mutual

/-- The doubles of a value in the order in which they stand: a sequence is walked through from its
first item to its last, a mapping in the order of its entries, each item to its bottom before the
next. -/
def doubles : Value → Finds Double
  | float d => [([], d)]
  | sequence items => doublesOfItems 0 items
  | mapping entries => doublesOfEntries entries
  | _ => []

/-- The doubles of the items from `index` on of a sequence. -/
def doublesOfItems (index : Nat) : List Value → Finds Double
  | [] => []
  | item :: rest => .under (.index index) item.doubles ++ doublesOfItems (index + 1) rest

/-- The doubles of the entries of a mapping. -/
def doublesOfEntries : List (String × Value) → Finds Double
  | [] => []
  | (key, item) :: rest => .under (.key key) item.doubles ++ doublesOfEntries rest

end

/-- The first double of some finds that is not finite. -/
abbrev firstNonFinite? : Finds Double → Option (List Segment × Double) :=
  Finds.first? fun d => !d.isFinite

mutual

/-- No double of a value is bad exactly if all are finite. The recursion is that of the walk. -/
theorem firstNonFinite?_eq_none_iff :
    ∀ value : Value, firstNonFinite? value.doubles = none ↔ value.AllFinite
  | null | bool _ | int _ | string _ => iff_of_true rfl trivial
  | float d => by simp [doubles, Finds.first?, AllFinite]
  | sequence items => firstNonFinite?_items_eq_none_iff 0 items
  | mapping entries => firstNonFinite?_entries_eq_none_iff entries

theorem firstNonFinite?_items_eq_none_iff (index : Nat) :
    ∀ items, firstNonFinite? (doublesOfItems index items) = none ↔ ItemsAllFinite items
  | [] => iff_of_true rfl trivial
  | item :: rest => by
    rw [doublesOfItems, Finds.first?_eq_none_append_iff, firstNonFinite?_eq_none_iff item,
      firstNonFinite?_items_eq_none_iff (index + 1) rest, ItemsAllFinite]

theorem firstNonFinite?_entries_eq_none_iff :
    ∀ entries, firstNonFinite? (doublesOfEntries entries) = none ↔ EntriesAllFinite entries
  | [] => iff_of_true rfl trivial
  | (key, item) :: rest => by
    rw [doublesOfEntries, Finds.first?_eq_none_append_iff, firstNonFinite?_eq_none_iff item,
      firstNonFinite?_entries_eq_none_iff rest, EntriesAllFinite]

end

/-- The report of a double, seen from where the value stands. -/
def reportNonFinite (path : String) (find : List Segment × Double) : ValueError :=
  .nonFinite (Segment.path path find.1) find.2

/-- The report of a find is the same from further in, with the path that leads there. -/
theorem reportNonFinite_cons (path : String) (segment : Segment) (way : List Segment) (d : Double) :
    reportNonFinite path (segment :: way, d) = reportNonFinite (path ++ segment.text) (way, d) := by
  rw [reportNonFinite, reportNonFinite, Segment.path_cons]

/-- The path to an item, with its segment at the end. -/
theorem indexPath_eq (path : String) (index : Nat) :
    indexPath path index = path ++ (Segment.index index).text := by
  rw [indexPath, Segment.text, String.append_assoc, String.append_assoc, String.append_assoc]

/-- The path to an entry, with its segment at the end. -/
theorem keyPath_eq (path key : String) : keyPath path key = path ++ (Segment.key key).text := by
  rw [keyPath, Segment.text, String.append_assoc]

mutual

/-- A conversion fails with the first double that is not finite, whose place it names. -/
theorem failure?_toJsonAt (path : String) : ∀ value : Value,
    failure? (toJsonAt path value) = (firstNonFinite? value.doubles).map (reportNonFinite path)
  | null | bool _ | int _ | string _ => rfl
  | float d => by
    rw [toJsonAt, doubles, firstNonFinite?, Finds.first?, List.find?_cons]
    -- the walk has come to a double, and the way to it is empty
    by_cases hfinite : d.isFinite = true
    · rw [dif_pos hfinite, hfinite]
      rfl
    · rw [dif_neg hfinite, Bool.eq_false_iff.2 hfinite, Bool.not_false, Option.map_some,
        reportNonFinite, Segment.path_nil]
      rfl
  | sequence items => by
    rw [toJsonAt, failure?_bind_pure, failure?_itemsToJson path 0 items]
    rfl
  | mapping entries => by
    rw [toJsonAt, failure?_bind_pure, failure?_entriesToJson path entries]
    rfl

/-- Of the items the first that fails decides. -/
theorem failure?_itemsToJson (path : String) (index : Nat) : ∀ items : List Value,
    failure? (itemsToJson path index items) =
      (firstNonFinite? (doublesOfItems index items)).map (reportNonFinite path)
  | [] => rfl
  | item :: rest => by
    rw [itemsToJson, failure?_round, failure?_toJsonAt (indexPath path index) item,
      failure?_itemsToJson path (index + 1) rest, indexPath_eq, doublesOfItems,
      Finds.map_first?_under_append (reportNonFinite_cons path (.index index))]

/-- Of the entries the first that fails decides. -/
theorem failure?_entriesToJson (path : String) : ∀ entries : List (String × Value),
    failure? (entriesToJson path entries) =
      (firstNonFinite? (doublesOfEntries entries)).map (reportNonFinite path)
  | [] => rfl
  | (key, item) :: rest => by
    rw [entriesToJson, failure?_round, failure?_toJsonAt (keyPath path key) item,
      failure?_entriesToJson path rest, keyPath_eq, doublesOfEntries,
      Finds.map_first?_under_append (reportNonFinite_cons path (.key key))]

end

/-- Only a double that is not finite keeps a value from having a tree. -/
theorem exists_toJson_iff (value : Value) :
    (∃ json, value.toJson = .ok json) ↔ value.AllFinite := by
  rw [← firstNonFinite?_eq_none_iff, ← failure?_eq_none_iff, toJson, failure?_toJsonAt,
    Option.map_eq_none_iff]

/-! ### Where the ways lead -/

mutual

theorem at?_of_mem_doubles : ∀ value : Value, value.WellFormed →
    ∀ find ∈ value.doubles, value.at? find.1 = some (.float find.2)
  | null, _, _, h | bool _, _, _, h | int _, _, _, h | string _, _, _, h => nomatch h
  | float d, _, find, h => by
    rw [List.mem_singleton.1 h]
    rfl
  | sequence items, hkeys, find, h => by
    obtain ⟨i, way, item, hfind, hitem, hat⟩ := at?_of_mem_doublesOfItems 0 items hkeys find h
    rw [hfind, Nat.zero_add]
    exact Option.bind_eq_some_iff.2 ⟨item, hitem, hat⟩
  | mapping entries, hkeys, find, h => by
    obtain ⟨entry, hentry, way, hfind, hat⟩ := at?_of_mem_doublesOfEntries entries hkeys.2 find h
    rw [hfind]
    exact Option.bind_eq_some_iff.2 ⟨entry.2, Entries.get?_of_mem hkeys.1 hentry, hat⟩

/-- In a sequence the way begins with the place of the item. The recursion counts that place from
the item it has come to. -/
theorem at?_of_mem_doublesOfItems (index : Nat) : ∀ items : List Value, ItemsWellFormed items →
    ∀ find ∈ doublesOfItems index items, ∃ i way item, find.1 = .index (index + i) :: way ∧
      items[i]? = some item ∧ item.at? way = some (.float find.2)
  | [], _, _, h => nomatch h
  | item :: rest, hkeys, find, h => by
    -- it is in the item that comes first, or in one of the others
    rcases List.mem_append.1 h with hfirst | hrest
    · obtain ⟨way, hway, hmem⟩ := Finds.mem_under_iff.1 hfirst
      exact ⟨0, way, item, hway, rfl, at?_of_mem_doubles item hkeys.1 _ hmem⟩
    · obtain ⟨i, way, other, hway, hother, hat⟩ :=
        at?_of_mem_doublesOfItems (index + 1) rest hkeys.2 find hrest
      refine ⟨i + 1, way, other, ?_, hother, hat⟩
      rw [hway, Nat.add_assoc, Nat.add_comm 1 i]

/-- In a mapping it begins with the key of the entry. -/
theorem at?_of_mem_doublesOfEntries : ∀ entries : List (String × Value),
    EntriesWellFormed entries → ∀ find ∈ doublesOfEntries entries, ∃ entry ∈ entries,
      ∃ way, find.1 = .key entry.1 :: way ∧ entry.2.at? way = some (.float find.2)
  | [], _, _, h => nomatch h
  | (key, item) :: rest, hkeys, find, h => by
    rcases List.mem_append.1 h with hfirst | hrest
    · obtain ⟨way, hway, hmem⟩ := Finds.mem_under_iff.1 hfirst
      exact ⟨(key, item), List.mem_cons_self, way, hway, at?_of_mem_doubles item hkeys.1 _ hmem⟩
    · obtain ⟨entry, hentry, way, hway, hat⟩ :=
        at?_of_mem_doublesOfEntries rest hkeys.2 find hrest
      exact ⟨entry, List.mem_cons_of_mem _ hentry, way, hway, hat⟩

end

end Value

/-! ## From trees to values

The same for the other direction, with integers in the place of doubles: one that is above the
signed 64-bit range has no value.
-/

namespace Json

/-- What stands at a segment of a way. -/
def child? : Json → Segment → Option Json
  | array items, .index index => items[index]?
  | object members, .key name => Entries.get? members name
  | _, _ => none

/-- What a way leads to. -/
def at? (json : Json) : List Segment → Option Json
  | [] => some json
  | segment :: rest => (json.child? segment).bind fun child => child.at? rest

mutual

/-- The integers of a tree in the order in which they stand. -/
def integers : Json → Finds Int
  | number (.integer n _) => [([], n)]
  | array items => integersOfItems 0 items
  | object members => integersOfMembers members
  | _ => []

/-- The integers of the items from `index` on of an array. -/
def integersOfItems (index : Nat) : List Json → Finds Int
  | [] => []
  | item :: rest => .under (.index index) item.integers ++ integersOfItems (index + 1) rest

/-- The integers of the members of an object. -/
def integersOfMembers : List (String × Json) → Finds Int
  | [] => []
  | (key, item) :: rest => .under (.key key) item.integers ++ integersOfMembers rest

end

/-- The first integer of some finds that is above the signed 64-bit range. -/
abbrev firstTooLarge? : Finds Int → Option (List Segment × Int) :=
  Finds.first? fun n => Nat.pow 2 63 ≤ n

mutual

/-- The way to an integer leads to it. -/
theorem at?_of_mem_integers : ∀ json : Json, json.WellFormed →
    ∀ find ∈ json.integers, ∃ fits, json.at? find.1 = some (.number (.integer find.2 fits))
  | null, _, _, h | bool _, _, _, h | number (.double _ _), _, _, h | string _, _, _, h => nomatch h
  | number (.integer n fits), _, find, h => by
    -- the integer is the whole tree, at the empty way
    rw [List.mem_singleton.1 h]
    exact ⟨fits, rfl⟩
  | array items, hkeys, find, h => by
    obtain ⟨i, way, item, hfind, hitem, fits, hat⟩ :=
      at?_of_mem_integersOfItems 0 items hkeys find h
    rw [hfind, Nat.zero_add]
    -- the first step of the way leads to an item, the rest is in there
    exact ⟨fits, Option.bind_eq_some_iff.2 ⟨item, hitem, hat⟩⟩
  | object members, hkeys, find, h => by
    obtain ⟨member, hmember, way, hfind, fits, hat⟩ :=
      at?_of_mem_integersOfMembers members hkeys.2 find h
    rw [hfind]
    -- a key leads to its member only because no other member has it
    exact ⟨fits, Option.bind_eq_some_iff.2
      ⟨member.2, Entries.get?_of_mem hkeys.1 hmember, hat⟩⟩

/-- In an array the way begins with the place of the item, counted from the item the recursion has
come to. -/
theorem at?_of_mem_integersOfItems (index : Nat) : ∀ items : List Json, ItemsWellFormed items →
    ∀ find ∈ integersOfItems index items, ∃ i way item, find.1 = .index (index + i) :: way ∧
      items[i]? = some item ∧ ∃ fits, item.at? way = some (.number (.integer find.2 fits))
  | [], _, _, h => nomatch h
  | item :: rest, hkeys, find, h => by
    -- it is in the item that comes first, or in one of the others
    rcases List.mem_append.1 h with hfirst | hrest
    · obtain ⟨way, hway, hmem⟩ := Finds.mem_under_iff.1 hfirst
      exact ⟨0, way, item, hway, rfl, at?_of_mem_integers item hkeys.1 _ hmem⟩
    · obtain ⟨i, way, other, hway, hother, hat⟩ :=
        at?_of_mem_integersOfItems (index + 1) rest hkeys.2 find hrest
      refine ⟨i + 1, way, other, ?_, hother, hat⟩
      rw [hway, Nat.add_assoc, Nat.add_comm 1 i]

/-- In an object it begins with the name of the member. -/
theorem at?_of_mem_integersOfMembers : ∀ members : List (String × Json),
    MembersWellFormed members → ∀ find ∈ integersOfMembers members, ∃ member ∈ members,
      ∃ way, find.1 = .key member.1 :: way ∧
        ∃ fits, member.2.at? way = some (.number (.integer find.2 fits))
  | [], _, _, h => nomatch h
  | (key, item) :: rest, hkeys, find, h => by
    rcases List.mem_append.1 h with hfirst | hrest
    · obtain ⟨way, hway, hmem⟩ := Finds.mem_under_iff.1 hfirst
      exact ⟨(key, item), List.mem_cons_self, way, hway, at?_of_mem_integers item hkeys.1 _ hmem⟩
    · obtain ⟨member, hmember, way, hway, hat⟩ :=
        at?_of_mem_integersOfMembers rest hkeys.2 find hrest
      exact ⟨member, List.mem_cons_of_mem _ hmember, way, hway, hat⟩

end

end Json

namespace Value

/-- The report of an integer, seen from where the tree stands. -/
def reportTooLarge (path : String) (find : List Segment × Int) : ValueError :=
  .integerOutOfRange (Segment.path path find.1) find.2

/-- The report of a find is the same from further in, with the path that leads there. -/
theorem reportTooLarge_cons (path : String) (segment : Segment) (way : List Segment) (n : Int) :
    reportTooLarge path (segment :: way, n) = reportTooLarge (path ++ segment.text) (way, n) := by
  rw [reportTooLarge, reportTooLarge, Segment.path_cons]

mutual

/-- A conversion fails with the first integer that is too large, whose place it names. -/
theorem failure?_ofJsonAt (path : String) : ∀ json : Json,
    failure? (ofJsonAt path json) = (Json.firstTooLarge? json.integers).map (reportTooLarge path)
  | .null | .bool _ | .number (.double _ _) | .string _ => rfl
  | .number (.integer n fits) => by
    rw [ofJsonAt, Json.integers, Json.firstTooLarge?, Finds.first?, List.find?_cons]
    -- the walk has come to an integer, and the way to it is empty
    by_cases hlt : n < Nat.pow 2 63
    · rw [if_pos hlt, decide_eq_false (Int.not_le.2 hlt)]
      rfl
    · rw [if_neg hlt, decide_eq_true (Int.not_lt.1 hlt), Option.map_some, reportTooLarge,
        Segment.path_nil]
      rfl
  | .array items => by
    rw [ofJsonAt, failure?_bind_pure, failure?_itemsOfJson path 0 items]
    rfl
  | .object members => by
    rw [ofJsonAt, failure?_bind_pure, failure?_entriesOfJson path members]
    rfl

/-- Of the items the first that fails decides. -/
theorem failure?_itemsOfJson (path : String) (index : Nat) : ∀ items : List Json,
    failure? (itemsOfJson path index items) =
      (Json.firstTooLarge? (Json.integersOfItems index items)).map (reportTooLarge path)
  | [] => rfl
  | item :: rest => by
    rw [itemsOfJson, failure?_round, failure?_ofJsonAt (indexPath path index) item,
      failure?_itemsOfJson path (index + 1) rest, indexPath_eq, Json.integersOfItems,
      Finds.map_first?_under_append (reportTooLarge_cons path (.index index))]

/-- Of the members the first that fails decides. -/
theorem failure?_entriesOfJson (path : String) : ∀ members : List (String × Json),
    failure? (entriesOfJson path members) =
      (Json.firstTooLarge? (Json.integersOfMembers members)).map (reportTooLarge path)
  | [] => rfl
  | (key, item) :: rest => by
    rw [entriesOfJson, failure?_round, failure?_ofJsonAt (keyPath path key) item,
      failure?_entriesOfJson path rest, keyPath_eq, Json.integersOfMembers,
      Finds.map_first?_under_append (reportTooLarge_cons path (.key key))]

end

/-- Only an integer above the signed 64-bit range keeps a tree from having a value. -/
theorem exists_ofJson_iff (json : Json) : (∃ value, ofJson json = .ok value) ↔ json.Fitting := by
  rw [← Json.build?_isSome_iff .mapping json, Option.isSome_iff_exists]
  refine exists_congr fun value => ?_
  rw [ofJson, ← toOption_eq_some_iff, Json.ofJsonAt_toOption]
  rfl

/-! ## There and back

One direction is a recursion over the tree that was converted. For the other a value that can be
converted has a tree that mirrors it, and the conversion gives that tree.
-/

/-- A number that fits is the number of the integer that it is made into. -/
theorem intNumber_ofInt {n : Int} (fits : -Nat.pow 2 63 ≤ n ∧ n < Nat.pow 2 64)
    (h : n < Nat.pow 2 63) : intNumber (.ofInt n) = .integer n fits := by
  have hvalue : (Int64.ofInt n).toInt = n := Int64.toInt_ofInt_of_le fits.1 h
  simp only [intNumber, hvalue]

mutual

/-- What is made of a tree is made into that tree again. -/
theorem toJson_of_ofJsonAt : ∀ (json : Json) {path : String} {value : Value},
    ofJsonAt path json = .ok value → ∀ path', toJsonAt path' value = .ok json
  | .null, _, _, h, _ | .bool _, _, _, h, _ | .string _, _, _, h, _ => by
    rw [← Except.ok.inj h]
    rfl
  | .number (.double d finite), _, _, h, _ => by
    rw [← Except.ok.inj h, toJsonAt, dif_pos finite]
  | .number (.integer n fits), _, _, h, _ => by
    rw [ofJsonAt] at h
    split at h
    · -- an integer that was taken fits, so no digit of it was lost
      next hlt =>
      rw [← Except.ok.inj h, toJsonAt, intNumber_ofInt fits hlt]
    · cases h
  | .array items, _, _, h, path' => by
    rw [ofJsonAt] at h
    obtain ⟨values, hvalues, h⟩ := bind_eq_ok_iff.1 h
    rw [← Except.ok.inj h, toJsonAt, itemsToJson_of_itemsOfJson items hvalues path' 0]
    rfl
  | .object members, _, _, h, path' => by
    rw [ofJsonAt] at h
    obtain ⟨entries, hentries, h⟩ := bind_eq_ok_iff.1 h
    rw [← Except.ok.inj h, toJsonAt, entriesToJson_of_entriesOfJson members hentries path']
    rfl

/-- So are the items of an array, whatever paths the two conversions carry along. -/
theorem itemsToJson_of_itemsOfJson : ∀ (items : List Json) {path : String} {index : Nat}
    {values : List Value}, itemsOfJson path index items = .ok values →
      ∀ path' index', itemsToJson path' index' values = .ok items
  | [], _, _, _, h, _, _ => by
    rw [← Except.ok.inj h]
    rfl
  | item :: rest, _, _, _, h, path', index' => by
    rw [itemsOfJson] at h
    obtain ⟨first, hfirst, h⟩ := bind_eq_ok_iff.1 h
    obtain ⟨others, hothers, h⟩ := bind_eq_ok_iff.1 h
    rw [← Except.ok.inj h, itemsToJson, toJson_of_ofJsonAt item hfirst,
      itemsToJson_of_itemsOfJson rest hothers path' (index' + 1)]
    rfl

theorem entriesToJson_of_entriesOfJson : ∀ (members : List (String × Json)) {path : String}
    {entries : List (String × Value)}, entriesOfJson path members = .ok entries →
      ∀ path', entriesToJson path' entries = .ok members
  | [], _, _, h, _ => by
    rw [← Except.ok.inj h]
    rfl
  | (key, item) :: rest, _, _, h, path' => by
    rw [entriesOfJson] at h
    obtain ⟨first, hfirst, h⟩ := bind_eq_ok_iff.1 h
    obtain ⟨others, hothers, h⟩ := bind_eq_ok_iff.1 h
    rw [← Except.ok.inj h, entriesToJson, toJson_of_ofJsonAt item hfirst,
      entriesToJson_of_entriesOfJson rest hothers path']
    rfl

end

/-- What is made of a value is made into that value again: the tree of a value that has one mirrors
it. -/
theorem ofJson_of_toJson {value : Value} {json : Json} (h : value.toJson = .ok json) :
    ofJson json = .ok value := by
  obtain ⟨tree, hmirrors⟩ := exists_tree value ((exists_toJson_iff value).1 ⟨json, h⟩)
  have hsame : json = tree := Except.ok.inj (h.symm.trans (hmirrors.tree "$"))
  rw [ofJson, ← toOption_eq_some_iff, Json.ofJsonAt_toOption, hsame, hmirrors.back]

/-- **What a value is refused for** is its first double that is not finite. -/
theorem toJson_eq_error_iff (value : Value) (error : ValueError) :
    value.toJson = .error error ↔ ∃ way d, firstNonFinite? value.doubles = some (way, d) ∧
      error = .nonFinite (Segment.path "$" way) d := by
  rw [← failure?_eq_some_iff, toJson, failure?_toJsonAt, Option.map_eq_some_iff, Prod.exists]
  simp only [reportNonFinite, eq_comm]

/-- **What a tree is refused for** is its first integer that is too large. -/
theorem ofJson_eq_error_iff (json : Json) (error : ValueError) :
    ofJson json = .error error ↔ ∃ way n, Json.firstTooLarge? json.integers = some (way, n) ∧
      error = .integerOutOfRange (Segment.path "$" way) n := by
  rw [← failure?_eq_some_iff, ofJson, failure?_ofJsonAt, Option.map_eq_some_iff, Prod.exists]
  simp only [reportTooLarge, eq_comm]

/-- **The two conversions are inverse to each other** where they are defined. A value has a tree
exactly if all its doubles are finite, and the tree has that value again; a tree has a value exactly
if no integer in it is above the signed 64-bit range, and the value has that tree again. Otherwise
the first offending number is reported with the path to it, and the way that the path spells leads
to that number. -/
theorem conversions_inverse :
    (∀ value : Value,
      ((∃ json, value.toJson = .ok json) ↔ value.AllFinite) ∧
      (∀ json, value.toJson = .ok json → ofJson json = .ok value) ∧
      (∀ error, value.toJson = .error error ↔
        ∃ way d, firstNonFinite? value.doubles = some (way, d) ∧
          error = .nonFinite (Segment.path "$" way) d) ∧
      (value.WellFormed → ∀ way d, firstNonFinite? value.doubles = some (way, d) →
        value.at? way = some (.float d))) ∧
    (∀ json : Json,
      ((∃ value, ofJson json = .ok value) ↔ json.Fitting) ∧
      (∀ value, ofJson json = .ok value → value.toJson = .ok json) ∧
      (∀ error, ofJson json = .error error ↔
        ∃ way n, Json.firstTooLarge? json.integers = some (way, n) ∧
          error = .integerOutOfRange (Segment.path "$" way) n) ∧
      (json.WellFormed → ∀ way n, Json.firstTooLarge? json.integers = some (way, n) →
        ∃ fits, json.at? way = some (.number (.integer n fits)))) := by
  refine ⟨fun value => ⟨exists_toJson_iff value, fun json => ofJson_of_toJson,
    toJson_eq_error_iff value, fun hkeys way d hfirst => ?_⟩, fun json => ⟨exists_ofJson_iff json,
    fun value hvalue => toJson_of_ofJsonAt json hvalue "$", ofJson_eq_error_iff json,
    fun hkeys way n hfirst => ?_⟩⟩
  · exact at?_of_mem_doubles value hkeys _ (List.mem_of_find?_eq_some hfirst)
  · exact Json.at?_of_mem_integers json hkeys _ (List.mem_of_find?_eq_some hfirst)

/-- Of two doubles that are not finite the one that stands first is reported. -/
example :
    toJson (.mapping [("a", .sequence [.null, .float (.infinity true)]), ("b", .float .nan)]) =
      .error (.nonFinite "$.a[1]" (.infinity true)) :=
  rfl

end Value

end StepRelay
