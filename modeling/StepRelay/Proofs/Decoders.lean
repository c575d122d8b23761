import StepRelay.Proofs.RawTree
import StepRelay.Value.Text

/-!
# Two decoders of one text

`Value.read` looks at each integer where it stands in the text. `Value.decode` looks at the integers
of the finished tree, and there a member is gone if its key comes again. On the raw tree the two
differ in nothing else: `read` takes a text exactly if every integer of the raw tree fits, `decode`
exactly if every integer fits that is left when repeated keys are merged, and where `read` has a
value `decode` has the same one (`decoders_agree`). They part on a text whose dropped member holds
an integer above the signed 64-bit range (`decoders_part`).
-/

namespace StepRelay

namespace Json

/-! ## What is left of a raw tree

The parser merges each object as it finishes it, so a member whose key comes again is gone before
anyone sees the tree. `merged` says which tree is left.
-/

mutual

/-- The raw tree with the repeated keys of every object merged. -/
def merged : Json → Json
  | array items => array (mergedItems items)
  | object members => object (Entries.merge (mergedMembers members))
  | json => json

/-- The items of an array, each of them merged. -/
def mergedItems : List Json → List Json
  | [] => []
  | item :: rest => item.merged :: mergedItems rest

/-- The members of an object, each item merged, with all its keys still there. -/
def mergedMembers : List (String × Json) → List (String × Json)
  | [] => []
  | (key, item) :: rest => (key, item.merged) :: mergedMembers rest

end

mutual

/-- No integer in the tree is above the signed 64-bit range. -/
def Fitting : Json → Prop
  | number (.integer n _) => n < Nat.pow 2 63
  | array items => ItemsFitting items
  | object members => MembersFitting members
  | _ => True

/-- All items of an array fit. -/
def ItemsFitting : List Json → Prop
  | [] => True
  | item :: rest => item.Fitting ∧ ItemsFitting rest

/-- All members of an object fit. -/
def MembersFitting : List (String × Json) → Prop
  | [] => True
  | (_, item) :: rest => item.Fitting ∧ MembersFitting rest

end

mutual

/-- Where no key repeats there is nothing to merge. -/
theorem merged_of_wellFormed : ∀ json : Json, json.WellFormed → json.merged = json
  | null, _ | bool _, _ | number _, _ | string _, _ => rfl
  | array items, h => congrArg array (mergedItems_of_wellFormed items h)
  | object members, h => by
    have hmembers := mergedMembers_of_wellFormed members h.2
    have hmerge : Entries.merge members = members := Entries.merge_eq_self h.1
    rw [merged, hmembers, hmerge]

theorem mergedItems_of_wellFormed : ∀ items, ItemsWellFormed items → mergedItems items = items
  | [], _ => rfl
  | item :: rest, h => by
    rw [mergedItems, merged_of_wellFormed item h.1, mergedItems_of_wellFormed rest h.2]

theorem mergedMembers_of_wellFormed :
    ∀ members, MembersWellFormed members → mergedMembers members = members
  | [], _ => rfl
  | (key, item) :: rest, h => by
    rw [mergedMembers, merged_of_wellFormed item h.1, mergedMembers_of_wellFormed rest h.2]

end

mutual

/-- **The parser's own builder** makes the merged tree of every raw tree: it merges the members of
an object when the object is finished, as `merged` does. Nothing makes it fail. -/
theorem build?_treeBuilder : ∀ json : Json, build? treeBuilder json = some json.merged
  | null | bool _ | number _ | string _ => rfl
  | array items => by
    rw [build?, buildItems?_treeBuilder items]
    rfl
  | object members => by
    rw [build?, buildMembers?_treeBuilder members]
    rfl

/-- It makes the merged items of every array. -/
theorem buildItems?_treeBuilder :
    ∀ items, buildItems? treeBuilder items = some (mergedItems items)
  | [] => rfl
  | item :: rest => by
    rw [buildItems?, build?_treeBuilder item, buildItems?_treeBuilder rest]
    rfl

theorem buildMembers?_treeBuilder :
    ∀ members, buildMembers? treeBuilder members = some (mergedMembers members)
  | [] => rfl
  | (key, item) :: rest => by
    rw [buildMembers?, build?_treeBuilder item, buildMembers?_treeBuilder rest]
    rfl

end

/-- The parser's tree is the raw tree, merged. -/
theorem parse_toOption (text : String) :
    (parse text).toOption = (parseRaw text).toOption.map merged := by
  rw [parse, readWhole?_builds treeBuilder text]
  cases (parseRaw text).toOption with
  | none => rfl
  | some raw => exact build?_treeBuilder raw

/-! ## Builders of values

Both decoders are builders over the raw tree. They differ in whether members are merged before their
items are looked at, or behind it.
-/

/-- Makes values; `finish` says what becomes of the members of an object. -/
def finishing (finish : List (String × Value) → Value) : Builder Value :=
  { Value.builder with object := finish }

/-- Makes values of a tree as it is, repeated keys included. -/
def plainBuilder : Builder Value := finishing .mapping

mutual

/-- Converting a tree is building a value from it, but for what is said of a failure: the path,
which the conversion carries along, has no part in the result. -/
theorem ofJsonAt_toOption (path : String) :
    ∀ json : Json, (Value.ofJsonAt path json).toOption = build? plainBuilder json
  | null | bool _ | number (.double _ _) | string _ => rfl
  | number (.integer n fits) => by
    change _ = (Value.ofNumber (.integer n fits)).toOption
    rw [Value.ofJsonAt, Value.ofNumber]
    split <;> rfl
  | array items => by
    rw [Value.ofJsonAt, build?, toOption_bind, itemsOfJson_toOption path 0 items]
    exact Option.map_eq_bind.symm
  | object members => by
    rw [Value.ofJsonAt, build?, toOption_bind, entriesOfJson_toOption path members]
    exact Option.map_eq_bind.symm

theorem itemsOfJson_toOption (path : String) (index : Nat) :
    ∀ items, (Value.itemsOfJson path index items).toOption = buildItems? plainBuilder items
  | [] => rfl
  | item :: rest => by
    rw [Value.itemsOfJson, buildItems?, toOption_bind, ofJsonAt_toOption _ item]
    congr 1
    funext first
    rw [toOption_bind, itemsOfJson_toOption path (index + 1) rest]
    exact Option.map_eq_bind.symm

theorem entriesOfJson_toOption (path : String) :
    ∀ members, (Value.entriesOfJson path members).toOption = buildMembers? plainBuilder members
  | [] => rfl
  | (key, item) :: rest => by
    rw [Value.entriesOfJson, buildMembers?, toOption_bind, ofJsonAt_toOption _ item]
    congr 1
    funext first
    rw [toOption_bind, entriesOfJson_toOption path rest]
    exact Option.map_eq_bind.symm

end

/-- **One decoder** builds a value from what is left of the raw tree. -/
theorem decode_toOption (text : String) :
    (Value.decode text).toOption =
      (parseRaw text).toOption.bind fun raw => build? plainBuilder raw.merged := by
  have hjson : (Value.decode text).toOption =
      (parse text).toOption.bind fun json => (Value.ofJson json).toOption := by
    rw [Value.decode]
    cases parse text <;> rfl
  rw [hjson, parse_toOption, Option.bind_map]
  congr 1
  funext raw
  exact ofJsonAt_toOption "$" raw.merged

/-- **The other decoder** builds it from the raw tree itself, and merges as it goes. -/
theorem read_toOption (text : String) :
    (Value.read text).toOption = (parseRaw text).toOption.bind (build? Value.builder) :=
  readWhole?_builds Value.builder text

/-! ## Which trees have a value

Only an integer can be refused, and every integer of the tree that the builder sees is looked at.
-/

/-- A number becomes a value if it fits; every double does. -/
theorem ofNumber_isSome_iff (n : Number) :
    (Value.ofNumber n).toOption.isSome = true ↔ (number n).Fitting := by
  cases n with
  | integer n fits =>
    rw [Value.ofNumber, Fitting]
    split
    · next h => exact iff_of_true rfl h
    · next h => exact iff_of_false (by simp [Except.toOption]) h
  | double d finite => exact iff_of_true rfl trivial

mutual

/-- **A tree has a value exactly if all its integers fit**, whatever is made of the members of an
object. -/
theorem build?_isSome_iff (finish : List (String × Value) → Value) :
    ∀ json : Json, (build? (finishing finish) json).isSome = true ↔ json.Fitting
  | null | bool _ | string _ => iff_of_true rfl trivial
  | number n => ofNumber_isSome_iff n
  | array items => by
    rw [build?, Option.isSome_map]
    exact buildItems?_isSome_iff finish items
  | object members => by
    rw [build?, Option.isSome_map]
    exact buildMembers?_isSome_iff finish members

/-- An array has one if all its items have. -/
theorem buildItems?_isSome_iff (finish : List (String × Value) → Value) :
    ∀ items, (buildItems? (finishing finish) items).isSome = true ↔ ItemsFitting items
  | [] => iff_of_true rfl trivial
  | item :: rest => by
    have hitem := build?_isSome_iff finish item
    have hrest := buildItems?_isSome_iff finish rest
    rw [buildItems?, ItemsFitting, ← hitem, ← hrest]
    cases build? (finishing finish) item <;> simp

/-- An object has one if all its members have. -/
theorem buildMembers?_isSome_iff (finish : List (String × Value) → Value) :
    ∀ members, (buildMembers? (finishing finish) members).isSome = true ↔ MembersFitting members
  | [] => iff_of_true rfl trivial
  | (key, item) :: rest => by
    have hitem := build?_isSome_iff finish item
    have hrest := buildMembers?_isSome_iff finish rest
    rw [buildMembers?, MembersFitting, ← hitem, ← hrest]
    cases build? (finishing finish) item <;> simp

end

/-! ## Merging before or after building

One decoder merges trees and builds values of what is left, the other builds values and merges
these. Merging looks at keys only, so it makes no difference which comes first.
-/

section Merge

variable {α β : Type} {make : α → Option β}

/-- A member that comes in takes the place of one with its key, or the last place, before its item
is made into something as well as after. -/
theorem mapM_insert {members : List (String × α)} {made : List (String × β)}
    (h : members.mapM (makeMember? make) = some made) (key : String) {item : α} {value : β}
    (hitem : make item = some value) :
    (Entries.insert members key item).mapM (makeMember? make) =
      some (Entries.insert made key value) := by
  induction members generalizing made with
  | nil =>
    obtain rfl : made = [] := by simpa using h.symm
    simp [Entries.insert, makeMember?, hitem]
  | cons member rest ih =>
    obtain ⟨name, old⟩ := member
    cases hold : make old with
    | none => simp [makeMember?, hold] at h
    | some first =>
      cases hrest : rest.mapM (makeMember? make) with
      | none => simp [makeMember?, hold, hrest] at h
      | some others =>
        obtain rfl : (name, first) :: others = made := by simpa [makeMember?, hold, hrest] using h
        -- the key is found here, or further on
        by_cases hname : name = key
        · simp [Entries.insert, makeMember?, hname, hitem, hrest]
        · simp [Entries.insert, makeMember?, hname, hold, ih hrest]

/-- So members can be merged first and made into something then, or the other way round. -/
theorem mapM_insertAll {members pairs : List (String × α)} {made values : List (String × β)}
    (h : members.mapM (makeMember? make) = some made)
    (hpairs : pairs.mapM (makeMember? make) = some values) :
    (Entries.insertAll members pairs).mapM (makeMember? make) =
      some (Entries.insertAll made values) := by
  induction pairs generalizing members made values with
  | nil =>
    obtain rfl : values = [] := by simpa using hpairs.symm
    exact h
  | cons pair rest ih =>
    obtain ⟨key, item⟩ := pair
    cases hitem : make item with
    | none => simp [makeMember?, hitem] at hpairs
    | some value =>
      cases hrest : rest.mapM (makeMember? make) with
      | none => simp [makeMember?, hitem, hrest] at hpairs
      | some others =>
        obtain rfl : (key, value) :: others = values := by
          simpa [makeMember?, hitem, hrest] using hpairs
        -- both lists take the pair in, and the rest goes on from there
        have hfirst := mapM_insert h key hitem
        change (Entries.insertAll (Entries.insert members key item) rest).mapM _ =
          some (Entries.insertAll (Entries.insert made key value) others)
        exact ih hfirst hrest

end Merge

mutual

/-- What is built from the whole raw tree can be built from what is left of it. -/
theorem build?_merged :
    ∀ (json : Json) {value : Value}, build? Value.builder json = some value →
      build? plainBuilder json.merged = some value
  | null, _, h | bool _, _, h | number _, _, h | string _, _, h => h
  | array items, value, h => by
    rw [build?] at h
    obtain ⟨values, hvalues, rfl⟩ := Option.map_eq_some_iff.1 h
    rw [merged, build?, buildItems?_merged items hvalues]
    rfl
  | object members, value, h => by
    rw [build?] at h
    obtain ⟨values, hvalues, rfl⟩ := Option.map_eq_some_iff.1 h
    have hmembers := buildMembers?_merged members hvalues
    rw [buildMembers?_eq_mapM] at hmembers
    -- the members are merged into an empty object on either side
    have hempty : ([] : List (String × Json)).mapM (makeMember? (build? plainBuilder)) = some [] :=
      rfl
    have hmerge := mapM_insertAll hempty hmembers
    rw [merged, build?, buildMembers?_eq_mapM, Entries.merge, hmerge]
    rfl

/-- What is built of items is built of the merged items. -/
theorem buildItems?_merged :
    ∀ (items : List Json) {values : List Value}, buildItems? Value.builder items = some values →
      buildItems? plainBuilder (mergedItems items) = some values
  | [], _, h => h
  | item :: rest, values, h => by
    rw [buildItems?] at h
    obtain ⟨first, hfirst, h⟩ := Option.bind_eq_some_iff.1 h
    obtain ⟨others, hothers, rfl⟩ := Option.map_eq_some_iff.1 h
    rw [mergedItems, buildItems?, build?_merged item hfirst, buildItems?_merged rest hothers]
    rfl

/-- What is built of members is built of the merged items under the same keys. -/
theorem buildMembers?_merged :
    ∀ (members : List (String × Json)) {values : List (String × Value)},
      buildMembers? Value.builder members = some values →
      buildMembers? plainBuilder (mergedMembers members) = some values
  | [], _, h => h
  | (key, item) :: rest, values, h => by
    rw [buildMembers?] at h
    obtain ⟨first, hfirst, h⟩ := Option.bind_eq_some_iff.1 h
    obtain ⟨others, hothers, rfl⟩ := Option.map_eq_some_iff.1 h
    rw [mergedMembers, buildMembers?, build?_merged item hfirst, buildMembers?_merged rest hothers]
    rfl

end

end Json

namespace Value

open Json

/-! ## The decoders compared

In terms of the raw tree: one asks all integers to fit, the other one those that are left after
merging.
-/

/-- What `read` answers, in terms of the raw tree. -/
theorem read_eq_ok_iff (text : String) (value : Value) :
    read text = .ok value ↔
      ∃ raw, parseRaw text = .ok raw ∧ build? Value.builder raw = some value := by
  rw [← toOption_eq_some_iff, read_toOption, Option.bind_eq_some_iff]
  simp only [toOption_eq_some_iff]

/-- What `decode` answers, in terms of the raw tree. -/
theorem decode_eq_ok_iff (text : String) (value : Value) :
    decode text = .ok value ↔
      ∃ raw, parseRaw text = .ok raw ∧ build? plainBuilder raw.merged = some value := by
  rw [← toOption_eq_some_iff, decode_toOption, Option.bind_eq_some_iff]
  simp only [toOption_eq_some_iff]

/-- **What `read` takes, `decode` takes alike.** -/
theorem decode_of_read {text : String} {value : Value} (h : read text = .ok value) :
    decode text = .ok value := by
  obtain ⟨raw, hraw, hbuild⟩ := (read_eq_ok_iff text value).1 h
  exact (decode_eq_ok_iff text value).2 ⟨raw, hraw, build?_merged raw hbuild⟩

/-- `read` takes a text exactly if all its integers fit. -/
theorem exists_read_iff {text : String} {raw : Json} (hraw : parseRaw text = .ok raw) :
    (∃ value, read text = .ok value) ↔ raw.Fitting := by
  rw [← build?_isSome_iff (fun members => mapping (Entries.merge members)) raw,
    Option.isSome_iff_exists]
  refine exists_congr fun value => (read_eq_ok_iff text value).trans ?_
  simp only [hraw, Except.ok.injEq, exists_eq_left']
  rfl

/-- `decode` takes a text exactly if all integers fit that are left of it. -/
theorem exists_decode_iff {text : String} {raw : Json} (hraw : parseRaw text = .ok raw) :
    (∃ value, decode text = .ok value) ↔ raw.merged.Fitting := by
  rw [← build?_isSome_iff .mapping raw.merged, Option.isSome_iff_exists]
  refine exists_congr fun value => (decode_eq_ok_iff text value).trans ?_
  simp only [hraw, Except.ok.injEq, exists_eq_left']
  rfl

/-- Where no key repeats, nothing is dropped between the two looks at an integer. -/
theorem read_of_decode {text : String} {raw : Json} {value : Value}
    (hraw : parseRaw text = .ok raw) (hkeys : raw.WellFormed) (h : decode text = .ok value) :
    read text = .ok value := by
  -- merging leaves the tree as it is, so `decode` has seen every integer
  have hfitting : raw.Fitting := by
    rw [← merged_of_wellFormed raw hkeys]
    exact (exists_decode_iff hraw).1 ⟨value, h⟩
  obtain ⟨other, hread⟩ := (exists_read_iff hraw).2 hfitting
  have hsame : decode text = .ok other := decode_of_read hread
  rw [h, Except.ok.injEq] at hsame
  rw [hsame, hread]

/-- **The two decoders agree on every text, dropped members apart.** A text without a raw tree has a
value for neither. Of a raw tree `read` takes every integer into account and `decode` the integers
that are left; what both take they take alike, and where no key repeats they agree altogether. -/
theorem decoders_agree (text : String) :
    (∀ fault, parseRaw text = .error fault →
      (¬ ∃ value, decode text = .ok value) ∧ ¬ ∃ value, read text = .ok value) ∧
    ∀ raw, parseRaw text = .ok raw →
      ((∃ value, decode text = .ok value) ↔ raw.merged.Fitting) ∧
      ((∃ value, read text = .ok value) ↔ raw.Fitting) ∧
      (∀ value, read text = .ok value → decode text = .ok value) ∧
      (raw.WellFormed → ∀ value, decode text = .ok value ↔ read text = .ok value) := by
  constructor
  · -- both read the same raw tree, and there is none
    intro fault hfault
    constructor
    · rintro ⟨value, h⟩
      obtain ⟨raw, hraw, -⟩ := (decode_eq_ok_iff text value).1 h
      rw [hfault] at hraw
      cases hraw
    · rintro ⟨value, h⟩
      obtain ⟨raw, hraw, -⟩ := (read_eq_ok_iff text value).1 h
      rw [hfault] at hraw
      cases hraw
  · intro raw hraw
    refine ⟨exists_decode_iff hraw, exists_read_iff hraw, fun value => decode_of_read, ?_⟩
    intro hkeys value
    exact ⟨read_of_decode hraw hkeys, decode_of_read⟩

set_option maxRecDepth 4000 in
/-- The first member is gone before `decode` looks at its integer. -/
theorem decoders_part :
    (∃ value, decode "\x7b\"a\":9223372036854775808,\"a\":1\x7d" = .ok value) ∧
      ¬ ∃ value, read "\x7b\"a\":9223372036854775808,\"a\":1\x7d" = .ok value := by
  constructor
  · have hsome : (decode "\x7b\"a\":9223372036854775808,\"a\":1\x7d").toOption.isSome = true := by
      decide +kernel
    obtain ⟨value, hvalue⟩ := Option.isSome_iff_exists.1 hsome
    exact ⟨value, toOption_eq_some_iff.1 hvalue⟩
  · rintro ⟨value, hvalue⟩
    -- the integer of the first member is looked at where it stands
    have hnone : (read "\x7b\"a\":9223372036854775808,\"a\":1\x7d").toOption.isNone = true := by
      decide +kernel
    rw [hvalue] at hnone
    cases hnone

end Value

end StepRelay
