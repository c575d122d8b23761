import Mathlib.Data.List.Nodup
import StepRelay.Proofs.Decoders
import StepRelay.Proofs.Documents

/-!
# What an integer literal is decoded to

An integer literal is a number of a document without fraction and exponent, of any length. Followed
to its place in the document, to the same place in the raw tree and from there to the decoded value,
it is an integer exactly if it lies in the signed 64-bit range and is not minus zero. In the upper
half of the unsigned range it makes `Value.decode` fail. Outside both ranges it is taken for a
double, and so is minus zero: `integer_literal_decoded`.
-/

namespace StepRelay

open Json

/-! ## Places

A path is a list of steps, which leads into a document and into a value alike. Where a key repeats
a step takes the first member that has it; the statements below ask for distinct keys.
-/

/-- One step into an array or into an object. -/
inductive Segment where
  | index (index : Nat)
  | key (name : String)

namespace Json.Document

/-- The key of a member, if it has a meaning. -/
def keyOf? (member : Padded (List Piece) × Padded Document) : Option (List Char) :=
  Piece.meaning? member.1.inner

/-- What stands at one step into a document. Of members with the same key the first counts. -/
def child? : Document → Segment → Option Document
  | array _ items, .index index => items[index]?.map Padded.inner
  | object _ members, .key name =>
    (members.find? fun member => keyOf? member == some name.toList).map
      fun member => member.2.inner
  | _, _ => none

/-- What stands at the end of a path into a document. -/
def at? (d : Document) : List Segment → Option Document
  | [] => some d
  | segment :: rest => (d.child? segment).bind fun child => child.at? rest

end Json.Document

namespace Value

/-- What stands at one step into a value. -/
def child? : Value → Segment → Option Value
  | sequence items, .index index => items[index]?
  | mapping entries, .key name => Entries.get? entries name
  | _, _ => none

/-- What stands at the end of a path into a value. -/
def at? (value : Value) : List Segment → Option Value
  | [] => some value
  | segment :: rest => (value.child? segment).bind fun child => child.at? rest

end Value

namespace Json

/-! ## Documents without repeated keys

Of members with one key the last counts, and the others are dropped, whatever their integers are. So
the statement is about documents in which no key repeats; there the raw tree is what the value is
built of.
-/

namespace Document

mutual

/-- No object of the document has two keys of one meaning. -/
def DistinctKeys : Document → Prop
  | array _ items => ItemsDistinct items
  | object _ members =>
    (members.filterMap keyOf?).Nodup ∧ MembersDistinct members
  | _ => True

/-- So it is in each item of an array. -/
def ItemsDistinct : List (Padded Document) → Prop
  | [] => True
  | ⟨_, item, _⟩ :: rest => item.DistinctKeys ∧ ItemsDistinct rest

/-- And in each member of an object. -/
def MembersDistinct : List (Padded (List Piece) × Padded Document) → Prop
  | [] => True
  | (_, ⟨_, item, _⟩) :: rest => item.DistinctKeys ∧ MembersDistinct rest

end

/-- The keys of the raw tree are the meanings of the keys of the document. -/
theorem keys_memberTrees? {members : List (Padded (List Piece) × Padded Document)}
    {trees : List (String × Json)} (h : memberTrees? members = some trees) :
    Entries.keys trees = (members.filterMap keyOf?).map String.ofList := by
  induction members generalizing trees with
  | nil =>
    obtain rfl : [] = trees := Option.some.inj h
    rfl
  | cons member rest ih =>
    obtain ⟨key, before, d, behind⟩ := member
    rw [memberTrees?] at h
    obtain ⟨name, hname, h⟩ := Option.bind_eq_some_iff.1 h
    obtain ⟨tree, -, h⟩ := Option.bind_eq_some_iff.1 h
    obtain ⟨others, hothers, rfl⟩ := Option.map_eq_some_iff.1 h
    -- the key has a meaning, or the object would have no tree
    have hkey : keyOf? (key, ⟨before, d, behind⟩) = some name := hname
    rw [Entries.keys_cons, ih hothers, List.filterMap_cons_some hkey]
    rfl

mutual

/-- **Where no key repeats, the raw tree is well formed**, so nothing of it is merged away. -/
theorem wellFormed_of_tree? : ∀ (d : Document) {raw : Json}, d.DistinctKeys →
    d.tree? = some raw → raw.WellFormed
  | null, _, _, h => by
    obtain rfl := Option.some.inj h
    trivial
  | bool flag, _, _, h => by
    obtain rfl := Option.some.inj h
    trivial
  | number literal, _, _, h => by
    obtain ⟨n, -, rfl⟩ := Option.map_eq_some_iff.1 h
    trivial
  | string pieces, _, _, h => by
    obtain ⟨chars, -, rfl⟩ := Option.map_eq_some_iff.1 h
    trivial
  | array inside items, _, hkeys, h => by
    obtain ⟨trees, htrees, rfl⟩ := Option.map_eq_some_iff.1 h
    exact itemsWellFormed_of_trees? items hkeys htrees
  | object inside members, _, hkeys, h => by
    obtain ⟨trees, htrees, rfl⟩ := Option.map_eq_some_iff.1 h
    refine ⟨?_, membersWellFormed_of_trees? members hkeys.2 htrees⟩
    -- distinct spelled keys name distinct strings
    rw [keys_memberTrees? htrees]
    exact List.Nodup.map (fun a b => String.ofList_injective) hkeys.1

theorem itemsWellFormed_of_trees? : ∀ (items : List (Padded Document)) {trees : List Json},
    ItemsDistinct items → itemTrees? items = some trees → ItemsWellFormed trees
  | [], _, _, h => by
    obtain rfl := Option.some.inj h
    trivial
  | ⟨_, item, _⟩ :: rest, _, hkeys, h => by
    rw [itemTrees?] at h
    obtain ⟨tree, htree, h⟩ := Option.bind_eq_some_iff.1 h
    obtain ⟨others, hothers, rfl⟩ := Option.map_eq_some_iff.1 h
    exact ⟨wellFormed_of_tree? item hkeys.1 htree, itemsWellFormed_of_trees? rest hkeys.2 hothers⟩

theorem membersWellFormed_of_trees? :
    ∀ (members : List (Padded (List Piece) × Padded Document)) {trees : List (String × Json)},
      MembersDistinct members → memberTrees? members = some trees → MembersWellFormed trees
  | [], _, _, h => by
    obtain rfl := Option.some.inj h
    trivial
  | (_, ⟨_, item, _⟩) :: rest, _, hkeys, h => by
    rw [memberTrees?] at h
    obtain ⟨name, -, h⟩ := Option.bind_eq_some_iff.1 h
    obtain ⟨tree, htree, h⟩ := Option.bind_eq_some_iff.1 h
    obtain ⟨others, hothers, rfl⟩ := Option.map_eq_some_iff.1 h
    exact ⟨wellFormed_of_tree? item hkeys.1 htree,
      membersWellFormed_of_trees? rest hkeys.2 hothers⟩

end

/-! ## One step of a path

A document becomes a raw tree and the tree a value, and both keep the places: index for index, and
key for key.
-/

/-- The value of a document's raw tree. -/
def value? (d : Document) : Option Value := d.tree?.bind (build? plainBuilder)

/-- The tree of an item stands at the item's index. -/
theorem getElem?_itemTrees? {items : List (Padded Document)} {trees : List Json}
    (h : itemTrees? items = some trees) {index : Nat} {item : Padded Document}
    (hitem : items[index]? = some item) :
    ∃ tree, item.inner.tree? = some tree ∧ trees[index]? = some tree := by
  induction items generalizing trees index with
  | nil => cases hitem
  | cons first rest ih =>
    obtain ⟨before, d, behind⟩ := first
    rw [itemTrees?] at h
    obtain ⟨tree, htree, h⟩ := Option.bind_eq_some_iff.1 h
    obtain ⟨others, hothers, rfl⟩ := Option.map_eq_some_iff.1 h
    cases index with
    | zero =>
      obtain rfl := Option.some.inj hitem
      exact ⟨tree, htree, rfl⟩
    | succ index => exact ih hothers hitem

theorem getElem?_buildItems? {α : Type} {builder : Builder α} {trees : List Json} {values : List α}
    (h : buildItems? builder trees = some values) {index : Nat} {tree : Json}
    (htree : trees[index]? = some tree) :
    ∃ value, build? builder tree = some value ∧ values[index]? = some value := by
  induction trees generalizing values index with
  | nil => cases htree
  | cons first rest ih =>
    rw [buildItems?] at h
    obtain ⟨value, hvalue, h⟩ := Option.bind_eq_some_iff.1 h
    obtain ⟨others, hothers, rfl⟩ := Option.map_eq_some_iff.1 h
    cases index with
    | zero =>
      obtain rfl := Option.some.inj htree
      exact ⟨value, hvalue, rfl⟩
    | succ index => exact ih hothers htree

/-- The tree of a member is found under the meaning of its key. -/
theorem get?_memberTrees? {members : List (Padded (List Piece) × Padded Document)}
    {trees : List (String × Json)} (h : memberTrees? members = some trees) {name : String}
    {member : Padded (List Piece) × Padded Document}
    (hmember : members.find? (fun member => keyOf? member == some name.toList) = some member) :
    ∃ tree, member.2.inner.tree? = some tree ∧ Entries.get? trees name = some tree := by
  induction members generalizing trees with
  | nil => cases hmember
  | cons first rest ih =>
    obtain ⟨key, before, d, behind⟩ := first
    rw [memberTrees?] at h
    obtain ⟨chars, hchars, h⟩ := Option.bind_eq_some_iff.1 h
    obtain ⟨tree, htree, h⟩ := Option.bind_eq_some_iff.1 h
    obtain ⟨others, hothers, rfl⟩ := Option.map_eq_some_iff.1 h
    by_cases hname : String.ofList chars = name
    · -- the member looked for is the first
      have hfirst : (keyOf? (key, ⟨before, d, behind⟩) == some name.toList) = true := by
        rw [keyOf?, hchars, ← hname, String.toList_ofList, beq_iff_eq]
      rw [List.find?_cons, hfirst] at hmember
      obtain rfl := Option.some.inj hmember
      exact ⟨tree, htree, if_pos hname⟩
    · have hfirst : (keyOf? (key, ⟨before, d, behind⟩) == some name.toList) = false := by
        rw [keyOf?, hchars, beq_eq_false_iff_ne, ne_eq, Option.some.injEq]
        rintro rfl
        exact hname String.ofList_toList
      -- the escapes of the key were read, so texts are compared, not spellings
      rw [List.find?_cons, hfirst] at hmember
      obtain ⟨found, hfound, hget⟩ := ih hothers hmember
      exact ⟨found, hfound, (if_neg hname).trans hget⟩

theorem get?_buildMembers? {α : Type} {builder : Builder α} {trees : List (String × Json)}
    {values : List (String × α)} (h : buildMembers? builder trees = some values) {name : String}
    {tree : Json} (htree : Entries.get? trees name = some tree) :
    ∃ value, build? builder tree = some value ∧ Entries.get? values name = some value := by
  induction trees generalizing values with
  | nil => cases htree
  | cons first rest ih =>
    obtain ⟨key, item⟩ := first
    rw [buildMembers?] at h
    obtain ⟨value, hvalue, h⟩ := Option.bind_eq_some_iff.1 h
    obtain ⟨others, hothers, rfl⟩ := Option.map_eq_some_iff.1 h
    rw [Entries.get?] at htree ⊢
    -- members are built in order, so the first with the name stays the first
    by_cases hname : key = name
    · rw [if_pos hname] at htree ⊢
      obtain rfl := Option.some.inj htree
      exact ⟨value, hvalue, rfl⟩
    · rw [if_neg hname] at htree ⊢
      exact ih hothers htree

/-- **One step into a document is one step into its value.** -/
theorem child?_value? {d child : Document} {value : Value} {segment : Segment}
    (hvalue : d.value? = some value) (hchild : d.child? segment = some child) :
    ∃ inner, child.value? = some inner ∧ value.child? segment = some inner := by
  obtain ⟨raw, hraw, hbuild⟩ := Option.bind_eq_some_iff.1 hvalue
  cases d with
  | array inside items =>
    cases segment with
    | key name => cases hchild
    | index index =>
      -- an index into an array: from the item to its tree, and from the tree to its value
      obtain ⟨item, hitem, rfl⟩ := Option.map_eq_some_iff.1 hchild
      obtain ⟨trees, htrees, rfl⟩ := Option.map_eq_some_iff.1 hraw
      obtain ⟨values, hvalues, rfl⟩ := Option.map_eq_some_iff.1 hbuild
      obtain ⟨tree, htree, hat⟩ := getElem?_itemTrees? htrees hitem
      obtain ⟨inner, hinner, hget⟩ := getElem?_buildItems? hvalues hat
      exact ⟨inner, Option.bind_eq_some_iff.2 ⟨tree, htree, hinner⟩, hget⟩
  | object inside members =>
    cases segment with
    | index index => cases hchild
    | key name =>
      -- a key of an object: the same, by the first member with the key
      obtain ⟨member, hmember, rfl⟩ := Option.map_eq_some_iff.1 hchild
      obtain ⟨trees, htrees, rfl⟩ := Option.map_eq_some_iff.1 hraw
      obtain ⟨values, hvalues, rfl⟩ := Option.map_eq_some_iff.1 hbuild
      obtain ⟨tree, htree, hat⟩ := get?_memberTrees? htrees hmember
      obtain ⟨inner, hinner, hget⟩ := get?_buildMembers? hvalues hat
      exact ⟨inner, Option.bind_eq_some_iff.2 ⟨tree, htree, hinner⟩, hget⟩
  | null | bool flag | number literal | string pieces => cases hchild

/-- **A path into a document leads to the same place in its value.** -/
theorem at?_value? {path : List Segment} {d target : Document} {value : Value}
    (hvalue : d.value? = some value) (hat : d.at? path = some target) :
    ∃ inner, target.value? = some inner ∧ value.at? path = some inner := by
  induction path generalizing d value with
  | nil =>
    obtain rfl := Option.some.inj hat
    exact ⟨value, hvalue, rfl⟩
  -- induction on the path: a value is found for the child, and the rest of the path starts there
  | cons segment rest ih =>
    obtain ⟨child, hchild, hrest⟩ := Option.bind_eq_some_iff.1 hat
    obtain ⟨inner, hinner, hstep⟩ := child?_value? hvalue hchild
    obtain ⟨found, hfound, hreach⟩ := ih hinner hrest
    exact ⟨found, hfound, Option.bind_eq_some_iff.2 ⟨inner, hstep, hreach⟩⟩

/-- Where no key repeats, decoding a document gives the value of its raw tree. -/
theorem value?_of_decode {document : Padded Document} (hkeys : document.inner.DistinctKeys)
    {value : Value} (h : Value.decode document.text = .ok value) :
    document.inner.value? = some value := by
  obtain ⟨raw, hparse, hbuild⟩ := (Value.decode_eq_ok_iff document.text value).1 h
  have hwithin : document.inner.within? depthLimit = some raw := by
    rw [← parseRaw_text, hparse]
    rfl
  have hraw : document.inner.tree? = some raw := by
    rw [within?] at hwithin
    split at hwithin
    · exact hwithin
    · cases hwithin
  -- `decode` builds from the merged tree, where members could be missing if keys came twice
  have hmerged : raw.merged = raw :=
    merged_of_wellFormed raw (wellFormed_of_tree? document.inner hkeys hraw)
  rw [hmerged] at hbuild
  exact Option.bind_eq_some_iff.2 ⟨raw, hraw, hbuild⟩

end Document

/-! ## Integer literals

What the digits are worth is compared with the two ranges. The reader takes an integer of either
range as one, and gives everything else to the reader of doubles; making a value of it refuses the
upper half of the unsigned range.
-/

namespace Literal

variable {literal : Literal}

/-- The literal has neither a fraction nor an exponent. -/
def IsInteger (literal : Literal) : Prop := literal.fraction = none ∧ literal.exponent = none

/-- The integer that an integer literal writes. -/
def value (literal : Literal) : Int :=
  if literal.negative then -(literal.whole.value : Int) else literal.whole.value

/-- Minus zero, which no integer is. -/
def IsMinusZero (literal : Literal) : Prop := literal.negative = true ∧ literal.whole.value = 0

/-- The double nearest to the integer that is written. -/
def nearest (literal : Literal) : Double :=
  Decimal.toDouble ⟨literal.negative, literal.whole.value, 0⟩

theorem value_of_isMinusZero (h : literal.IsMinusZero) : literal.value = 0 := by
  rw [value, h.1, h.2]
  rfl

/-- An integer literal is not refused for its exponent. -/
theorem number?_of_isInteger (h : literal.IsInteger) :
    literal.number? = literal.numeral.number? := by
  have hexceeds : literal.exceeds = false := by
    rw [exceeds, h.2]
    rfl
  rw [number?, hexceeds]
  rfl

/-- As a decimal it has all its digits and the exponent zero. -/
theorem decimal_of_isInteger (h : literal.IsInteger) :
    literal.numeral.decimal = ⟨literal.negative, literal.whole.value, 0⟩ := by
  unfold Numeral.decimal numeral Digits.value
  rw [h.1, h.2]
  simp

/-- **Minus zero is not taken for an integer.** -/
theorem integer?_of_isMinusZero (h : literal.IsInteger) (hzero : literal.IsMinusZero) :
    literal.numeral.integer? = none := by
  have hparts : literal.numeral.fraction = none ∧ literal.numeral.exponent = none := by
    unfold numeral
    rw [h.1, h.2]
    exact ⟨rfl, rfl⟩
  have hvalue : Nat.ofDigitChars 10 literal.numeral.whole 0 = 0 := hzero.2
  have hsign : literal.numeral.negative = true := hzero.1
  rw [Numeral.integer?, if_pos hparts, hvalue, hsign]
  rfl

/-- **Every other integer literal is taken for its integer**, of whatever size. -/
theorem integer?_of_not_isMinusZero (h : literal.IsInteger) (hzero : ¬ literal.IsMinusZero) :
    literal.numeral.integer? = some literal.value := by
  have hparts : literal.numeral.fraction = none ∧ literal.numeral.exponent = none := by
    unfold numeral
    rw [h.1, h.2]
    exact ⟨rfl, rfl⟩
  have hvalue : Nat.ofDigitChars 10 literal.numeral.whole 0 = literal.whole.value := rfl
  have hsign : literal.numeral.negative = literal.negative := rfl
  rw [Numeral.integer?, if_pos hparts, hvalue, hsign, value]
  -- the sign, and where there is one the digits are not all zero
  cases hnegative : literal.negative with
  | false => rfl
  | true =>
    have hne : literal.whole.value ≠ 0 := fun heq => hzero ⟨hnegative, heq⟩
    simp [hne]

/-! ### The literal of an integer

Every integer can be written as a literal; these are the literals on which the result is exercised.
-/

/-- A number that is not zero does not begin with a zero. -/
theorem head?_toDigits {n : Nat} (hn : n ≠ 0) : (Nat.toDigits 10 n).head? ≠ some '0' := by
  induction n using Nat.strongRecOn with
  | ind n ih =>
    by_cases hlt : n < 10
    · rw [Nat.toDigits_of_lt_base hlt]
      -- one digit
      have hdigit : ∀ n < 10, n ≠ 0 → n.digitChar ≠ '0' := by decide
      intro hhead
      exact hdigit n hlt hn (Option.some.inj hhead)
    · -- several digits: the first of them is that of the quotient
      have hle : 10 ≤ n := Nat.not_lt.1 hlt
      have hquotient : n / 10 ≠ 0 := by omega
      rw [Nat.toDigits_of_base_le (by decide) hle,
        List.head?_append_of_ne_nil _ Nat.toDigits_ne_nil]
      exact ih (n / 10) (by omega) hquotient

end Literal

namespace Digits

/-- The digits of a natural. -/
def ofNat (n : Nat) : Digits where
  chars := Nat.toDigits 10 n
  nonempty := Nat.toDigits_ne_nil
  digits := fun _ hc => Nat.isDigit_of_mem_toDigits (by decide) (by decide) hc

theorem value_ofNat (n : Nat) : (ofNat n).value = n :=
  Nat.ofDigitChars_toDigits (by decide) (by decide)

theorem leading_ofNat (n : Nat) : (ofNat n).chars = ['0'] ∨ (ofNat n).chars.head? ≠ some '0' := by
  by_cases hn : n = 0
  · rw [hn]
    exact .inl rfl
  · exact .inr (Literal.head?_toDigits hn)

end Digits

namespace Literal

/-- The literal that writes an integer. -/
def ofInt (n : Int) : Literal where
  negative := n < 0
  whole := .ofNat n.natAbs
  fraction := none
  exponent := none
  leading := Digits.leading_ofNat n.natAbs

theorem isInteger_ofInt (n : Int) : (ofInt n).IsInteger := ⟨rfl, rfl⟩

theorem value_ofInt (n : Int) : (ofInt n).value = n := by
  rw [value]
  change (if decide (n < 0) = true then -((Digits.ofNat n.natAbs).value : Int)
    else (Digits.ofNat n.natAbs).value) = n
  rw [Digits.value_ofNat]
  -- a minus in front, or none
  by_cases hn : n < 0
  · rw [if_pos (decide_eq_true hn)]
    omega
  · rw [if_neg (by simpa using hn)]
    omega

/-- No integer is written as minus zero. -/
theorem not_isMinusZero_ofInt (n : Int) : ¬ (ofInt n).IsMinusZero := by
  rintro ⟨hsign, hzero⟩
  have hn : n < 0 := of_decide_eq_true hsign
  have habs : n.natAbs = 0 := (Digits.value_ofNat n.natAbs).symm.trans hzero
  omega

end Literal

/-- A number that is no integer of 64 bits is the nearest double. -/
theorem value?_of_wide {literal : Literal} {value : Value} (h : literal.IsInteger)
    (hwide : literal.numeral.integer?.bind Number.ofInt? = none)
    (hvalue : (Document.number literal).value? = some value) : value = .float literal.nearest := by
  obtain ⟨raw, hraw, hbuild⟩ := Option.bind_eq_some_iff.1 hvalue
  obtain ⟨n, hn, rfl⟩ := Option.map_eq_some_iff.1 hraw
  rw [Literal.number?_of_isInteger h, Numeral.number?, hwide, Literal.decimal_of_isInteger h] at hn
  change Number.ofDouble? literal.nearest = some n at hn
  rw [Number.ofDouble?] at hn
  split at hn
  · -- a double that is finite makes a number, and this the value
    next hfinite =>
    obtain rfl := Option.some.inj hn
    exact (Option.some.inj hbuild).symm
  · cases hn

/-- **Minus zero becomes a double.** -/
theorem value?_of_isMinusZero {literal : Literal} {value : Value} (h : literal.IsInteger)
    (hzero : literal.IsMinusZero) (hvalue : (Document.number literal).value? = some value) :
    value = .float (.zero true) := by
  have hnone : literal.numeral.integer?.bind Number.ofInt? = none := by
    rw [Literal.integer?_of_isMinusZero h hzero]
    rfl
  have hnearest : literal.nearest = .zero true := by
    rw [Literal.nearest, hzero.1, hzero.2]
    rfl
  rw [value?_of_wide h hnone hvalue, hnearest]

/-- **An integer outside both ranges becomes a double**, the nearest there is. -/
theorem value?_of_outside {literal : Literal} {value : Value} (h : literal.IsInteger)
    (hwide : literal.value < -Nat.pow 2 63 ∨ Nat.pow 2 64 ≤ literal.value)
    (hvalue : (Document.number literal).value? = some value) : value = .float literal.nearest := by
  -- zero lies within both ranges
  have hzero : ¬ literal.IsMinusZero := by
    intro hzero
    rw [Literal.value_of_isMinusZero hzero] at hwide
    exact absurd hwide (by decide)
  have hnone : literal.numeral.integer?.bind Number.ofInt? = none := by
    rw [Literal.integer?_of_not_isMinusZero h hzero, Option.bind_some, Number.ofInt?, dif_neg]
    rintro ⟨hlow, hhigh⟩
    omega
  exact value?_of_wide h hnone hvalue

/-- An integer of 64 bits is itself if it is below the signed limit, and nothing else has a
value. -/
theorem value?_of_fits {literal : Literal} {value : Value} (h : literal.IsInteger)
    (hzero : ¬ literal.IsMinusZero)
    (hfits : -Nat.pow 2 63 ≤ literal.value ∧ literal.value < Nat.pow 2 64)
    (hvalue : (Document.number literal).value? = some value) :
    literal.value < Nat.pow 2 63 ∧ value = .int (.ofInt literal.value) := by
  obtain ⟨raw, hraw, hbuild⟩ := Option.bind_eq_some_iff.1 hvalue
  obtain ⟨n, hn, rfl⟩ := Option.map_eq_some_iff.1 hraw
  have hinteger : literal.numeral.integer?.bind Number.ofInt? =
      some (.integer literal.value hfits) := by
    rw [Literal.integer?_of_not_isMinusZero h hzero, Option.bind_some, Number.ofInt?, dif_pos hfits]
  rw [Literal.number?_of_isInteger h, Numeral.number?, hinteger] at hn
  obtain rfl := Option.some.inj hn
  change (Value.ofNumber (.integer literal.value hfits)).toOption = some value at hbuild
  rw [Value.ofNumber] at hbuild
  split at hbuild
  · -- below the signed limit
    next hlt => exact ⟨hlt, (Option.some.inj hbuild).symm⟩
  · cases hbuild

end Json

namespace Value

open Json

/-- **What an integer literal is decoded to**, whatever its length and wherever it stands. In the
signed 64-bit range it is the integer itself, minus zero apart. From `2 ^ 63` up to `2 ^ 64` the
whole text is refused. Beyond, on either side, the literal is widened to the nearest double. -/
theorem integer_literal_decoded {document : Padded Document}
    (hkeys : document.inner.DistinctKeys) {path : List Segment} {literal : Literal}
    (hat : document.inner.at? path = some (.number literal)) (hinteger : literal.IsInteger) :
    (∀ value, decode document.text = .ok value →
      (literal.IsMinusZero → value.at? path = some (.float (.zero true))) ∧
      (¬ literal.IsMinusZero → -Nat.pow 2 63 ≤ literal.value → literal.value < Nat.pow 2 63 →
        value.at? path = some (.int (.ofInt literal.value))) ∧
      (literal.value < -Nat.pow 2 63 ∨ Nat.pow 2 64 ≤ literal.value →
        value.at? path = some (.float literal.nearest))) ∧
    (Nat.pow 2 63 ≤ literal.value → literal.value < Nat.pow 2 64 →
      ∃ error, decode document.text = .error error) := by
  have hreach : ∀ value, decode document.text = .ok value →
      ∃ inner, (Document.number literal).value? = some inner ∧ value.at? path = some inner :=
    fun value hdecode => Document.at?_value? (Document.value?_of_decode hkeys hdecode) hat
  constructor
  · intro value hdecode
    obtain ⟨inner, hinner, hplace⟩ := hreach value hdecode
    rw [hplace]
    -- minus zero, the signed range, and beyond both
    refine ⟨fun hzero => ?_, fun hzero hlow hhigh => ?_, fun hwide => ?_⟩
    · rw [value?_of_isMinusZero hinteger hzero hinner]
    · have hfits : -Nat.pow 2 63 ≤ literal.value ∧ literal.value < Nat.pow 2 64 :=
        ⟨hlow, Int.lt_trans hhigh (by decide)⟩
      rw [(value?_of_fits hinteger hzero hfits hinner).2]
    · rw [value?_of_outside hinteger hwide hinner]
  · intro hlow hhigh
    cases hdecode : decode document.text with
    | error error => exact ⟨error, rfl⟩
    | ok value =>
      -- the literal would have a value, but between the two limits there is none
      exfalso
      obtain ⟨inner, hinner, -⟩ := hreach value hdecode
      have hzero : ¬ literal.IsMinusZero := by
        intro hzero
        rw [Literal.value_of_isMinusZero hzero] at hlow
        exact absurd hlow (by decide)
      have hfits : -Nat.pow 2 63 ≤ literal.value ∧ literal.value < Nat.pow 2 64 :=
        ⟨Int.le_trans (by decide) hlow, hhigh⟩
      have hlt := (value?_of_fits hinteger hzero hfits hinner).1
      exact absurd hlow (Int.not_le.2 hlt)

/-- A list of one item, without blanks. -/
def listOf (d : Document) : Padded Document :=
  ⟨.none, .array .none [⟨.none, d, .none⟩], .none⟩

/-- An integer in a list is decoded to itself. -/
theorem integer_literal_decoded_in_list :
    (∃ value, decode (listOf (.number (.ofInt (-7)))).text = .ok value) ∧
      ∀ value, decode (listOf (.number (.ofInt (-7)))).text = .ok value →
        value.at? [.index 0] = some (.int (-7)) := by
  constructor
  · -- that there is a value is found by running the decoder; what it is, by the theorem
    have hsome : (decode (listOf (.number (.ofInt (-7)))).text).toOption.isSome = true := by
      decide +kernel
    obtain ⟨value, hvalue⟩ := Option.isSome_iff_exists.1 hsome
    exact ⟨value, toOption_eq_some_iff.1 hvalue⟩
  · intro value hdecode
    have hkeys : (listOf (.number (.ofInt (-7)))).inner.DistinctKeys := ⟨trivial, trivial⟩
    have hat : (listOf (.number (.ofInt (-7)))).inner.at? [.index 0] =
        some (.number (.ofInt (-7))) := rfl
    have hdecoded := integer_literal_decoded hkeys hat (Literal.isInteger_ofInt (-7))
    have hinteger := (hdecoded.1 value hdecode).2.1 (Literal.not_isMinusZero_ofInt (-7))
      (by rw [Literal.value_ofInt]; decide) (by rw [Literal.value_ofInt]; decide)
    rw [hinteger, Literal.value_ofInt]
    rfl

/-- The first integer above the unsigned range becomes a double. -/
theorem not_every_wide_integer_refused :
    ¬ ∀ (document : Padded Document) (path : List Segment) (literal : Literal),
      document.inner.DistinctKeys → document.inner.at? path = some (.number literal) →
      literal.IsInteger →
      literal.value < -Nat.pow 2 63 ∨ Nat.pow 2 63 ≤ literal.value →
        ∃ error, decode document.text = .error error := by
  intro hrefused
  obtain ⟨error, herror⟩ := hrefused ⟨.none, .number (.ofInt 18446744073709551616), .none⟩ []
    (.ofInt 18446744073709551616) trivial rfl (Literal.isInteger_ofInt _)
    (.inr (by rw [Literal.value_ofInt]; decide))
  -- the decoder does give a value
  have hsome : (decode (Padded.text
      ⟨.none, .number (.ofInt 18446744073709551616), .none⟩)).toOption.isSome = true := by
    decide +kernel
  rw [herror] at hsome
  cases hsome

end Value

end StepRelay
