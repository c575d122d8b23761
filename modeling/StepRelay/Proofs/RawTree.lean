import StepRelay.Json.Reader
import StepRelay.Proofs.OrderedMap

/-!
# What a builder makes of a text

The raw tree of a text keeps everything that stands in it, repeated keys included.
`readValue_builds` says that a reader for any builder reads what the raw reader reads and makes of
it what the builder makes of the raw tree: both stop at the same place, and a builder can only add a
refusal. So whatever two builders make of one text is compared on its raw tree.

Only results are compared, not faults, since a builder that refuses a number does so before it has
seen the faults behind it.
-/

namespace StepRelay

/-! ## Results without faults

Readers are compared by what they read. Forgetting the fault turns a chain of readers into a chain
of options, in which equal parts can be replaced one by one.
-/

/-- The result of a chain is the chain of the results. -/
theorem toOption_bind {ε α β : Type} (x : Except ε α) (f : α → Except ε β) :
    (x >>= f).toOption = x.toOption.bind fun a => (f a).toOption := by
  cases x <;> rfl

/-- A chain succeeds if each of its parts does. -/
theorem bind_eq_ok_iff {ε α β : Type} {x : Except ε α} {f : α → Except ε β} {b : β} :
    x >>= f = .ok b ↔ ∃ a, x = .ok a ∧ f a = .ok b := by
  constructor
  · intro h
    cases x with
    | error e => cases h
    | ok a => exact ⟨a, rfl, h⟩
  · rintro ⟨a, rfl, h⟩
    exact h

@[simp] theorem toOption_ok {ε α : Type} (a : α) : (Except.ok a : Except ε α).toOption = some a :=
  rfl

theorem toOption_eq_some_iff {ε α : Type} {x : Except ε α} {a : α} :
    x.toOption = some a ↔ x = .ok a := by
  cases x <;> simp [Except.toOption]

theorem toOption_eq_none_iff {ε α : Type} {x : Except ε α} :
    x.toOption = none ↔ ∃ e, x = .error e := by
  cases x <;> simp [Except.toOption]

namespace Json

variable {α β : Type}

/-! ## Building from a raw tree

A builder is applied to a raw tree from the leaves up. It can refuse a number and nothing else, and
then the whole is refused.
-/

mutual

/-- What a builder makes of a raw tree, unless it refuses a number in it. -/
def build? (builder : Builder α) : Json → Option α
  | null => some builder.null
  | bool flag => some (builder.bool flag)
  | number n => (builder.number n).toOption
  | string text => some (builder.string text)
  | array items => (buildItems? builder items).map builder.array
  | object members => (buildMembers? builder members).map builder.object

/-- What it makes of the items of an array. -/
def buildItems? (builder : Builder α) : List Json → Option (List α)
  | [] => some []
  | item :: rest =>
    (build? builder item).bind fun first => (buildItems? builder rest).map (first :: ·)

/-- What it makes of the members of an object. -/
def buildMembers? (builder : Builder α) : List (String × Json) → Option (List (String × α))
  | [] => some []
  | (key, item) :: rest =>
    (build? builder item).bind fun first => (buildMembers? builder rest).map ((key, first) :: ·)

end

/-! ## One round of each loop

The loops of the reader run on fuel, the length of the text. Each lemma here says what one round
does; nothing behind this part looks into the loops again.
-/

/-- How a list goes on behind one of its items: it ends, or the next item begins. -/
inductive Continuation where
  | ends (rest : List Char)
  | goesOn (text : List Char)

/-- The list whose first item has been read: `more` reads the items behind it. -/
def goOn (item : α) (more : List Char → Option (List α × List Char)) :
    Continuation → Option (List α × List Char)
  | .ends rest => some ([item], rest)
  | .goesOn text => (more text).map fun read => (item :: read.1, read.2)

/-- What stands behind an item of an array. -/
def afterItem? (text : List Char) : Option Continuation :=
  match skipBlanks text with
  | [] => none
  | c :: rest =>
    if c = ']' then some (.ends rest)
    else if c = ',' then
      match skipBlanks rest with
      | [] => none
      | d :: rest => if d = ']' then none else some (.goesOn (d :: rest))
    else none

/-- What stands behind a member of an object; the next member is met behind its opening quote. -/
def afterMember? (text : List Char) : Option Continuation :=
  match skipBlanks text with
  | [] => none
  | c :: rest =>
    if c = '\x7d' then some (.ends rest)
    else if c = ',' then
      match skipBlanks rest with
      | [] => none
      | d :: rest => if d = '"' then some (.goesOn rest) else none
    else none

/-- **One round over items**: an item, and what stands behind it tells whether there is another
round. -/
theorem readItems_succ (item : Reader α) (fuel : Nat) (text : List Char) :
    (readItems item (fuel + 1) text).toOption = (item text).toOption.bind fun read =>
      (afterItem? read.2).bind (goOn read.1 fun text => (readItems item fuel text).toOption) := by
  rw [readItems]
  simp only [toOption_bind]
  congr 1
  funext read
  obtain ⟨first, text⟩ := read
  simp only [afterItem?]
  cases skipBlanks text with
  | nil => rfl
  | cons c rest =>
    -- a closing bracket, a comma, or a fault
    by_cases hclose : c = ']'
    · simp only [if_pos hclose]
      rfl
    by_cases hcomma : c = ','
    · simp only [if_neg hclose, if_pos hcomma]
      cases skipBlanks rest with
      | nil => rfl
      | cons d rest =>
        by_cases hd : d = ']'
        · simp only [if_pos hd]
          rfl
        · simp only [if_neg hd, Option.bind_some, goOn]
          cases readItems item fuel (d :: rest) <;> rfl
    · simp only [if_neg hclose, if_neg hcomma]
      rfl

/-- **One round over members**: a key, what is read for it, and what stands behind that. -/
theorem readMembers_succ {σ : Type} (member : σ → String → Reader σ) (fuel : Nat) (state : σ)
    (text : List Char) :
    (readMembers member (fuel + 1) state text).toOption =
      (readString text).toOption.bind fun key =>
        (member state key.1 key.2).toOption.bind fun read =>
          (afterMember? read.2).bind fun
            | .ends rest => some (read.1, rest)
            | .goesOn text => (readMembers member fuel read.1 text).toOption := by
  rw [readMembers]
  simp only [toOption_bind]
  -- the two readers agree on the key, on the member and on what comes behind it
  congr 1
  funext key
  congr 1
  funext read
  obtain ⟨state, text⟩ := read
  simp only [afterMember?]
  -- a closing bracket, a comma with a quote behind it, or a fault
  cases skipBlanks text with
  | nil => rfl
  | cons c rest =>
    by_cases hclose : c = '\x7d'
    · simp only [if_pos hclose]
      rfl
    by_cases hcomma : c = ','
    · simp only [if_neg hclose, if_pos hcomma]
      cases skipBlanks rest with
      | nil => rfl
      | cons d rest =>
        by_cases hquote : d = '"'
        · simp only [if_pos hquote, Option.bind_some]
        · simp only [if_neg hquote]
          split <;> rfl
    · simp only [if_neg hclose, if_neg hcomma]
      rfl

/-- What is read for a member: a colon and an item, put behind the members before. -/
theorem readMember_eq (item : Reader α) (before : List (String × α)) (key : String)
    (text : List Char) :
    (readMember item before key text).toOption =
      (readColon text).toOption.bind fun text =>
        (item text).toOption.map fun read => (before ++ [(key, read.1)], read.2) := by
  simp only [readMember, toOption_bind]
  congr 1
  funext text
  cases item text <;> rfl

/-- Members are put behind those that were read before them. -/
theorem readMembers_append (item : Reader α) (fuel : Nat) (before : List (String × α))
    (text : List Char) :
    (readMembers (readMember item) fuel before text).toOption =
      (readMembers (readMember item) fuel [] text).toOption.map
        fun read => (before ++ read.1, read.2) := by
  induction fuel generalizing before text with
  | zero => rfl
  | succ fuel ih =>
    -- both sides read one member in the same way, and differ in what stands before it
    simp only [readMembers_succ, readMember_eq, Option.map_bind, Option.bind_assoc,
      Option.bind_map, Function.comp_def, List.nil_append]
    congr 1
    funext key
    congr 1
    funext text
    congr 1
    funext read
    congr 1
    funext continuation
    cases continuation with
    | ends rest => rfl
    | goesOn text =>
      simp only [ih (before ++ [(key.1, read.1)]), ih [(key.1, read.1)], Option.map_map,
        Function.comp_def, List.append_assoc]

/-- One round of the loop over members, in the way of a round over items. -/
theorem readMembers_round (item : Reader α) (fuel : Nat) (text : List Char) :
    (readMembers (readMember item) (fuel + 1) [] text).toOption =
      (readString text).toOption.bind fun key =>
        (readColon key.2).toOption.bind fun text =>
          (item text).toOption.bind fun read =>
            (afterMember? read.2).bind (goOn (key.1, read.1) fun text =>
              (readMembers (readMember item) fuel [] text).toOption) := by
  simp only [readMembers_succ, readMember_eq, Option.bind_assoc, Option.bind_map,
    Function.comp_def, List.nil_append]
  congr 1
  funext key
  congr 1
  funext text
  congr 1
  funext read
  congr 1
  funext continuation
  -- only here does it matter that the loop carries the members read before
  cases continuation with
  | ends rest => rfl
  | goesOn text => exact readMembers_append item fuel [(key.1, read.1)] text

/-! ## Readers for a builder follow the raw reader

`Makes` is what is kept from level to level: the made reader stops where the raw one stops. A
builder that refuses an item refuses the list, whether or not there are faults behind it.
-/

/-- The reader `made` reads what `raw` reads, makes of it what `make` says, and stops where it
stops. -/
def Makes (make : β → Option α) (raw : Reader β) (made : Reader α) : Prop :=
  ∀ text, (made text).toOption =
    (raw text).toOption.bind fun read => (make read.1).map (·, read.2)

/-- What is made of a member. -/
def makeMember? (make : β → Option α) (member : String × β) : Option (String × α) :=
  (make member.2).map (member.1, ·)

/-- Building the items of an array is building each of them. -/
theorem buildItems?_eq_mapM (builder : Builder α) (items : List Json) :
    buildItems? builder items = items.mapM (build? builder) := by
  induction items with
  | nil => rfl
  | cons item rest ih =>
    rw [buildItems?, List.mapM_cons, ih]
    cases build? builder item with
    | none => rfl
    | some first => cases rest.mapM (build? builder) <;> rfl

theorem buildMembers?_eq_mapM (builder : Builder α) (members : List (String × Json)) :
    buildMembers? builder members = members.mapM (makeMember? (build? builder)) := by
  induction members with
  | nil => rfl
  | cons member rest ih =>
    obtain ⟨key, item⟩ := member
    rw [buildMembers?, List.mapM_cons, ih, makeMember?]
    cases build? builder item with
    | none => rfl
    | some first => cases rest.mapM (makeMember? (build? builder)) <;> rfl

/-- A refused item makes the whole list refused, wherever it ends. -/
theorem goOn_makes {make : β → Option α} {rawMore : List Char → Option (List β × List Char)}
    {madeMore : List Char → Option (List α × List Char)}
    (h : ∀ text, madeMore text =
      (rawMore text).bind fun read => (read.1.mapM make).map (·, read.2))
    (item : β) (continuation : Option Continuation) :
    ((make item).bind fun value => continuation.bind (goOn value madeMore)) =
      (continuation.bind (goOn item rawMore)).bind
        fun read => (read.1.mapM make).map (·, read.2) := by
  cases continuation with
  | none => cases make item <;> rfl
  | some continuation =>
    cases continuation with
    | ends rest => cases hmake : make item <;> simp [goOn, hmake]
    | goesOn text =>
      -- a fault behind a refused item comes to the same: there is no list
      simp only [Option.bind_some, goOn, h text]
      cases rawMore text with
      | none => cases make item <;> rfl
      | some read =>
        simp only [Option.bind_some, Option.map_some, List.mapM_cons]
        cases make item with
        | none => rfl
        | some value => cases read.1.mapM make <;> rfl

section Loops

variable {make : β → Option α} {raw : Reader β} {made : Reader α} (h : Makes make raw made)

include h

/-- If the reader of an item follows the raw one, so does that of several. -/
theorem readItems_makes (fuel : Nat) :
    Makes (List.mapM make) (readItems raw fuel) (readItems made fuel) := by
  induction fuel with
  | zero =>
    intro text
    rfl
  | succ fuel ih =>
    intro text
    -- the first items are made alike, and then the rounds behind them
    rw [readItems_succ, readItems_succ, h, Option.bind_assoc, Option.bind_assoc]
    congr 1
    funext read
    rw [Option.bind_map]
    exact goOn_makes ih read.1 (afterItem? read.2)

theorem readArray_makes : Makes (List.mapM make) (readArray raw) (readArray made) := by
  intro text
  simp only [readArray]
  cases skipBlanks text with
  | nil => rfl
  | cons c rest =>
    by_cases hclose : c = ']'
    · simp only [if_pos hclose]
      rfl
    · simp only [if_neg hclose]
      exact readItems_makes h _ _

theorem readMembers_makes (fuel : Nat) :
    Makes (List.mapM (makeMember? make))
      (readMembers (readMember raw) fuel []) (readMembers (readMember made) fuel []) := by
  induction fuel with
  | zero =>
    intro text
    rfl
  | succ fuel ih =>
    intro text
    -- a round reads a key, a value and what is behind; building commutes with each of the three
    rw [readMembers_round, readMembers_round, Option.bind_assoc]
    congr 1
    funext key
    rw [Option.bind_assoc]
    congr 1
    funext text
    rw [h, Option.bind_assoc, Option.bind_assoc]
    congr 1
    funext read
    have hround := goOn_makes ih (key.1, read.1) (afterMember? read.2)
    rw [makeMember?, Option.bind_map] at hround
    rw [Option.bind_map]
    exact hround

theorem readObject_makes :
    Makes (List.mapM (makeMember? make))
      (readObject (readMember raw) []) (readObject (readMember made) []) := by
  intro text
  simp only [readObject]
  cases skipBlanks text with
  | nil => rfl
  | cons c rest =>
    by_cases hclose : c = '\x7d'
    · simp only [if_pos hclose]
      rfl
    by_cases hquote : c = '"'
    · simp only [if_neg hclose, if_pos hquote]
      -- a member
      exact readMembers_makes h _ _
    · simp only [if_neg hclose, if_neg hquote]
      rfl

end Loops

/-- A number is read as it is, and then the builder may refuse it. -/
theorem readNumberWith_builds (builder : Builder α) :
    Makes (build? builder) (readNumberWith rawBuilder) (readNumberWith builder) := by
  intro text
  simp only [readNumberWith, toOption_bind, Option.bind_assoc]
  congr 1
  funext read
  -- the raw reader takes every number as it is
  have hraw : rawBuilder.number read.1 = .ok (.number read.1) := rfl
  simp only [hraw]
  cases hnumber : builder.number read.1 with
  | ok value =>
    change some (value, read.2) = ((builder.number read.1).toOption).map (·, read.2)
    rw [hnumber]
    rfl
  | error mismatch =>
    change none = ((builder.number read.1).toOption).map (·, read.2)
    rw [hnumber]
    rfl

/-- **One level of nesting**: if the readers of nested values follow each other, so do those of
values. Where nothing may nest any more, both refuse an opening bracket. -/
theorem readValueWith_builds (builder : Builder α) {rawNested : Option (Reader Json)}
    {nested : Option (Reader α)}
    (hnested : (rawNested = none ∧ nested = none) ∨
      ∃ raw made, rawNested = some raw ∧ nested = some made ∧ Makes (build? builder) raw made) :
    Makes (build? builder) (readValueWith rawBuilder rawNested) (readValueWith builder nested) := by
  intro text
  simp only [readValueWith]
  cases skipBlanks text with
  | nil => rfl
  | cons c rest =>
    -- the first character decides what is read, in the order of the reader
    by_cases hn : c = 'n'
    · simp only [if_pos hn]
      cases readWord ['u', 'l', 'l'] rest <;> rfl
    by_cases ht : c = 't'
    · simp only [if_neg hn, if_pos ht]
      cases readWord ['r', 'u', 'e'] rest <;> rfl
    by_cases hf : c = 'f'
    · simp only [if_neg hn, if_neg ht, if_pos hf]
      cases readWord ['a', 'l', 's', 'e'] rest <;> rfl
    by_cases hnumber : c = '-' ∨ c.isDigit
    · simp only [if_neg hn, if_neg ht, if_neg hf, if_pos hnumber]
      exact readNumberWith_builds builder (c :: rest)
    by_cases hquote : c = '"'
    · simp only [if_neg hn, if_neg ht, if_neg hf, if_neg hnumber, if_pos hquote]
      cases readString rest <;> rfl
    by_cases hlist : c = '['
    · simp only [if_neg hn, if_neg ht, if_neg hf, if_neg hnumber, if_neg hquote, if_pos hlist]
      rcases hnested with ⟨rfl, rfl⟩ | ⟨raw, made, rfl, rfl, hmakes⟩
      · rfl
      · simp only [toOption_bind, readArray_makes hmakes rest, Option.bind_assoc]
        congr 1
        funext read
        rw [Option.bind_map]
        change _ = ((buildItems? builder read.1).map builder.array).map (·, read.2)
        rw [buildItems?_eq_mapM]
        cases read.1.mapM (build? builder) <;> rfl
    by_cases hobject : c = '\x7b'
    · simp only [if_neg hn, if_neg ht, if_neg hf, if_neg hnumber, if_neg hquote, if_neg hlist,
        if_pos hobject]
      rcases hnested with ⟨rfl, rfl⟩ | ⟨raw, made, rfl, rfl, hmakes⟩
      · rfl
      · simp only [toOption_bind, readObject_makes hmakes rest, Option.bind_assoc]
        congr 1
        funext read
        rw [Option.bind_map]
        change _ = ((buildMembers? builder read.1).map builder.object).map (·, read.2)
        rw [buildMembers?_eq_mapM]
        cases read.1.mapM (makeMember? (build? builder)) <;> rfl
    · simp only [if_neg hn, if_neg ht, if_neg hf, if_neg hnumber, if_neg hquote, if_neg hlist,
        if_neg hobject]
      rfl

/-- **A reader for a builder reads the raw tree and builds from it.** -/
theorem readValue_builds (builder : Builder α) (depth : Nat) :
    Makes (build? builder) (readValue rawBuilder depth) (readValue builder depth) := by
  induction depth with
  | zero => exact readValueWith_builds builder (.inl ⟨rfl, rfl⟩)
  | succ depth ih => exact readValueWith_builds builder (.inr ⟨_, _, rfl, rfl, ih⟩)

/-- The tree of a whole text with everything that stands in it. -/
def parseRaw (text : String) : Except Fault Json :=
  readWhole? (readValue rawBuilder depthLimit) text.toList

/-- **A builder's reader of whole texts** finds what it builds of the raw tree of the text. -/
theorem readWhole?_builds (builder : Builder α) (text : String) :
    (readWhole? (readValue builder depthLimit) text.toList).toOption =
      (parseRaw text).toOption.bind (build? builder) := by
  simp only [parseRaw, readWhole?, toOption_bind, readValue_builds builder depthLimit text.toList,
    Option.bind_assoc]
  congr 1
  funext read
  obtain ⟨json, rest⟩ := read
  simp only [Option.bind_map, Function.comp_def]
  -- nothing may stand behind the value, whoever has read it
  cases skipBlanks rest with
  | nil => exact Option.bind_fun_some (build? builder json)
  | cons c rest => cases build? builder json <;> rfl

end Json

end StepRelay
