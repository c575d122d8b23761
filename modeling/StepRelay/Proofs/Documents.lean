import StepRelay.Proofs.Scalars

/-!
# Reading documents

On the text of a document the raw reader finds exactly the document's raw tree, and nothing where
the document has none or nests deeper than the reader may go (`parseRaw_text`). The induction is on
the depth that is left: one level down, every item is read as the hypothesis says, so the two loops
only need to be followed over a list of items.

## The argument

* Behind an item stands what `follow` says, so the loops meet the same kind of text in every round
  (`readItems_round`, `readMembers_text_round`).
* `readItems_text` and `readMembers_text` are inductions over the items that are left; the fuel,
  which is the length of the text, is never used up before them.
* A scalar needs no depth (`readValueWith_scalar`); an array or an object takes one level and hands
  the rest on (`readValueWith_array`, `readValueWith_object`).
-/

namespace StepRelay.Json

variable {α : Type}

/-! ## Characters between the items

The text of a list of items is rather looked at from one of its items: what stands behind it is
`follow`, which is again an item behind a comma, or the end. So each round of a loop meets a text of
the same form.
-/

/-- What stands behind an item: the closing bracket, or a comma and the items that are left. -/
def follow (closing : Char) (rest : List Char) : List (List Char) → List Char
  | [] => closing :: rest
  | texts => ',' :: ([','].intercalate texts ++ closing :: rest)

/-- The first of some texts with commas between them, and what follows it. -/
theorem intercalate_cons (closing : Char) (rest first : List Char) (others : List (List Char)) :
    [','].intercalate (first :: others) ++ closing :: rest =
      first ++ follow closing rest others := by
  cases others <;> simp [List.intercalate, follow]

/-- Behind an item that is not the last stands a comma. -/
theorem follow_itemTexts (closing : Char) (rest : List Char) (item : Padded Document)
    (others : List (Padded Document)) :
    follow closing rest (Document.itemTexts (item :: others)) =
      ',' :: ([','].intercalate (Document.itemTexts (item :: others)) ++ closing :: rest) := rfl

theorem follow_memberTexts (closing : Char) (rest : List Char)
    (member : Padded (List Piece) × Padded Document)
    (others : List (Padded (List Piece) × Padded Document)) :
    follow closing rest (Document.memberTexts (member :: others)) =
      ',' :: ([','].intercalate (Document.memberTexts (member :: others)) ++ closing :: rest) := rfl

/-- A colon is read with the blanks before it. -/
theorem readColon_blanks (blanks : Blanks) (rest : List Char) :
    readColon (blanks.chars ++ ':' :: rest) = .ok rest := by
  rw [readColon, skipBlanks_append, skipBlanks_cons rfl]
  rfl

/-- A number ends where an item does: a blank, a comma or a bracket is no part of one. -/
theorem endsNumber_follow (behind : Blanks) {closing : Char} (h : closing = ']' ∨ closing = '\x7d')
    (rest : List Char) (texts : List (List Char)) :
    EndsNumber (behind.chars ++ follow closing rest texts) := by
  apply endsNumber_blanks
  cases texts with
  | nil =>
    intro c hc
    obtain rfl := Option.some.inj hc
    rcases h with rfl | rfl <;> decide
  | cons first others =>
    intro c hc
    obtain rfl := Option.some.inj hc
    decide

/-! ## Where a document begins

The reader tells the kinds of values apart by their first character. These lemmas say which
characters these are, so that the tests of the reader can be decided one after the other.
-/

namespace Literal

/-- A number begins with a digit or a minus sign. -/
theorem text_head (literal : Literal) :
    ∃ c rest, literal.text = c :: rest ∧ (c = '-' ∨ c.isDigit = true) := by
  obtain ⟨c, chars, hchars, hdigit⟩ := literal.whole.exists_cons
  unfold Literal.text
  cases literal.negative with
  | true => exact ⟨'-', _, rfl, .inl rfl⟩
  | false =>
    rw [if_neg Bool.false_ne_true, List.nil_append, hchars]
    exact ⟨c, _, rfl, .inr hdigit⟩

theorem head_ne_word {c : Char} (h : c = '-' ∨ c.isDigit = true) : c ≠ 'n' ∧ c ≠ 't' ∧ c ≠ 'f' := by
  refine ⟨?_, ?_, ?_⟩ <;> (rintro rfl; revert h; decide)

end Literal

/-- A character that can begin a document. -/
def Opens (c : Char) : Prop :=
  c ∈ ['n', 't', 'f', '"', '[', '\x7b'] ∨ c = '-' ∨ c.isDigit = true

theorem Opens.not_blank {c : Char} (h : Opens c) : isBlank c = false := by
  cases hblank : isBlank c with
  | false => rfl
  | true =>
    simp only [isBlank, Bool.or_eq_true, beq_iff_eq] at hblank
    rcases hblank with ((rfl | rfl) | rfl) | rfl <;> exact absurd h (by unfold Opens; decide)

theorem Opens.ne_bracket {c : Char} (h : Opens c) : c ≠ ']' := by
  rintro rfl
  exact absurd h (by unfold Opens; decide)

namespace Document

/-- Every document begins with a character of its kind. -/
theorem text_head (d : Document) : ∃ c rest, d.text = c :: rest ∧ Opens c := by
  cases d with
  | null => exact ⟨_, _, rfl, .inl (by decide)⟩
  | bool flag => cases flag <;> exact ⟨_, _, rfl, .inl (by decide)⟩
  | number literal =>
    obtain ⟨c, rest, htext, hc⟩ := literal.text_head
    exact ⟨c, rest, htext, .inr hc⟩
  | string pieces => exact ⟨_, _, rfl, .inl (by decide)⟩
  | array inside items => exact ⟨_, _, rfl, .inl (by decide)⟩
  | object inside members => exact ⟨_, _, rfl, .inl (by decide)⟩

/-- The blanks before a document are skipped, and no more. -/
theorem skipBlanks_text (before : Blanks) (d : Document) (rest : List Char) :
    skipBlanks (before.chars ++ (d.text ++ rest)) = d.text ++ rest := by
  obtain ⟨c, tail, htext, hc⟩ := d.text_head
  rw [skipBlanks_append, htext, List.cons_append, skipBlanks_cons hc.not_blank]

/-- A string up to its closing quote, and what stands behind it. -/
theorem text_string_append (pieces : List Piece) (rest : List Char) :
    (string pieces).text ++ rest = '"' :: (pieces.flatMap Piece.text ++ '"' :: rest) := by
  simp [text, Piece.quoted]

/-- An array up to its closing bracket, and what stands behind it. -/
theorem text_array_append (inside : Blanks) (items : List (Padded Document)) (rest : List Char) :
    (array inside items).text ++ rest =
      '[' :: (inside.chars ++ [','].intercalate (itemTexts items) ++ ']' :: rest) := by
  simp [text]

/-- An object up to its closing brace, and what stands behind it. -/
theorem text_object_append (inside : Blanks)
    (members : List (Padded (List Piece) × Padded Document)) (rest : List Char) :
    (object inside members).text ++ rest =
      '\x7b' :: (inside.chars ++ [','].intercalate (memberTexts members) ++ '\x7d' :: rest) := by
  simp [text]

end Document

/-! ## The loops

Both loops are followed under the same hypothesis: `item` reads each of the documents to what `make`
makes of it, as long as nothing behind a document could belong to a number. The rounds differ in
what they read, a document alone or a key with one, and in what may stand behind it.
-/

/-- With no item there, the array ends. -/
theorem itemsText_nil (rest : List Char) :
    skipBlanks ([','].intercalate (Document.itemTexts []) ++ ']' :: rest) = ']' :: rest :=
  skipBlanks_cons rfl rest

/-- With no member there, the object ends. -/
theorem membersText_nil (rest : List Char) :
    skipBlanks ([','].intercalate (Document.memberTexts []) ++ '\x7d' :: rest) = '\x7d' :: rest :=
  skipBlanks_cons rfl rest

/-- The items are, behind blanks, the first of them and what follows it. -/
theorem itemsText_cons (before : Blanks) (d : Document) (behind : Blanks)
    (others : List (Padded Document)) (rest : List Char) :
    skipBlanks ([','].intercalate (Document.itemTexts (⟨before, d, behind⟩ :: others)) ++
        ']' :: rest) =
      d.text ++ (behind.chars ++ follow ']' rest (Document.itemTexts others)) := by
  rw [Document.itemTexts, intercalate_cons, List.append_assoc, List.append_assoc,
    Document.skipBlanks_text]

/-- The members are, behind blanks, the key of the first, its colon, its document and what follows
that. -/
theorem membersText_cons (key : Padded (List Piece)) (before : Blanks) (d : Document)
    (behind : Blanks) (others : List (Padded (List Piece) × Padded Document)) (rest : List Char) :
    skipBlanks ([','].intercalate (Document.memberTexts ((key, ⟨before, d, behind⟩) :: others)) ++
        '\x7d' :: rest) =
      '"' :: (key.inner.flatMap Piece.text ++ '"' :: (key.behind.chars ++ ':' ::
        (before.chars ++ (d.text ++
          (behind.chars ++ follow '\x7d' rest (Document.memberTexts others)))))) := by
  rw [Document.memberTexts, intercalate_cons, Piece.quoted]
  simp only [List.append_assoc, List.cons_append, List.nil_append]
  rw [skipBlanks_append, skipBlanks_cons rfl]

/-- A member begins with the quote of its key. -/
theorem exists_membersText (first : Padded (List Piece) × Padded Document)
    (others : List (Padded (List Piece) × Padded Document)) (rest : List Char) :
    ∃ text, skipBlanks ([','].intercalate (Document.memberTexts (first :: others)) ++
      '\x7d' :: rest) = '"' :: text := by
  obtain ⟨key, before, d, behind⟩ := first
  exact ⟨_, membersText_cons key before d behind others rest⟩

/-- What follows the first quote gets shorter with each member. -/
theorem membersText_shorter {first second : Padded (List Piece) × Padded Document}
    {more : List (Padded (List Piece) × Padded Document)} {rest text next : List Char}
    (htext : skipBlanks ([','].intercalate (Document.memberTexts (first :: second :: more)) ++
      '\x7d' :: rest) = '"' :: text)
    (hnext : skipBlanks ([','].intercalate (Document.memberTexts (second :: more)) ++
      '\x7d' :: rest) = '"' :: next) : next.length < text.length := by
  obtain ⟨key, before, d, behind⟩ := first
  have hskip := length_skipBlanks_le
    ([','].intercalate (Document.memberTexts (second :: more)) ++ '\x7d' :: rest)
  rw [membersText_cons] at htext
  obtain rfl := (List.cons.inj htext).2
  rw [hnext] at hskip
  simp only [follow_memberTexts, List.length_append, List.length_cons] at hskip ⊢
  omega

/-- Behind the last item the array ends. -/
theorem afterItem?_last (behind : Blanks) (rest : List Char) :
    afterItem? (behind.chars ++ follow ']' rest []) = some (.ends rest) := by
  rw [follow, afterItem?, skipBlanks_append, skipBlanks_cons rfl]
  rfl

/-- Behind any other the next one is met, at its first character. -/
theorem afterItem?_more (behind : Blanks) (rest : List Char) (second : Padded Document)
    (more : List (Padded Document)) :
    afterItem? (behind.chars ++ follow ']' rest (Document.itemTexts (second :: more))) =
      some (.goesOn (skipBlanks
        ([','].intercalate (Document.itemTexts (second :: more)) ++ ']' :: rest))) := by
  obtain ⟨before, d, after⟩ := second
  obtain ⟨c, tail, hhead, hopens⟩ := d.text_head
  have hnext := itemsText_cons before d after more rest
  rw [hhead, List.cons_append] at hnext
  rw [afterItem?, skipBlanks_append, follow_itemTexts, skipBlanks_cons rfl]
  simp only [hnext, if_neg hopens.ne_bracket]
  rfl

/-- Behind the last member the object ends. -/
theorem afterMember?_last (behind : Blanks) (rest : List Char) :
    afterMember? (behind.chars ++ follow '\x7d' rest []) = some (.ends rest) := by
  rw [follow, afterMember?, skipBlanks_append, skipBlanks_cons rfl]
  rfl

/-- Behind any other the key of the next one is met. -/
theorem afterMember?_more (behind : Blanks) {rest text : List Char}
    {second : Padded (List Piece) × Padded Document}
    {more : List (Padded (List Piece) × Padded Document)}
    (h : skipBlanks ([','].intercalate (Document.memberTexts (second :: more)) ++ '\x7d' :: rest) =
      '"' :: text) :
    afterMember? (behind.chars ++ follow '\x7d' rest (Document.memberTexts (second :: more))) =
      some (.goesOn text) := by
  obtain ⟨key, before, d, after⟩ := second
  rw [afterMember?, skipBlanks_append, follow_memberTexts, skipBlanks_cons rfl]
  simp only [h]
  rfl

section Loops

variable {item : Reader α} {make : Document → Option α}

/-- What is made of a member whose key has a meaning. -/
def makeNamed? (make : Document → Option α) (member : Padded (List Piece) × Padded Document) :
    Option (String × α) :=
  (Piece.meaning? member.1.inner).bind fun name =>
    (make member.2.inner).map (.ofList name, ·)

variable
  (h : ∀ (before : Blanks) (d : Document) (rest : List Char), EndsNumber rest →
    (item (before.chars ++ (d.text ++ rest))).toOption = (make d).map (·, rest))

include h

/-- One round of the loop over items: the document is read, and what stands behind it decides
whether the loop goes on. -/
theorem readItems_round (fuel : Nat) (d : Document) (behind : Blanks) (rest : List Char)
    (texts : List (List Char)) :
    (readItems item (fuel + 1) (d.text ++ (behind.chars ++ follow ']' rest texts))).toOption =
      (make d).bind fun first =>
        (afterItem? (behind.chars ++ follow ']' rest texts)).bind
          (goOn first fun text => (readItems item fuel text).toOption) := by
  have hitem := h .none d _ (endsNumber_follow behind (.inl rfl) rest texts)
  change (item (d.text ++ (behind.chars ++ follow ']' rest texts))).toOption = _ at hitem
  rw [readItems_succ, hitem, Option.bind_map]
  rfl

/-- **The items of an array are read one by one.** The induction is on the items that are left, and
the fuel of each round is enough since the document before it has taken a character. -/
theorem readItems_text (rest : List Char) (first : Padded Document)
    (others : List (Padded Document)) :
    ∀ fuel, (skipBlanks ([','].intercalate (Document.itemTexts (first :: others)) ++
        ']' :: rest)).length ≤ fuel →
      (readItems item fuel (skipBlanks
        ([','].intercalate (Document.itemTexts (first :: others)) ++ ']' :: rest))).toOption =
        ((first :: others).mapM fun item => make item.inner).map (·, rest) := by
  induction others generalizing first with
  -- the last item: the array ends behind it
  | nil =>
    obtain ⟨before, d, behind⟩ := first
    obtain ⟨c, tail, hhead, -⟩ := d.text_head
    rw [itemsText_cons]
    rintro (_ | fuel) hfuel
    · simp [hhead] at hfuel
    · rw [readItems_round h, Document.itemTexts, afterItem?_last]
      cases hmake : make d <;> simp [goOn, hmake]
  | cons second more ih =>
    obtain ⟨before, d, behind⟩ := first
    obtain ⟨c, tail, hhead, -⟩ := d.text_head
    rw [itemsText_cons]
    rintro (_ | fuel) hfuel
    · simp [hhead] at hfuel
    · -- the document itself takes a character, so the fuel that is left is enough for the others
      have hskip := length_skipBlanks_le
        ([','].intercalate (Document.itemTexts (second :: more)) ++ ']' :: rest)
      have hothers := ih second fuel (by
        rw [follow_itemTexts, hhead, List.length_append, List.length_append, List.length_cons,
          List.length_cons] at hfuel
        omega)
      rw [readItems_round h, afterItem?_more, List.mapM_cons]
      simp only [Option.bind_some, goOn, hothers]
      cases make d with
      | none => rfl
      | some value =>
        cases (second :: more).mapM fun item => make item.inner <;> rfl

/-- One round of the loop over members: key, colon and document are read, and what stands behind
them decides whether the loop goes on. -/
theorem readMembers_text_round (fuel : Nat) (key : Padded (List Piece)) (before : Blanks)
    (d : Document) (behind : Blanks) (rest : List Char) (texts : List (List Char)) :
    (readMembers (readMember item) (fuel + 1) []
        (key.inner.flatMap Piece.text ++ '"' :: (key.behind.chars ++ ':' ::
          (before.chars ++ (d.text ++ (behind.chars ++ follow '\x7d' rest texts)))))).toOption =
      (makeNamed? make (key, ⟨before, d, behind⟩)).bind fun first =>
        (afterMember? (behind.chars ++ follow '\x7d' rest texts)).bind
          (goOn first fun text => (readMembers (readMember item) fuel [] text).toOption) := by
  have hitem := h before d _ (endsNumber_follow behind (.inr rfl) rest texts)
  rw [readMembers_round, readString_pieces, Option.bind_map]
  unfold makeNamed?
  cases Piece.meaning? key.inner with
  | none => rfl
  | some name =>
    change (readColon (key.behind.chars ++ ':' :: _)).toOption.bind _ = _
    rw [readColon_blanks, toOption_ok, Option.bind_some, hitem]
    cases make d <;> rfl

/-- **The members of an object are read one by one**, by the same induction. -/
theorem readMembers_text (rest : List Char) (first : Padded (List Piece) × Padded Document)
    (others : List (Padded (List Piece) × Padded Document)) :
    ∀ text, skipBlanks ([','].intercalate (Document.memberTexts (first :: others)) ++
        '\x7d' :: rest) = '"' :: text →
      ∀ fuel, text.length < fuel →
        (readMembers (readMember item) fuel [] text).toOption =
          ((first :: others).mapM (makeNamed? make)).map (·, rest) := by
  induction others generalizing first with
  -- the last member: the object ends behind it
  | nil =>
    obtain ⟨key, before, d, behind⟩ := first
    rw [membersText_cons]
    intro text htext
    obtain rfl := (List.cons.inj htext).2
    rintro (_ | fuel) hfuel
    · cases hfuel
    · rw [readMembers_text_round h, Document.memberTexts, afterMember?_last]
      cases hmake : makeNamed? make (key, ⟨before, d, behind⟩) <;> simp [goOn, hmake]
  | cons second more ih =>
    obtain ⟨key, before, d, behind⟩ := first
    obtain ⟨next, hnext⟩ := exists_membersText second more rest
    intro text htext
    rintro (_ | fuel) hfuel
    · cases hfuel
    · have hshorter := membersText_shorter htext hnext
      have hothers := ih second next hnext fuel (by omega)
      rw [membersText_cons] at htext
      obtain rfl := (List.cons.inj htext).2
      rw [readMembers_text_round h, afterMember?_more behind hnext, List.mapM_cons]
      simp only [Option.bind_some, goOn, hothers]
      cases makeNamed? make (key, ⟨before, d, behind⟩) with
      | none => rfl
      | some value => cases (second :: more).mapM (makeNamed? make) <;> rfl

/-- An array is read to what is made of its items. -/
theorem readArray_text (inside : Blanks) (items : List (Padded Document)) (rest : List Char) :
    (readArray item (inside.chars ++ [','].intercalate (Document.itemTexts items) ++
        ']' :: rest)).toOption =
      (items.mapM fun item => make item.inner).map (·, rest) := by
  rw [List.append_assoc, readArray, skipBlanks_append]
  cases items with
  | nil =>
    rw [itemsText_nil]
    rfl
  | cons first others =>
    -- an item follows the bracket, so the text does not go on with the closing one
    have hread := readItems_text h rest first others _ (Nat.le_refl _)
    obtain ⟨before, d, behind⟩ := first
    obtain ⟨c, tail, hhead, hopens⟩ := d.text_head
    rw [itemsText_cons, hhead, List.cons_append] at hread ⊢
    simp only [if_neg hopens.ne_bracket]
    exact hread

/-- An object is read to what is made of its members. -/
theorem readObject_text (inside : Blanks) (members : List (Padded (List Piece) × Padded Document))
    (rest : List Char) :
    (readObject (readMember item) [] (inside.chars ++
        [','].intercalate (Document.memberTexts members) ++ '\x7d' :: rest)).toOption =
      (members.mapM (makeNamed? make)).map (·, rest) := by
  rw [List.append_assoc, readObject, skipBlanks_append]
  cases members with
  | nil =>
    rw [membersText_nil]
    rfl
  | cons first others =>
    obtain ⟨key, before, d, behind⟩ := first
    have htext := membersText_cons key before d behind others rest
    have hread := readMembers_text h rest (key, ⟨before, d, behind⟩) others _ htext _
      (Nat.lt_succ_self _)
    rw [htext]
    exact hread

end Loops

/-! ## Whole values

One level of the reader is a case distinction over the documents, where a bracket may be opened only
if there is depth left. The last induction puts the levels together.
-/

namespace Document

/-- The raw tree of a document that nests no deeper than `depth`. -/
def within? (depth : Nat) (d : Document) : Option Json :=
  if d.depth ≤ depth then d.tree? else none

/-- All items have a tree in the depth that is left if the deepest of them fits in it. -/
theorem mapM_within? (depth : Nat) (items : List (Padded Document)) :
    (items.mapM fun item => within? depth item.inner) =
      if depthOfItems items ≤ depth then itemTrees? items else none := by
  induction items with
  | nil => rfl
  | cons item others ih =>
    obtain ⟨before, d, behind⟩ := item
    rw [List.mapM_cons, ih, depthOfItems, itemTrees?, within?]
    -- too deep are all of them, or the first, or one of the others
    by_cases hd : d.depth ≤ depth
    · by_cases hothers : depthOfItems others ≤ depth
      · rw [if_pos hd, if_pos hothers, if_pos (Nat.max_le.2 ⟨hd, hothers⟩)]
        cases d.tree? with
        | none => rfl
        | some first => cases itemTrees? others <;> rfl
      · rw [if_pos hd, if_neg hothers, if_neg (fun hmax => hothers (Nat.max_le.1 hmax).2)]
        cases d.tree? <;> rfl
    · rw [if_neg hd, if_neg (fun hmax => hd (Nat.max_le.1 hmax).1)]
      rfl

theorem mapM_makeNamed? (depth : Nat) (members : List (Padded (List Piece) × Padded Document)) :
    members.mapM (makeNamed? (within? depth)) =
      if depthOfMembers members ≤ depth then memberTrees? members else none := by
  induction members with
  | nil => rfl
  | cons member others ih =>
    obtain ⟨key, before, d, behind⟩ := member
    rw [List.mapM_cons, ih, depthOfMembers, memberTrees?, makeNamed?, within?]
    -- too deep are all of them, or the first, or one of the others
    by_cases hd : d.depth ≤ depth
    · by_cases hothers : depthOfMembers others ≤ depth
      · rw [if_pos hd, if_pos hothers, if_pos (Nat.max_le.2 ⟨hd, hothers⟩)]
        cases Piece.meaning? key.inner with
        | none => rfl
        | some name =>
          cases d.tree? with
          | none => rfl
          | some first => cases memberTrees? others <;> rfl
      · rw [if_pos hd, if_neg hothers, if_neg (fun hmax => hothers (Nat.max_le.1 hmax).2)]
        cases Piece.meaning? key.inner with
        | none => rfl
        | some name => cases d.tree? <;> rfl
    · rw [if_neg hd, if_neg (fun hmax => hd (Nat.max_le.1 hmax).1)]
      cases Piece.meaning? key.inner <;> rfl

end Document

theorem readNumberWith_text (literal : Literal) {rest : List Char} (h : EndsNumber rest) :
    (readNumberWith rawBuilder (literal.text ++ rest)).toOption =
      (Document.number literal).tree?.map (·, rest) := by
  have hraw : ∀ n, rawBuilder.number n = .ok (.number n) := fun n => rfl
  rw [readNumberWith, toOption_bind, readNumber_text literal h, Document.tree?]
  simp only [hraw]
  cases literal.number? <;> rfl

/-- A scalar is read alike whether or not a bracket may be opened. -/
theorem readValueWith_scalar (nested : Option (Reader Json)) (before : Blanks) (d : Document)
    (hscalar : d.depth = 0) {rest : List Char} (hrest : EndsNumber rest) :
    (readValueWith rawBuilder nested (before.chars ++ (d.text ++ rest))).toOption =
      d.tree?.map (·, rest) := by
  rw [readValueWith, Document.skipBlanks_text]
  -- the first character decides which reader goes on
  cases d with
  | null => rfl
  | bool flag => cases flag <;> rfl
  | number literal =>
    obtain ⟨c, tail, htext, hc⟩ := literal.text_head
    -- no number begins like one of the words
    have hword := Literal.head_ne_word hc
    have hread := readNumberWith_text literal hrest
    rw [Document.text, htext, List.cons_append]
    simp only [if_neg hword.1, if_neg hword.2.1, if_neg hword.2.2, if_pos hc]
    rw [htext, List.cons_append] at hread
    exact hread
  | string pieces =>
    rw [Document.text_string_append]
    -- a string is unescaped as it is read
    change (readString (pieces.flatMap Piece.text ++ '"' :: rest) >>= _).toOption = _
    rw [toOption_bind, readString_pieces, Document.tree?]
    cases Piece.meaning? pieces <;> rfl
  | array inside items => cases hscalar
  | object inside members => cases hscalar

/-- Where no bracket may be opened, anything with a bracket is refused. -/
theorem readValueWith_closed (before : Blanks) (d : Document) (hdepth : d.depth ≠ 0)
    (rest : List Char) :
    (readValueWith rawBuilder none (before.chars ++ (d.text ++ rest))).toOption = none := by
  rw [readValueWith, Document.skipBlanks_text]
  cases d with
  | null => exact absurd rfl hdepth
  | bool flag => exact absurd rfl hdepth
  | number literal => exact absurd rfl hdepth
  | string pieces => exact absurd rfl hdepth
  | array inside items => rfl
  | object inside members => rfl

section Nested

variable {item : Reader Json} {make : Document → Option Json}
  (h : ∀ (before : Blanks) (d : Document) (rest : List Char), EndsNumber rest →
    (item (before.chars ++ (d.text ++ rest))).toOption = (make d).map (·, rest))

include h

/-- An array is read with a reader for what is in it. -/
theorem readValueWith_array (before inside : Blanks) (items : List (Padded Document))
    (rest : List Char) :
    (readValueWith rawBuilder (some item)
        (before.chars ++ ((Document.array inside items).text ++ rest))).toOption =
      ((items.mapM fun item => make item.inner).map .array).map (·, rest) := by
  rw [readValueWith, Document.skipBlanks_text, Document.text_array_append]
  change (readArray item _ >>= _).toOption = _
  rw [toOption_bind, readArray_text h]
  cases items.mapM fun item => make item.inner <;> rfl

theorem readValueWith_object (before inside : Blanks)
    (members : List (Padded (List Piece) × Padded Document)) (rest : List Char) :
    (readValueWith rawBuilder (some item)
        (before.chars ++ ((Document.object inside members).text ++ rest))).toOption =
      ((members.mapM (makeNamed? make)).map .object).map (·, rest) := by
  rw [readValueWith, Document.skipBlanks_text, Document.text_object_append]
  change (readObject (readMember item) [] _ >>= _).toOption = _
  rw [toOption_bind, readObject_text h]
  cases members.mapM (makeNamed? make) <;> rfl

end Nested

/-- **The raw reader reads every document** that nests no deeper than it may go, and no other. -/
theorem readValue_text (depth : Nat) :
    ∀ (before : Blanks) (d : Document) (rest : List Char), EndsNumber rest →
      (readValue rawBuilder depth (before.chars ++ (d.text ++ rest))).toOption =
        (d.within? depth).map (·, rest) := by
  induction depth with
  | zero =>
    -- no bracket may be opened any more, and only scalars do without
    intro before d rest hrest
    rw [readValue, Document.within?]
    by_cases hscalar : d.depth = 0
    · rw [if_pos (Nat.le_of_eq hscalar), readValueWith_scalar none before d hscalar hrest]
    · rw [if_neg (fun hle => hscalar (Nat.le_zero.1 hle)),
        readValueWith_closed before d hscalar rest]
      rfl
  | succ depth ih =>
    intro before d rest hrest
    rw [readValue, Document.within?]
    cases d with
    -- a bracket takes one level, so the items have one less
    | array inside items =>
      rw [readValueWith_array ih, Document.mapM_within?, Document.depth, Document.tree?]
      by_cases hdepth : Document.depthOfItems items ≤ depth
      · rw [if_pos hdepth, if_pos (Nat.succ_le_succ hdepth)]
      · rw [if_neg hdepth, if_neg (fun hle => hdepth (Nat.le_of_succ_le_succ hle))]
        rfl
    | object inside members =>
      rw [readValueWith_object ih, Document.mapM_makeNamed?, Document.depth, Document.tree?]
      by_cases hdepth : Document.depthOfMembers members ≤ depth
      · rw [if_pos hdepth, if_pos (Nat.succ_le_succ hdepth)]
      · rw [if_neg hdepth, if_neg (fun hle => hdepth (Nat.le_of_succ_le_succ hle))]
        rfl
    | null | bool flag | number literal | string pieces =>
      exact readValueWith_scalar _ before _ rfl hrest

/-- The text of a whole document, blanks around it included. -/
def Padded.text (document : Padded Document) : String :=
  .ofList (document.before.chars ++ (document.inner.text ++ document.behind.chars))

/-- **A text of the grammar has the raw tree of its document**, unless it nests too deep. -/
theorem parseRaw_text (document : Padded Document) :
    (parseRaw document.text).toOption = document.inner.within? depthLimit := by
  obtain ⟨before, d, behind⟩ := document
  -- nothing but blanks stands behind the document
  have hends : EndsNumber behind.chars := by
    have hnil : EndsNumber [] := by
      rintro c ⟨⟩
    have hblanks := endsNumber_blanks behind hnil
    rwa [List.append_nil] at hblanks
  rw [parseRaw, Padded.text, String.toList_ofList, readWhole?, toOption_bind,
    readValue_text depthLimit before d behind.chars hends]
  cases d.within? depthLimit with
  | none => rfl
  | some raw =>
    simp only [Option.map_some, Option.bind_some, skipBlanks_chars]
    rfl

end StepRelay.Json
