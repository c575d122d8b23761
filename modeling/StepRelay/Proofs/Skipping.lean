import StepRelay.Json.Skip
import StepRelay.Proofs.Documents

/-!
# What is skipped

The value of an unknown field is passed over without being built, and nothing in it can stop that:
any document is skipped to its end (`skipValue_text`), however deep it nests, however large its
numbers are, and whether or not its escapes form characters. The induction is on the brackets that
may still be opened; an open bracket is a character of the text, so there are enough of them
(`Document.depth_le_length`).
-/

namespace StepRelay.Json

/-! ## Numbers

The skipping reader follows the reading one, and drops what that one would compute.
-/

/-- The digits of an exponent are passed over, once its sign has been taken off the text. -/
def skipExponentDigits (text : List Char) : Except Fault (List Char) :=
  match spanDigits text with
  | ([], rest) => faultAt .invalidNumber rest
  | (_, rest) => .ok rest

/-- The digits of an exponent are passed over, however many there are. -/
theorem skipExponentDigits_append (digits : Digits) {rest : List Char} (h : NoDigit rest) :
    skipExponentDigits (digits.chars ++ rest) = .ok rest := by
  obtain ⟨c, chars, hchars, -⟩ := digits.exists_cons
  rw [skipExponentDigits, spanDigits_append digits.digits h, hchars]

/-- Behind the mark of an exponent comes its sign, and then its digits. -/
theorem skipExponent_mark {mark : Char} (h : mark = 'e' ∨ mark = 'E') (text : List Char) :
    skipExponent (mark :: text) = skipExponentDigits (takeSign text).2 := by
  unfold skipExponent
  change (if mark = 'e' ∨ mark = 'E' then _ else _) = _
  rw [if_pos h]
  fun_cases takeSign text with
  | case1 rest => rfl
  | case2 rest => rfl
  | case3 hplus hminus =>
    -- without a sign, both go on with the text as it is
    simp only
    rfl

/-- An exponent is passed over, if there is one. -/
theorem skipExponent_text (literal : Literal) {rest : List Char} (h : EndsNumber rest) :
    skipExponent (literal.exponentText ++ rest) = .ok rest := by
  unfold Literal.exponentText
  cases literal.exponent with
  | none =>
    cases rest with
    | nil => rfl
    | cons c rest =>
      obtain ⟨-, -, he, hE⟩ := h c rfl
      exact if_neg (not_or.2 ⟨he, hE⟩)
  | some part =>
    change skipExponent (part.text ++ rest) = _
    rw [ExponentPart.text, List.cons_append, List.append_assoc, skipExponent_mark part.mark_cases,
      takeSign_text, skipExponentDigits_append part.digits h.noDigit]

/-- What stands behind the whole digits of a number is passed over. -/
def skipFraction (text : List Char) : Except Fault (List Char) :=
  match text with
  | '.' :: text =>
    match spanDigits text with
    | ([], rest) => faultAt .invalidNumber rest
    | (_, rest) => skipExponent rest
  | text => skipExponent text

theorem skipFraction_text (literal : Literal) {rest : List Char} (h : EndsNumber rest) :
    skipFraction (literal.fractionText ++ (literal.exponentText ++ rest)) = .ok rest := by
  obtain ⟨hdigit, hpoint⟩ := exponentText_head literal h
  have hexponent := skipExponent_text literal h
  unfold Literal.fractionText
  cases literal.fraction with
  | none =>
    rw [List.nil_append]
    unfold skipFraction
    -- no fraction, and no point in what follows
    split
    · next tail heq =>
      rw [heq] at hpoint
      exact absurd rfl hpoint
    · exact hexponent
  | some digits =>
    obtain ⟨c, chars, hchars, -⟩ := digits.exists_cons
    change skipFraction ('.' :: (digits.chars ++ (literal.exponentText ++ rest))) = _
    rw [skipFraction, spanDigits_append digits.digits hdigit, hchars]
    exact hexponent

/-- A number is passed over in its parts, behind its sign. -/
theorem skipNumber_eq {text : List Char} (h : (takeMinus text).2 ≠ []) :
    skipNumber text = readWhole (takeMinus text).2 >>= fun read => skipFraction read.2 := by
  revert h
  unfold skipNumber
  fun_cases takeMinus text with
  | case1 rest =>
    intro h
    exact if_neg h
  | case2 hminus =>
    intro h
    simp only
    exact if_neg h

/-- **Any number is passed over**, of whatever size. -/
theorem skipNumber_text (literal : Literal) {rest : List Char} (h : EndsNumber rest) :
    skipNumber (literal.text ++ rest) = .ok rest := by
  obtain ⟨hdigit, -⟩ := exponentText_head literal h
  have hwhole := readWhole_digits literal.leading (noDigit_fractionText literal hdigit)
  have hne : (takeMinus (literal.text ++ rest)).2 ≠ [] := by
    rw [takeMinus_text]
    exact List.append_ne_nil_of_left_ne_nil literal.whole.nonempty _
  rw [skipNumber_eq hne, takeMinus_text, hwhole]
  exact skipFraction_text literal h

/-! ## Strings -/

theorem skipEscape_short {letter meaning : Char} (h : (letter, meaning) ∈ shortEscapes)
    (rest : List Char) : skipEscape (letter :: rest) = .ok rest := by
  have hletter : letter ∈ ['"', '\\', '/', 'b', 'f', 'n', 'r', 't'] :=
    List.mem_map_of_mem (f := Prod.fst) h
  exact if_pos hletter

/-- And so is a long one, be it half of a character or a whole one. -/
theorem skipEscape_unit (hex : Hex) (rest : List Char) :
    skipEscape ('u' :: (hex.chars ++ rest)) = .ok rest := by
  change (readHex (hex.chars ++ rest) >>= fun read => pure read.2) = _
  rw [readHex_chars]
  rfl

theorem skipStringBody_pieces (pieces : List Piece) (rest : List Char) (spare : Nat) :
    skipStringBody (spare + pieces.length + 1) (pieces.flatMap Piece.text ++ '"' :: rest) =
      .ok rest := by
  induction pieces with
  | nil => rfl
  | cons piece others ih =>
    cases piece with
    | plain c allowed =>
      change skipStringBody (spare + others.length + 1 + 1) (c :: _) = _
      rw [skipStringBody, if_neg allowed.1, if_neg allowed.2.1, if_neg (Nat.not_lt.2 allowed.2.2)]
      exact ih
    | short letter meaning known =>
      change (skipEscape (letter :: _) >>= skipStringBody (spare + others.length + 1)) = _
      rw [skipEscape_short known]
      exact ih
    | unit hex =>
      -- half of a surrogate pair is as good as any other unit
      rw [flatMap_text_unit]
      change (skipEscape ('u' :: _) >>= skipStringBody (spare + others.length + 1)) = _
      rw [skipEscape_unit]
      exact ih

/-- **Any string is passed over**, whether or not its pieces mean anything. -/
theorem skipString_pieces (pieces : List Piece) (rest : List Char) :
    skipString (pieces.flatMap Piece.text ++ '"' :: rest) = .ok rest := by
  have hpieces := length_le_flatMap_text pieces
  obtain ⟨spare, hspare⟩ : ∃ spare,
      (pieces.flatMap Piece.text ++ '"' :: rest).length = spare + pieces.length :=
    Nat.exists_eq_add_of_le' (by rw [List.length_append]; omega)
  rw [skipString, hspare, skipStringBody_pieces]

/-! ## Arrays and objects

The hypothesis is that `item` passes over every document that opens fewer brackets than `depth`. The
induction is over the items behind the first one.
-/

section Rounds

variable {item : List Char → Except Fault (List Char)} {text value after next rest : List Char}
  {fuel : Nat}

/-- An item with the closing bracket behind it is the last. -/
theorem skipItems_of_last (h : item text = .ok after) (hafter : skipBlanks after = ']' :: rest) :
    skipItems item (fuel + 1) text = .ok rest :=
  bind_eq_ok_iff.2 ⟨after, h, by rw [hafter]; rfl⟩

/-- One with a comma behind it is not. -/
theorem skipItems_of_more (h : item text = .ok after) (hafter : skipBlanks after = ',' :: next)
    (hnext : skipItems item fuel next = .ok rest) : skipItems item (fuel + 1) text = .ok rest :=
  bind_eq_ok_iff.2 ⟨after, h, by rw [hafter]; exact hnext⟩

variable {key : Padded (List Piece)}
  (hkey : skipBlanks text =
    '"' :: (key.inner.flatMap Piece.text ++ '"' :: (key.behind.chars ++ ':' :: value)))

include hkey

/-- A member with the closing brace behind it is the last. -/
theorem skipMembers_of_last (h : item value = .ok after)
    (hafter : skipBlanks after = '\x7d' :: rest) : skipMembers item (fuel + 1) text = .ok rest := by
  rw [skipMembers, hkey]
  exact bind_eq_ok_iff.2 ⟨_, skipString_pieces key.inner _,
    bind_eq_ok_iff.2 ⟨_, readColon_blanks key.behind value,
      bind_eq_ok_iff.2 ⟨after, h, by rw [hafter]; rfl⟩⟩⟩

/-- One with a comma behind it is not. -/
theorem skipMembers_of_more (h : item value = .ok after)
    (hafter : skipBlanks after = ',' :: next) (hnext : skipMembers item fuel next = .ok rest) :
    skipMembers item (fuel + 1) text = .ok rest := by
  rw [skipMembers, hkey]
  exact bind_eq_ok_iff.2 ⟨_, skipString_pieces key.inner _,
    bind_eq_ok_iff.2 ⟨_, readColon_blanks key.behind value,
      bind_eq_ok_iff.2 ⟨after, h, by rw [hafter]; exact hnext⟩⟩⟩

end Rounds

/-- What follows is longer than the number of items that follow, so there is fuel for all. -/
theorem length_lt_length_follow (closing : Char) (rest : List Char) (texts : List (List Char)) :
    texts.length < (follow closing rest texts).length := by
  induction texts with
  | nil => exact Nat.succ_pos _
  | cons first others ih =>
    change others.length + 1 <
      (',' :: ([','].intercalate (first :: others) ++ closing :: rest)).length
    rw [intercalate_cons, List.length_cons, List.length_append]
    omega

section Loops

variable {item : List Char → Except Fault (List Char)} {depth : Nat}
  (h : ∀ (before : Blanks) (d : Document) (rest : List Char), d.depth < depth → EndsNumber rest →
    item (before.chars ++ (d.text ++ rest)) = .ok rest)

include h

theorem skipItems_text (before : Blanks) (d : Document) (behind : Blanks)
    (others : List (Padded Document)) (rest : List Char) (hd : d.depth < depth)
    (hothers : Document.depthOfItems others < depth) {fuel : Nat}
    (hfuel : (Document.itemTexts others).length ≤ fuel) :
    skipItems item (fuel + 1) (before.chars ++ (d.text ++
      (behind.chars ++ follow ']' rest (Document.itemTexts others)))) = .ok rest := by
  induction others generalizing before d behind fuel with
  | nil =>
    refine skipItems_of_last (h before d _ hd (endsNumber_follow behind (.inl rfl) rest [])) ?_
    rw [skipBlanks_append, Document.itemTexts, follow, skipBlanks_cons rfl]
  | cons second more ih =>
    obtain ⟨nextBefore, next, nextBehind⟩ := second
    obtain ⟨fuel, rfl⟩ := Nat.exists_eq_add_one_of_ne_zero (Nat.ne_zero_of_lt hfuel)
    obtain ⟨hnext, hmore⟩ := Nat.max_lt.1 hothers
    have hrest := ih nextBefore next nextBehind hnext hmore (Nat.le_of_succ_le_succ hfuel)
    refine skipItems_of_more (h before d _ hd (endsNumber_follow behind (.inl rfl) rest _)) ?_ hrest
    rw [skipBlanks_append, follow_itemTexts, skipBlanks_cons rfl, Document.itemTexts,
      intercalate_cons, List.append_assoc, List.append_assoc]

theorem skipArray_text (inside : Blanks) (items : List (Padded Document)) (rest : List Char)
    (hitems : Document.depthOfItems items < depth) :
    skipArray item (inside.chars ++ [','].intercalate (Document.itemTexts items) ++ ']' :: rest) =
      .ok rest := by
  rw [List.append_assoc, skipArray, skipBlanks_append]
  cases items with
  | nil =>
    rw [itemsText_nil]
    rfl
  | cons first others =>
    obtain ⟨before, d, behind⟩ := first
    obtain ⟨hd, hothers⟩ := Nat.max_lt.1 hitems
    obtain ⟨c, tail, hhead, hopens⟩ := d.text_head
    -- there is fuel for every item, since each begins behind a comma of its own
    have hfuel : (Document.itemTexts others).length ≤
        (tail ++ (behind.chars ++ follow ']' rest (Document.itemTexts others))).length := by
      have hfollow := length_lt_length_follow ']' rest (Document.itemTexts others)
      rw [List.length_append, List.length_append]
      omega
    have hskip := skipItems_text h .none d behind others rest hd hothers hfuel
    change skipItems item _ (d.text ++ _) = _ at hskip
    rw [itemsText_cons]
    -- the first item does not look like the end of the array
    rw [hhead, List.cons_append] at hskip ⊢
    simp only [if_neg hopens.ne_bracket]
    exact hskip

/-- Members are passed over one by one, keys and all. -/
theorem skipMembers_text {key : Padded (List Piece)} {text : List Char} (before : Blanks)
    (d : Document) (behind : Blanks) (others : List (Padded (List Piece) × Padded Document))
    (rest : List Char) (hd : d.depth < depth) (hothers : Document.depthOfMembers others < depth)
    {fuel : Nat} (hfuel : (Document.memberTexts others).length ≤ fuel)
    (htext : skipBlanks text = '"' :: (key.inner.flatMap Piece.text ++ '"' :: (key.behind.chars ++
      ':' :: (before.chars ++ (d.text ++
        (behind.chars ++ follow '\x7d' rest (Document.memberTexts others))))))) :
    skipMembers item (fuel + 1) text = .ok rest := by
  induction others generalizing key before d behind fuel text with
  | nil =>
    refine skipMembers_of_last htext
      (h before d _ hd (endsNumber_follow behind (.inr rfl) rest [])) ?_
    rw [skipBlanks_append, Document.memberTexts, follow, skipBlanks_cons rfl]
  | cons second more ih =>
    obtain ⟨nextKey, nextBefore, next, nextBehind⟩ := second
    obtain ⟨fuel, rfl⟩ := Nat.exists_eq_add_one_of_ne_zero (Nat.ne_zero_of_lt hfuel)
    obtain ⟨hnext, hmore⟩ := Nat.max_lt.1 hothers
    -- the next member begins behind the comma
    have hrest := ih nextBefore next nextBehind hnext hmore (Nat.le_of_succ_le_succ hfuel)
      (membersText_cons nextKey nextBefore next nextBehind more rest)
    refine skipMembers_of_more htext
      (h before d _ hd (endsNumber_follow behind (.inr rfl) rest _)) ?_ hrest
    rw [skipBlanks_append, follow_memberTexts, skipBlanks_cons rfl]

theorem skipObject_text (inside : Blanks) (members : List (Padded (List Piece) × Padded Document))
    (rest : List Char) (hmembers : Document.depthOfMembers members < depth) :
    skipObject item (inside.chars ++ [','].intercalate (Document.memberTexts members) ++
      '\x7d' :: rest) = .ok rest := by
  rw [List.append_assoc, skipObject, skipBlanks_append]
  cases members with
  | nil =>
    rw [membersText_nil]
    rfl
  | cons first others =>
    obtain ⟨key, before, d, behind⟩ := first
    obtain ⟨hd, hothers⟩ := Nat.max_lt.1 hmembers
    have hfuel := length_lt_length_follow '\x7d' rest (Document.memberTexts others)
    rw [membersText_cons]
    refine skipMembers_text h before d behind others rest hd hothers ?_ (skipBlanks_cons rfl _)
    simp only [List.length_append, List.length_cons]
    omega

end Loops

/-! ## Values

What is left is that the brackets which may be opened are enough for the document.
-/

/-- Any document is skipped to its end that opens fewer brackets than may be opened. -/
theorem skipWithin_text (fuel : Nat) :
    ∀ (before : Blanks) (d : Document) (rest : List Char), d.depth < fuel → EndsNumber rest →
      skipWithin fuel (before.chars ++ (d.text ++ rest)) = .ok rest := by
  induction fuel with
  | zero =>
    intro before d rest hdepth
    cases hdepth
  | succ fuel ih =>
    intro before d rest hdepth hrest
    -- the first character decides, as it does for the reader
    rw [skipWithin, Document.skipBlanks_text]
    cases d with
    | null => rfl
    | bool flag => cases flag <;> rfl
    | number literal =>
      obtain ⟨c, tail, htext, hc⟩ := literal.text_head
      have hword := Literal.head_ne_word hc
      have hskip := skipNumber_text literal hrest
      rw [htext, List.cons_append] at hskip
      rw [Document.text, htext, List.cons_append]
      simp only [if_neg hword.1, if_neg hword.2.1, if_neg hword.2.2, if_pos hc]
      exact hskip
    | string pieces =>
      rw [Document.text_string_append]
      exact skipString_pieces pieces rest
    | array inside items =>
      rw [Document.text_array_append]
      exact skipArray_text ih inside items rest (Nat.lt_of_succ_lt_succ hdepth)
    | object inside members =>
      rw [Document.text_object_append]
      exact skipObject_text ih inside members rest (Nat.lt_of_succ_lt_succ hdepth)

/-- Commas between texts make them no shorter. -/
theorem length_flatten_le_intercalate (texts : List (List Char)) :
    texts.flatten.length ≤ ([','].intercalate texts).length := by
  induction texts with
  | nil => exact Nat.le_refl 0
  | cons first others ih =>
    -- the commas are extra
    have hfirst := congrArg List.length (intercalate_cons ']' [] first others)
    cases others with
    | nil => simp [List.intercalate]
    | cons second more =>
      simp only [follow, List.length_append, List.length_cons] at hfirst
      rw [List.flatten_cons, List.length_append]
      omega

namespace Document

mutual

/-- **A document has at least as many characters as it nests.** -/
theorem depth_le_length : ∀ d : Document, d.depth ≤ d.text.length
  | null | bool _ | number _ | string _ => Nat.zero_le _
  | array inside items => by
    -- the bracket itself is one character more than the items take
    have hitems := depthOfItems_le_length items
    have htexts := length_flatten_le_intercalate (itemTexts items)
    simp only [depth, text, List.length_cons, List.length_append]
    omega
  | object inside members => by
    have hmembers := depthOfMembers_le_length members
    have htexts := length_flatten_le_intercalate (memberTexts members)
    simp only [depth, text, List.length_cons, List.length_append]
    omega

theorem depthOfItems_le_length : ∀ items : List (Padded Document),
    depthOfItems items ≤ (itemTexts items).flatten.length
  | [] => Nat.le_refl 0
  | ⟨before, d, behind⟩ :: rest => by
    have hd := d.depth_le_length
    have hrest := depthOfItems_le_length rest
    simp only [depthOfItems, itemTexts, List.flatten_cons, List.length_append]
    omega

theorem depthOfMembers_le_length : ∀ members : List (Padded (List Piece) × Padded Document),
    depthOfMembers members ≤ (memberTexts members).flatten.length
  | [] => Nat.le_refl 0
  | (key, ⟨before, d, behind⟩) :: rest => by
    have hd := d.depth_le_length
    have hrest := depthOfMembers_le_length rest
    simp only [depthOfMembers, memberTexts, List.flatten_cons, List.length_append,
      List.length_cons]
    omega

end

end Document

/-- **Any document is skipped to its end**, whatever stands in it. -/
theorem skipValue_text (before : Blanks) (d : Document) {rest : List Char} (h : EndsNumber rest) :
    skipValue (before.chars ++ (d.text ++ rest)) = .ok rest := by
  have hdepth := d.depth_le_length
  refine skipWithin_text _ before d rest ?_ h
  rw [List.length_append, List.length_append]
  omega

end StepRelay.Json
