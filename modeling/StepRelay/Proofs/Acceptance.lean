import StepRelay.Proofs.Documents

/-!
# What is read is a document

Whatever the raw reader takes off the front of a text is the text of a document, behind some blanks,
and its tree is the document's tree (`readValue_ok`). With the converse, a text has a raw tree
exactly if it is a document of that tree, nested no deeper than the reader may go
(`parseRaw_eq_ok_iff`). One lemma per reader says what it has taken off; nothing is said of the
characters that follow.

## The argument

* Scalars first: a number is read part by part (`readNumeral_ok`), a string piece by piece
  (`readStringBody_ok`). Each part carries with it what the reader has checked.
* Then the two loops, under the hypothesis `TakesDocuments` that their items are documents
  (`readItems_ok`, `readMembers_ok`). The induction is on the fuel, which is one round after the
  other.
* A level of the reader takes a document if the level inside it does (`readValueWith_ok`), and the
  levels are put together by induction on the depth (`readValue_ok`).
-/

namespace StepRelay.Json

/-! ## Blanks and digits

Whatever a reader skips or takes greedily, it can be put back in front of what is left.
-/

/-- What is skipped in front of a text is a run of blanks. -/
theorem exists_blanks (text : List Char) :
    ∃ blanks : Blanks, text = blanks.chars ++ skipBlanks text :=
  ⟨⟨text.takeWhile isBlank, fun _ => List.mem_takeWhile_imp⟩, List.takeWhile_append_dropWhile.symm⟩

theorem exists_blanks_of_skipBlanks {text : List Char} {rest : List Char}
    (h : skipBlanks text = rest) : ∃ blanks : Blanks, text = blanks.chars ++ rest :=
  h ▸ exists_blanks text

/-- Taking digits splits a text in two, and all that was taken are digits. -/
theorem spanDigits_eq {text digits rest : List Char} (h : spanDigits text = (digits, rest)) :
    text = digits ++ rest ∧ ∀ c ∈ digits, c.isDigit = true := by
  obtain ⟨rfl, rfl⟩ := Prod.mk.inj h
  exact ⟨List.takeWhile_append_dropWhile.symm, fun _ => List.mem_takeWhile_imp⟩

/-! ## Numbers

A number is read part by part, and each part is found here as a part of a literal: the whole digits,
the fraction, the exponent. The conditions under which a part can be one, such as no zero in front
of other digits, are what the reader has checked by then.
-/

/-- **The digits before the point.** What is read is a run of digits, which begins with a zero only
if it is that zero: behind one, another digit is refused. -/
theorem readWhole_ok {text chars rest : List Char} (h : readWhole text = .ok (chars, rest)) :
    ∃ whole : Digits, whole.chars = chars ∧ text = chars ++ rest ∧
      (chars = ['0'] ∨ chars.head? ≠ some '0') := by
  cases text with
  | nil => cases h
  | cons c text =>
    rw [readWhole] at h
    by_cases hzero : c = '0'
    · rw [if_pos hzero] at h
      -- behind a zero there must be no digit
      split at h
      · cases h
      · obtain ⟨rfl, rfl⟩ := Prod.mk.inj (Except.ok.inj h)
        exact ⟨⟨['0'], List.cons_ne_nil _ _, by simp⟩, rfl, by rw [hzero]; rfl, .inl rfl⟩
    · rw [if_neg hzero] at h
      by_cases hdigit : c.isDigit
      · -- all digits in a row are taken
        rw [if_pos hdigit, Except.ok.injEq] at h
        obtain ⟨htext, hall⟩ := spanDigits_eq h
        have hchars : chars = c :: text.takeWhile Char.isDigit := by
          have hfirst := (Prod.mk.inj h).1
          rwa [List.takeWhile_cons, if_pos hdigit, eq_comm] at hfirst
        refine ⟨⟨chars, hchars ▸ List.cons_ne_nil _ _, hall⟩, rfl, htext, .inr ?_⟩
        rw [hchars]
        exact fun hhead => hzero (Option.some.inj hhead)
      · rw [if_neg hdigit] at h
        cases h

/-- A point is read together with the digits behind it, and without a point nothing is. What is
taken is the fraction of every literal that has this part. -/
theorem readFraction_ok {text rest : List Char} {fraction : Option (List Char)}
    (h : readFraction text = .ok (fraction, rest)) :
    ∃ part : Option Digits, part.map Digits.chars = fraction ∧
      ∀ literal : Literal, literal.fraction = part → text = literal.fractionText ++ rest := by
  unfold readFraction at h
  split at h
  · next tail =>
    split at h
    · cases h
    · cases h
    · next _ digits rest _ hne hspan =>
      -- a point, with at least one digit behind it
      obtain ⟨rfl, rfl⟩ := Prod.mk.inj (Except.ok.inj h)
      obtain ⟨htail, hall⟩ := spanDigits_eq hspan
      refine ⟨some ⟨digits, hne, hall⟩, rfl, fun literal hliteral => ?_⟩
      rw [Literal.fractionText, hliteral, htail]
      rfl
  · obtain ⟨rfl, rfl⟩ := Prod.mk.inj (Except.ok.inj h)
    -- no point, and nothing has been read
    refine ⟨none, rfl, fun literal hliteral => ?_⟩
    rw [Literal.fractionText, hliteral]
    rfl

/-- A sign in front of the exponent's digits is a plus, a minus or none, and only a minus counts. -/
theorem takeSign_eq (text : List Char) :
    ∃ sign : Option Bool, (sign == some true) = (takeSign text).1 ∧
      ∀ part : ExponentPart, part.sign = sign → text = part.signText ++ (takeSign text).2 := by
  unfold takeSign ExponentPart.signText
  split
  · exact ⟨some false, rfl, fun part hpart => by rw [hpart]; rfl⟩
  · exact ⟨some true, rfl, fun part hpart => by rw [hpart]; rfl⟩
  · exact ⟨none, rfl, fun part hpart => by rw [hpart]; rfl⟩

/-- The digits of an exponent are read, and a large exponent was let through only if it makes the
number small, or the number is zero. -/
theorem finishExponent_ok {isZero negative : Bool} {text rest : List Char} {exponent : Option Int}
    (h : finishExponent isZero negative text = .ok (exponent, rest)) :
    ∃ digits : Digits, text = digits.chars ++ rest ∧
      ¬ (exponentLimit < digits.value ∧ ¬ negative ∧ ¬ isZero) ∧
      exponent = some (if negative then -(digits.value : Int) else digits.value) := by
  unfold finishExponent at h
  -- no digits at all, too large an exponent, or one that was taken
  split at h
  · cases h
  · cases h
  · next _ digits rest _ hne hspan =>
    obtain ⟨htext, hall⟩ := spanDigits_eq hspan
    dsimp only at h
    split at h
    · cases h
    · next hlimit =>
      obtain ⟨rfl, rfl⟩ := Prod.mk.inj (Except.ok.inj h)
      exact ⟨⟨digits, hne, hall⟩, htext, hlimit, rfl⟩

/-- **The exponent.** What is taken is the exponent of every literal that has this part and is zero
exactly if the reader was told so, and such a literal stays within the limit. -/
theorem readExponent_ok {isZero : Bool} {text rest : List Char} {exponent : Option Int}
    (h : readExponent isZero text = .ok (exponent, rest)) :
    ∃ part : Option ExponentPart, part.map ExponentPart.value = exponent ∧
      ∀ literal : Literal, literal.exponent = part → literal.isZero = isZero →
        text = literal.exponentText ++ rest ∧ literal.exceeds = false := by
  -- both ways in which there is no exponent come down to this
  have hnone : text = rest → exponent = none →
      ∃ part : Option ExponentPart, part.map ExponentPart.value = exponent ∧
        ∀ literal : Literal, literal.exponent = part → literal.isZero = isZero →
          text = literal.exponentText ++ rest ∧ literal.exceeds = false := by
    rintro rfl rfl
    refine ⟨none, rfl, fun literal hliteral _ => ?_⟩
    rw [Literal.exponentText, Literal.exceeds, hliteral]
    exact ⟨rfl, rfl⟩
  cases text with
  | nil =>
    obtain ⟨rfl, rfl⟩ := Prod.mk.inj (Except.ok.inj h)
    exact hnone rfl rfl
  | cons mark text =>
    by_cases hmark : mark = 'e' ∨ mark = 'E'
    · rw [readExponent_mark isZero hmark] at h
      obtain ⟨digits, htext, hlimit, rfl⟩ := finishExponent_ok h
      obtain ⟨sign, hsign, htake⟩ := takeSign_eq text
      refine ⟨some ⟨mark == 'E', sign, digits⟩, ?_, fun literal hliteral hzero => ?_⟩
      · rw [Option.map_some, ExponentPart.value, ExponentPart.negative, hsign]
      · have hcapital : (if (mark == 'E') = true then 'E' else 'e') = mark := by
          rcases hmark with rfl | rfl <;> rfl
        have hnegative : ExponentPart.negative ⟨mark == 'E', sign, digits⟩ =
            (takeSign text).1 := hsign
        rw [Literal.exponentText, Literal.exceeds, hliteral]
        constructor
        · simp only [ExponentPart.text, hcapital, List.cons_append, List.append_assoc]
          rw [← htext, ← htake _ rfl]
        · simpa [hnegative, hzero, and_assoc] using hlimit
    · unfold readExponent at h
      simp only [if_neg hmark] at h
      obtain ⟨rfl, rfl⟩ := Prod.mk.inj (Except.ok.inj h)
      exact hnone rfl rfl

/-- Taking a minus off gives back the text. -/
theorem takeMinus_eq (text : List Char) :
    text = (if (takeMinus text).1 then ['-'] else []) ++ (takeMinus text).2 := by
  unfold takeMinus
  split <;> rfl

/-- **Numbers are read part by part**, and the parts are those of one literal. -/
theorem readNumeral_ok {text rest : List Char} {numeral : Numeral}
    (h : readNumeral text = .ok (numeral, rest)) :
    ∃ literal : Literal, text = literal.text ++ rest ∧ literal.numeral = numeral ∧
      literal.exceeds = false := by
  rw [readNumeral_eq, finishNumeral] at h
  obtain ⟨⟨chars, afterWhole⟩, hreadWhole, h⟩ := bind_eq_ok_iff.1 h
  obtain ⟨⟨fraction, afterFraction⟩, hreadFraction, h⟩ := bind_eq_ok_iff.1 h
  obtain ⟨⟨exponent, afterExponent⟩, hreadExponent, h⟩ := bind_eq_ok_iff.1 h
  obtain ⟨rfl, rfl⟩ := Prod.mk.inj (Except.ok.inj h)
  obtain ⟨whole, rfl, hwhole, hleading⟩ := readWhole_ok hreadWhole
  obtain ⟨fraction, rfl, hfraction⟩ := readFraction_ok hreadFraction
  obtain ⟨exponent, rfl, hexponent⟩ := readExponent_ok hreadExponent
  -- the limit on exponents depends on all digits, so the whole literal has to be there
  let literal : Literal := ⟨(takeMinus text).1, whole, fraction, exponent, hleading⟩
  obtain ⟨htext, hexceeds⟩ := hexponent literal rfl (isZero_eq literal).symm
  refine ⟨literal, ?_, rfl, hexceeds⟩
  rw [Literal.text, List.append_assoc, List.append_assoc, List.append_assoc, ← htext,
    ← hfraction literal rfl, ← hwhole]
  exact takeMinus_eq text

/-- A literal that is read as a number has that number: none is refused for its size. -/
theorem readNumber_ok {text rest : List Char} {n : Number} (h : readNumber text = .ok (n, rest)) :
    ∃ literal : Literal, text = literal.text ++ rest ∧ literal.number? = some n := by
  obtain ⟨⟨numeral, afterNumeral⟩, hnumeral, h⟩ := bind_eq_ok_iff.1 h
  obtain ⟨literal, htext, rfl, hexceeds⟩ := readNumeral_ok hnumeral
  dsimp only at h
  split at h
  · next n hnumber =>
    obtain ⟨rfl, rfl⟩ := Prod.mk.inj (Except.ok.inj h)
    refine ⟨literal, htext, ?_⟩
    rw [Literal.number?, hexceeds, hnumber]
    rfl
  · cases h

/-! ## Strings

A round of the reader takes a character or an escape, and an escape may take a second one along with
it, as the two halves of a surrogate pair. `Means` is the claim on such pieces that does not depend
on what comes behind them.
-/

/-- Four digits are read with the number that they write. -/
theorem readHex_ok {text rest : List Char} {code : Nat} (h : readHex text = .ok (code, rest)) :
    ∃ hex : Hex, hex.code = code ∧ text = hex.chars ++ rest := by
  unfold readHex at h
  split at h
  · next a b c d hchars =>
    obtain ⟨rfl, rfl⟩ := Prod.mk.inj (Except.ok.inj h)
    exact ⟨⟨text.take 4, _, a, b, c, d, hchars, rfl⟩, rfl, (List.take_append_drop 4 text).symm⟩
  · split at h <;> cases h

/-- The reader of a pair's second half goes on behind the character it asks for. -/
theorem readPairChar_ok {expected : Char} {text rest : List Char}
    (h : readPairChar expected text = .ok rest) : text = expected :: rest := by
  cases text with
  | nil => cases h
  | cons c text =>
    rw [readPairChar] at h
    split at h
    · next hc => rw [hc, Except.ok.inj h]
    · cases h

/-- The pieces write one character, whatever pieces follow. -/
def Means (pieces : List Piece) (c : Char) : Prop :=
  ∀ others, Piece.meaning? (pieces ++ others) = (Piece.meaning? others).map (c :: ·)

/-- **Escapes by number.** One of them writes a character of its own, or it is the first half of a
pair, and then the second half stands right behind it. The first half was read before the two ranges
are told apart, so its digits are known in all branches. -/
theorem readUnicode_ok {text rest : List Char} {c : Char}
    (h : readUnicode text = .ok (c, rest)) :
    ∃ pieces : List Piece, Means pieces c ∧
      '\\' :: 'u' :: text = pieces.flatMap Piece.text ++ rest := by
  obtain ⟨⟨code, afterHigh⟩, hhex, -⟩ := bind_eq_ok_iff.1 h
  obtain ⟨high, rfl, rfl⟩ := readHex_ok hhex
  rw [readUnicode_unit] at h
  split at h
  · cases h
  next hlow =>
  split at h
  · -- the first half of a pair: the second must follow in another escape
    next hhigh =>
    obtain ⟨afterSlash, hslash, hletters⟩ := bind_eq_ok_iff.1 h
    obtain ⟨afterLetter, hletter, hdigits⟩ := bind_eq_ok_iff.1 hletters
    obtain ⟨⟨code, afterLow⟩, hhex, hread⟩ := bind_eq_ok_iff.1 hdigits
    obtain ⟨low, rfl, rfl⟩ := readHex_ok hhex
    dsimp only at hread
    split at hread
    · next hpair =>
      obtain ⟨rfl, rfl⟩ := Prod.mk.inj (Except.ok.inj hread)
      refine ⟨[.unit high, .unit low], fun others => ?_, ?_⟩
      · conv_lhs => unfold Piece.meaning?
        simp only [List.cons_append, List.nil_append, if_neg hlow, if_pos hhigh, if_pos hpair]
      · rw [readPairChar_ok hslash, readPairChar_ok hletter]
        simp [Piece.text]
    · cases hread
  · -- a character by itself
    next hhigh =>
    obtain ⟨rfl, rfl⟩ := Prod.mk.inj (Except.ok.inj h)
    refine ⟨[.unit high], fun others => ?_, ?_⟩
    · conv_lhs => unfold Piece.meaning?
      simp only [List.cons_append, List.nil_append, if_neg hlow, if_neg hhigh]
    · simp [Piece.text]

/-- A short escape writes its character, whatever follows: it is no half of a pair. -/
theorem means_short {letter c : Char} (known : (letter, c) ∈ shortEscapes) :
    Means [.short letter c known] c := fun others => meaning?_short known others

/-- **Escapes.** What is read behind a backslash are pieces of a string that write one character
together. -/
theorem readEscape_ok {text rest : List Char} {c : Char} (h : readEscape text = .ok (c, rest)) :
    ∃ pieces : List Piece, Means pieces c ∧ '\\' :: text = pieces.flatMap Piece.text ++ rest := by
  have hshort : ∀ {letter : Char} {tail : List Char}, (letter, c) ∈ shortEscapes → tail = rest →
      ∃ pieces : List Piece, Means pieces c ∧
        '\\' :: letter :: tail = pieces.flatMap Piece.text ++ rest := by
    rintro letter tail known rfl
    exact ⟨[.short letter c known], means_short known, rfl⟩
  cases text with
  | nil => cases h
  | cons letter tail =>
    rw [readEscape] at h
    split at h
    · -- quotes, backslashes and slashes stand for themselves
      next hself =>
      obtain ⟨rfl, rfl⟩ := Prod.mk.inj (Except.ok.inj h)
      refine hshort ?_ rfl
      rcases hself with rfl | rfl | rfl <;> decide
    -- the letters that stand for another character
    iterate 5
      split at h
      · next hletter =>
        obtain ⟨rfl, rfl⟩ := Prod.mk.inj (Except.ok.inj h)
        exact hshort (by rw [hletter]; decide) rfl
    split at h
    · next hletter =>
      rw [hletter]
      exact readUnicode_ok h
    · cases h

/-- **The inside of a string**, up to the quote that ends it, is the text of pieces. The induction
is on the reader's rounds: a round takes the quote, an escape or a character that stands for
itself. -/
theorem readStringBody_ok (fuel : Nat) : ∀ {text chars rest : List Char},
    readStringBody fuel text = .ok (chars, rest) →
      ∃ pieces : List Piece, Piece.meaning? pieces = some chars ∧
        text = pieces.flatMap Piece.text ++ '"' :: rest := by
  induction fuel with
  | zero =>
    intro text chars rest h
    cases h
  | succ fuel ih =>
    intro text chars rest h
    cases text with
    | nil => cases h
    | cons c text =>
      rw [readStringBody] at h
      split at h
      · -- the quote ends the string
        next hquote =>
        obtain ⟨rfl, rfl⟩ := Prod.mk.inj (Except.ok.inj h)
        exact ⟨[], rfl, by rw [hquote]; rfl⟩
      split at h
      · -- an escape, and then the others
        next hslash =>
        obtain ⟨⟨c, afterEscape⟩, hescape, h⟩ := bind_eq_ok_iff.1 h
        obtain ⟨⟨others, afterOthers⟩, hothers, h⟩ := bind_eq_ok_iff.1 h
        obtain ⟨rfl, rfl⟩ := Prod.mk.inj (Except.ok.inj h)
        obtain ⟨first, hmeans, htext⟩ := readEscape_ok hescape
        obtain ⟨pieces, hmeaning, hrest⟩ := ih hothers
        refine ⟨first ++ pieces, ?_, ?_⟩
        · rw [hmeans, hmeaning]
          rfl
        · rw [hslash, htext, hrest, List.flatMap_append, List.append_assoc]
      split at h
      · cases h
      · -- any other character but a control character is itself
        next hquote hslash hcontrol =>
        obtain ⟨⟨others, afterOthers⟩, hothers, h⟩ := bind_eq_ok_iff.1 h
        obtain ⟨rfl, rfl⟩ := Prod.mk.inj (Except.ok.inj h)
        obtain ⟨pieces, hmeaning, hrest⟩ := ih hothers
        refine ⟨.plain c ⟨hquote, hslash, Nat.not_lt.1 hcontrol⟩ :: pieces, ?_, ?_⟩
        · rw [Piece.meaning?, hmeaning]
          rfl
        · rw [hrest]
          rfl

/-- A string that was read is written by pieces between quotes. -/
theorem readString_ok {text rest : List Char} {key : String}
    (h : readString text = .ok (key, rest)) :
    ∃ pieces : List Piece, Piece.meaning? pieces = some key.toList ∧
      text = pieces.flatMap Piece.text ++ '"' :: rest := by
  obtain ⟨⟨chars, afterString⟩, hbody, h⟩ := bind_eq_ok_iff.1 h
  obtain ⟨rfl, rfl⟩ := Prod.mk.inj (Except.ok.inj h)
  obtain ⟨pieces, hmeaning, htext⟩ := readStringBody_ok _ hbody
  exact ⟨pieces, by rw [hmeaning, String.toList_ofList], htext⟩

/-! ## Words and signs between the values

What stands between two values has no meaning of its own; the reader checks it and goes on.
-/

/-- A word is read letter by letter, so the text begins with it. -/
theorem readWord_ok {word text rest : List Char} (h : readWord word text = .ok rest) :
    text = word ++ rest := by
  induction word generalizing text with
  | nil => exact Except.ok.inj h
  | cons w word ih =>
    cases text with
    | nil => cases h
    | cons c text =>
      rw [readWord] at h
      split at h
      · next hc => rw [hc, ih h, List.cons_append]
      · cases h

/-- A word of the grammar, from behind its first letter. -/
theorem word_ok {word text rest : List Char} {made raw : Json}
    (h : (readWord word text >>= fun after => pure (made, after)) = Except.ok (raw, rest)) :
    made = raw ∧ text = word ++ rest := by
  obtain ⟨after, hword, h⟩ := bind_eq_ok_iff.1 h
  obtain ⟨rfl, rfl⟩ := Prod.mk.inj (Except.ok.inj h)
  exact ⟨rfl, readWord_ok hword⟩

/-- The colon of a member has only blanks before it. -/
theorem readColon_ok {text rest : List Char} (h : readColon text = .ok rest) :
    ∃ blanks : Blanks, text = blanks.chars ++ ':' :: rest := by
  unfold readColon at h
  split at h
  · cases h
  · next hskip =>
    split at h
    · next hc =>
      obtain rfl := Except.ok.inj h
      exact exists_blanks_of_skipBlanks (hc ▸ hskip)
    · cases h

/-- **Behind an item** stands, after blanks, the bracket that ends the array, or a comma and what
comes after its blanks. -/
theorem afterItem?_some {text : List Char} {continuation : Continuation}
    (h : afterItem? text = some continuation) :
    ∃ behind : Blanks,
      (∃ rest, continuation = .ends rest ∧ text = behind.chars ++ ']' :: rest) ∨
      ∃ (before : Blanks) (next : List Char), continuation = .goesOn next ∧
        text = behind.chars ++ ',' :: (before.chars ++ next) := by
  obtain ⟨behind, htext⟩ := exists_blanks text
  refine ⟨behind, ?_⟩
  -- as behind a member, but any text may be the next item
  unfold afterItem? at h
  split at h
  · cases h
  next c rest hskip =>
  rw [hskip] at htext
  split at h
  · next hclose =>
    exact .inl ⟨rest, (Option.some.inj h).symm, hclose ▸ htext⟩
  split at h
  · next hcomma =>
    split at h
    · cases h
    next d next hnext =>
    split at h
    · cases h
    · obtain ⟨before, hbefore⟩ := exists_blanks_of_skipBlanks hnext
      exact .inr ⟨before, d :: next, (Option.some.inj h).symm, by rw [htext, hcomma, hbefore]⟩
  · cases h

/-- **Behind a member** stands the brace that ends the object, or a comma and the quote of the next
key. -/
theorem afterMember?_some {text : List Char} {continuation : Continuation}
    (h : afterMember? text = some continuation) :
    ∃ behind : Blanks,
      (∃ rest, continuation = .ends rest ∧ text = behind.chars ++ '\x7d' :: rest) ∨
      ∃ (before : Blanks) (next : List Char), continuation = .goesOn next ∧
        text = behind.chars ++ ',' :: (before.chars ++ '"' :: next) := by
  obtain ⟨behind, htext⟩ := exists_blanks text
  refine ⟨behind, ?_⟩
  -- follow the reader: it ends, or it needs a comma and then a quote
  unfold afterMember? at h
  split at h
  · cases h
  next c rest hskip =>
  rw [hskip] at htext
  split at h
  · next hclose =>
    exact .inl ⟨rest, (Option.some.inj h).symm, hclose ▸ htext⟩
  split at h
  · next hcomma =>
    split at h
    · cases h
    next d next hnext =>
    split at h
    · next hquote =>
      obtain ⟨before, hbefore⟩ := exists_blanks_of_skipBlanks hnext
      -- behind the comma only another key will do
      exact .inr ⟨before, next, (Option.some.inj h).symm, by rw [htext, hcomma, hbefore, hquote]⟩
    · cases h
  · cases h

/-! ## Loops

The hypothesis on the reader of items, `TakesDocuments`, is what the whole induction is about. With
it a loop gives a list of documents, one more for each round.
-/

/-- What is taken off a text is a document, behind some blanks, of no more than the given depth. -/
def TakesDocuments (item : Reader Json) (depth : Nat) : Prop :=
  ∀ {text rest : List Char} {raw : Json}, item text = .ok (raw, rest) →
    ∃ (before : Blanks) (d : Document), text = before.chars ++ (d.text ++ rest) ∧
      d.tree? = some raw ∧ d.depth ≤ depth

section Loops

variable {item : Reader Json} {depth : Nat} (hitem : TakesDocuments item depth)

include hitem

/-- **The items of an array** are documents with commas between them. The induction is on the
reader's rounds, each of which reads an item and what stands behind it; blanks that were skipped
before the round belong to its item. -/
theorem readItems_ok (fuel : Nat) : ∀ {text rest : List Char} {trees : List Json},
    readItems item fuel text = .ok (trees, rest) → ∀ blanks : Blanks,
      ∃ items : List (Padded Document), items ≠ [] ∧
        blanks.chars ++ text = [','].intercalate (Document.itemTexts items) ++ ']' :: rest ∧
        Document.itemTrees? items = some trees ∧ Document.depthOfItems items ≤ depth := by
  induction fuel with
  | zero =>
    intro text rest trees h
    cases h
  | succ fuel ih =>
    intro text rest trees h blanks
    rw [← toOption_eq_some_iff, readItems_succ] at h
    obtain ⟨⟨tree, afterDocument⟩, hread, h⟩ := Option.bind_eq_some_iff.1 h
    obtain ⟨continuation, hcontinuation, h⟩ := Option.bind_eq_some_iff.1 h
    change afterItem? afterDocument = some continuation at hcontinuation
    obtain ⟨before, d, htext, htree, hdepth⟩ := hitem (toOption_eq_some_iff.1 hread)
    obtain ⟨behind, ⟨last, rfl, hbehind⟩ | ⟨after, next, rfl, hbehind⟩⟩ :=
      afterItem?_some hcontinuation
    · obtain ⟨rfl, rfl⟩ := Prod.mk.inj (Option.some.inj h)
      -- the blanks in front belong to the first item, whatever was skipped to get there
      refine ⟨[⟨blanks.append before, d, behind⟩], List.cons_ne_nil _ _, ?_, ?_, ?_⟩
      · rw [Document.itemTexts, intercalate_cons, htext, hbehind]
        simp [Blanks.append, follow, Document.itemTexts]
      · rw [Document.itemTrees?, htree]
        rfl
      · simpa [Document.depthOfItems] using hdepth
    · -- the blanks behind the comma belong to the second item
      obtain ⟨⟨others, afterOthers⟩, hothers, h⟩ := Option.map_eq_some_iff.1 h
      obtain ⟨rfl, rfl⟩ := Prod.mk.inj h
      obtain ⟨items, hne, htexts, htrees, hdepths⟩ := ih (toOption_eq_some_iff.1 hothers) after
      obtain ⟨second, more, rfl⟩ := List.exists_cons_of_ne_nil hne
      refine ⟨⟨blanks.append before, d, behind⟩ :: second :: more, List.cons_ne_nil _ _, ?_, ?_, ?_⟩
      · rw [Document.itemTexts, intercalate_cons, follow_itemTexts, ← htexts, htext, hbehind]
        simp [Blanks.append]
      · rw [Document.itemTrees?, htree, htrees]
        rfl
      · rw [Document.depthOfItems]
        exact Nat.max_le.2 ⟨hdepth, hdepths⟩

/-- **The members of an object** are keys and documents with commas between them. A round reads a
key, the colon, a document and what stands behind it. -/
theorem readMembers_ok (fuel : Nat) : ∀ {text rest : List Char} {trees : List (String × Json)},
    readMembers (readMember item) fuel [] text = .ok (trees, rest) → ∀ blanks : Blanks,
      ∃ members : List (Padded (List Piece) × Padded Document), members ≠ [] ∧
        blanks.chars ++ '"' :: text =
          [','].intercalate (Document.memberTexts members) ++ '\x7d' :: rest ∧
        Document.memberTrees? members = some trees ∧
        Document.depthOfMembers members ≤ depth := by
  induction fuel with
  | zero =>
    intro text rest trees h
    cases h
  | succ fuel ih =>
    intro text rest trees h blanks
    rw [← toOption_eq_some_iff, readMembers_round] at h
    obtain ⟨⟨key, afterKey⟩, hkey, h⟩ := Option.bind_eq_some_iff.1 h
    obtain ⟨afterColon, hcolon, h⟩ := Option.bind_eq_some_iff.1 h
    obtain ⟨⟨tree, afterDocument⟩, hread, h⟩ := Option.bind_eq_some_iff.1 h
    obtain ⟨continuation, hcontinuation, h⟩ := Option.bind_eq_some_iff.1 h
    change afterMember? afterDocument = some continuation at hcontinuation
    obtain ⟨pieces, hmeaning, hpieces⟩ := readString_ok (toOption_eq_some_iff.1 hkey)
    obtain ⟨gap, hgap⟩ := readColon_ok (toOption_eq_some_iff.1 hcolon)
    change afterKey = _ at hgap
    obtain ⟨before, d, htext, htree, hdepth⟩ := hitem (toOption_eq_some_iff.1 hread)
    obtain ⟨behind, ⟨last, rfl, hbehind⟩ | ⟨after, next, rfl, hbehind⟩⟩ :=
      afterMember?_some hcontinuation
    · -- the last member
      obtain ⟨rfl, rfl⟩ := Prod.mk.inj (Option.some.inj h)
      refine ⟨[(⟨blanks, pieces, gap⟩, ⟨before, d, behind⟩)], List.cons_ne_nil _ _, ?_, ?_, ?_⟩
      · rw [Document.memberTexts, intercalate_cons, hpieces, hgap, htext, hbehind]
        simp [Piece.quoted, follow, Document.memberTexts]
      · rw [Document.memberTrees?, hmeaning, htree]
        simp [Document.memberTrees?]
      · simpa [Document.depthOfMembers] using hdepth
    · -- a comma, and the members behind it
      obtain ⟨⟨others, afterOthers⟩, hothers, h⟩ := Option.map_eq_some_iff.1 h
      obtain ⟨rfl, rfl⟩ := Prod.mk.inj h
      obtain ⟨members, hne, htexts, htrees, hdepths⟩ := ih (toOption_eq_some_iff.1 hothers) after
      obtain ⟨second, more, rfl⟩ := List.exists_cons_of_ne_nil hne
      refine ⟨(⟨blanks, pieces, gap⟩, ⟨before, d, behind⟩) :: second :: more,
        List.cons_ne_nil _ _, ?_, ?_, ?_⟩
      · rw [Document.memberTexts, intercalate_cons, follow_memberTexts, ← htexts, hpieces, hgap,
          htext, hbehind]
        simp [Piece.quoted]
      · rw [Document.memberTrees?, hmeaning, htree, htrees]
        simp
      · rw [Document.depthOfMembers]
        exact Nat.max_le.2 ⟨hdepth, hdepths⟩

/-- Behind an opening bracket stands the rest of an array: blanks only, or items. -/
theorem readArray_ok {text rest : List Char} {trees : List Json}
    (h : readArray item text = .ok (trees, rest)) :
    ∃ (inside : Blanks) (items : List (Padded Document)),
      '[' :: text = (Document.array inside items).text ++ rest ∧
        Document.itemTrees? items = some trees ∧ Document.depthOfItems items ≤ depth := by
  obtain ⟨blanks, htext⟩ := exists_blanks text
  unfold readArray at h
  split at h
  · cases h
  next c tail hskip =>
  rw [hskip] at htext
  split at h
  · next hclose =>
    obtain ⟨rfl, rfl⟩ := Prod.mk.inj (Except.ok.inj h)
    refine ⟨blanks, [], ?_, rfl, Nat.zero_le depth⟩
    rw [htext, hclose]
    simp [Document.text, Document.itemTexts]
  · -- the blanks that were skipped go to the first item
    obtain ⟨items, -, htexts, htrees, hdepths⟩ := readItems_ok hitem _ h blanks
    refine ⟨.none, items, ?_, htrees, hdepths⟩
    rw [htext, htexts]
    simp [Document.text, Blanks.none]

/-- Behind an opening brace stands the rest of an object: blanks only, or members. -/
theorem readObject_ok {text rest : List Char} {trees : List (String × Json)}
    (h : readObject (readMember item) [] text = .ok (trees, rest)) :
    ∃ (inside : Blanks) (members : List (Padded (List Piece) × Padded Document)),
      '\x7b' :: text = (Document.object inside members).text ++ rest ∧
        Document.memberTrees? members = some trees ∧
        Document.depthOfMembers members ≤ depth := by
  obtain ⟨blanks, htext⟩ := exists_blanks text
  unfold readObject at h
  split at h
  · cases h
  next c tail hskip =>
  rw [hskip] at htext
  split at h
  · next hclose =>
    obtain ⟨rfl, rfl⟩ := Prod.mk.inj (Except.ok.inj h)
    refine ⟨blanks, [], ?_, rfl, Nat.zero_le depth⟩
    rw [htext, hclose]
    simp [Document.text, Document.memberTexts]
  split at h
  · next hquote =>
    -- the blanks that were skipped go to the first key
    obtain ⟨members, -, htexts, htrees, hdepths⟩ := readMembers_ok hitem _ h blanks
    refine ⟨.none, members, ?_, htrees, hdepths⟩
    rw [htext, hquote, htexts]
    simp [Document.text, Blanks.none]
  · cases h

end Loops

/-! ## Whole values

A level takes a document if the next level does. There is no next level at depth zero, where every
bracket is refused.
-/

/-- **Any value.** The first character behind the blanks decides which kind of document is read, and
only a bracket or a brace needs the reader for what is nested. -/
theorem readValueWith_ok {nested : Option (Reader Json)} {depth : Nat}
    (hnested : ∀ item, nested = some item →
      ∃ inner, depth = inner + 1 ∧ TakesDocuments item inner) :
    TakesDocuments (readValueWith rawBuilder nested) depth := by
  intro text rest raw h
  obtain ⟨before, htext⟩ := exists_blanks text
  unfold readValueWith at h
  split at h
  · cases h
  next c tail hskip =>
  rw [hskip] at htext
  refine ⟨before, ?_⟩
  rw [htext]
  split at h
  · next hc =>
    obtain ⟨rfl, htail⟩ := word_ok h
    exact ⟨.null, by rw [hc, htail]; rfl, rfl, Nat.zero_le depth⟩
  split at h
  · next hc =>
    obtain ⟨rfl, htail⟩ := word_ok h
    exact ⟨.bool true, by rw [hc, htail]; rfl, rfl, Nat.zero_le depth⟩
  split at h
  · next hc =>
    obtain ⟨rfl, htail⟩ := word_ok h
    exact ⟨.bool false, by rw [hc, htail]; rfl, rfl, Nat.zero_le depth⟩
  split at h
  · -- a digit or a minus: a number
    obtain ⟨⟨n, afterNumber⟩, hnumber, h⟩ := bind_eq_ok_iff.1 h
    obtain ⟨rfl, rfl⟩ := Prod.mk.inj (Except.ok.inj h)
    obtain ⟨literal, hliteral, hn⟩ := readNumber_ok hnumber
    refine ⟨.number literal, congrArg (before.chars ++ ·) hliteral, ?_, Nat.zero_le depth⟩
    rw [Document.tree?, hn]
    rfl
  split at h
  · next hc =>
    -- a quote: a string
    obtain ⟨⟨key, afterString⟩, hstring, h⟩ := bind_eq_ok_iff.1 h
    obtain ⟨rfl, rfl⟩ := Prod.mk.inj (Except.ok.inj h)
    obtain ⟨pieces, hmeaning, hpieces⟩ := readString_ok hstring
    refine ⟨.string pieces, ?_, ?_, Nat.zero_le depth⟩
    · rw [hc, hpieces]
      simp [Document.text, Piece.quoted]
    · rw [Document.tree?, hmeaning]
      exact congrArg (fun text => some (Json.string text)) String.ofList_toList
  split at h
  · next hc =>
    split at h
    · cases h
    next item =>
    -- a bracket was opened, so one level is left less
    obtain ⟨inner, rfl, hitem⟩ := hnested item rfl
    obtain ⟨⟨trees, afterArray⟩, harray, h⟩ := bind_eq_ok_iff.1 h
    obtain ⟨rfl, rfl⟩ := Prod.mk.inj (Except.ok.inj h)
    obtain ⟨inside, items, hitems, htrees, hdepths⟩ := readArray_ok hitem harray
    refine ⟨.array inside items, by rw [hc, hitems], ?_, Nat.succ_le_succ hdepths⟩
    rw [Document.tree?, htrees]
    rfl
  split at h
  · next hc =>
    split at h
    · cases h
    next item =>
    obtain ⟨inner, rfl, hitem⟩ := hnested item rfl
    obtain ⟨⟨trees, afterObject⟩, hobject, h⟩ := bind_eq_ok_iff.1 h
    obtain ⟨rfl, rfl⟩ := Prod.mk.inj (Except.ok.inj h)
    obtain ⟨inside, members, hmembers, htrees, hdepths⟩ := readObject_ok hitem hobject
    refine ⟨.object inside members, by rw [hc, hmembers], ?_, Nat.succ_le_succ hdepths⟩
    rw [Document.tree?, htrees]
    rfl
  · cases h

/-- **What the raw reader takes is a document** that nests no deeper than the reader may go. -/
theorem readValue_ok (depth : Nat) : TakesDocuments (readValue rawBuilder depth) depth := by
  induction depth with
  | zero => exact readValueWith_ok fun _ h => by cases h
  | succ depth ih =>
    refine readValueWith_ok fun item h => ⟨depth, rfl, ?_⟩
    rwa [← Option.some.inj h]

/-- **A text has a raw tree exactly if it is a document of that tree**, nested no deeper than
allowed. -/
theorem parseRaw_eq_ok_iff (text : String) (raw : Json) :
    parseRaw text = .ok raw ↔
      ∃ document : Padded Document, document.text = text ∧
        document.inner.within? depthLimit = some raw := by
  constructor
  · intro h
    obtain ⟨⟨raw, rest⟩, hread, h⟩ := bind_eq_ok_iff.1 h
    obtain ⟨before, d, htext, htree, hdepth⟩ := readValue_ok depthLimit hread
    obtain ⟨behind, hrest⟩ := exists_blanks rest
    dsimp only at h
    split at h
    · -- only blanks stand behind the value
      next hskip =>
      obtain rfl := Except.ok.inj h
      rw [hskip, List.append_nil] at hrest
      refine ⟨⟨before, d, behind⟩, ?_, ?_⟩
      · rw [Padded.text, ← hrest, ← htext, String.ofList_toList]
      · rw [Document.within?, if_pos hdepth, htree]
    · cases h
  · rintro ⟨document, rfl, hwithin⟩
    rw [← toOption_eq_some_iff, parseRaw_text, hwithin]

end StepRelay.Json
