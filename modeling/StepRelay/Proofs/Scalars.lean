import Mathlib.Data.List.DropRight
import StepRelay.Proofs.Grammar
import StepRelay.Proofs.RawTree

/-!
# Reading the scalars of a document

On the text of a literal or of a string's pieces each reader of `Json/Scalar.lean` takes exactly
that text. Digits are taken greedily, so a number needs to know that what follows cannot go on with
it: `EndsNumber`. A string knows its end, but an escape may look at the piece behind its own.

## The argument

* What ends a number is a hypothesis on the rest of the text, which every reader of a part hands on
  to the next (`EndsNumber.noDigit`, `readExponent_ends`).
* `readNumeral_text` puts the parts of a number together; whether the number is refused for its size
  is decided behind that, in `readNumber_text`.
* For a string the induction goes along `Piece.meaning?`, which takes two pieces at once for a
  surrogate pair (`readStringBody_pieces`).
-/

namespace StepRelay.Json

/-! ## Blanks -/

theorem skipBlanks_append (blanks : Blanks) (text : List Char) :
    skipBlanks (blanks.chars ++ text) = skipBlanks text :=
  List.dropWhile_append_of_pos blanks.blank

/-- Blanks alone are skipped to their end. -/
theorem skipBlanks_chars (blanks : Blanks) : skipBlanks blanks.chars = [] :=
  List.dropWhile_eq_nil_iff.2 blanks.blank

/-- At anything else no blank is skipped. -/
theorem skipBlanks_cons {c : Char} (h : isBlank c = false) (text : List Char) :
    skipBlanks (c :: text) = c :: text := by
  rw [skipBlanks, List.dropWhile_cons, h]
  rfl

theorem length_skipBlanks_le (text : List Char) : (skipBlanks text).length ≤ text.length :=
  List.length_dropWhile_le isBlank text

/-! ## Digits

A reader of digits goes on as long as there are digits. So the text behind a number is part of every
hypothesis here.
-/

/-- The text does not go on with a digit. -/
def NoDigit (text : List Char) : Prop := ∀ c ∈ text.head?, c.isDigit = false

/-- A text that begins with something else does not go on with a digit. -/
theorem noDigit_cons {c : Char} (h : c.isDigit = false) (rest : List Char) : NoDigit (c :: rest) :=
  fun _ hd => Option.some.inj hd ▸ h

theorem NoDigit.takeWhile {text : List Char} (h : NoDigit text) :
    text.takeWhile Char.isDigit = [] := by
  cases text with
  | nil => rfl
  | cons c rest => exact List.takeWhile_cons_of_neg (Bool.eq_false_iff.1 (h c rfl))

theorem NoDigit.dropWhile {text : List Char} (h : NoDigit text) :
    text.dropWhile Char.isDigit = text := by
  cases text with
  | nil => rfl
  | cons c rest => exact List.dropWhile_cons_of_neg (Bool.eq_false_iff.1 (h c rfl))

theorem NoDigit.take {text : List Char} (h : NoDigit text) (count : Nat) :
    NoDigit (text.take count) := by
  intro c hc
  rw [List.head?_take] at hc
  split at hc
  · cases hc
  · exact h c hc

/-- The text does not go on with anything that belongs to a number. -/
def EndsNumber (text : List Char) : Prop :=
  ∀ c ∈ text.head?, c.isDigit = false ∧ c ≠ '.' ∧ c ≠ 'e' ∧ c ≠ 'E'

/-- What ends a number ends its digits. -/
theorem EndsNumber.noDigit {text : List Char} (h : EndsNumber text) : NoDigit text :=
  fun c hc => (h c hc).1

/-- A blank ends a number, and so does what follows if there is no blank. -/
theorem endsNumber_blanks (blanks : Blanks) {text : List Char} (h : EndsNumber text) :
    EndsNumber (blanks.chars ++ text) := by
  obtain ⟨chars, hblank⟩ := blanks
  cases chars with
  | nil => exact h
  | cons c chars =>
    have hc : isBlank c = true := hblank c List.mem_cons_self
    intro d hd
    obtain rfl : c = d := Option.some.inj hd
    simp only [isBlank, Bool.or_eq_true, beq_iff_eq] at hc
    rcases hc with ((rfl | rfl) | rfl) | rfl <;> decide

/-- **Digits are taken as far as they go, and no further.** -/
theorem spanDigits_append {digits : List Char} (hdigits : ∀ c ∈ digits, c.isDigit = true)
    {rest : List Char} (hrest : NoDigit rest) : spanDigits (digits ++ rest) = (digits, rest) := by
  rw [spanDigits, List.takeWhile_append_of_pos hdigits, List.dropWhile_append_of_pos hdigits,
    hrest.takeWhile, hrest.dropWhile, List.append_nil]

theorem Digits.exists_cons (digits : Digits) :
    ∃ c rest, digits.chars = c :: rest ∧ c.isDigit = true := by
  obtain ⟨chars, hne, hall⟩ := digits
  cases chars with
  | nil => exact absurd rfl hne
  | cons c rest => exact ⟨c, rest, rfl, hall c List.mem_cons_self⟩

/-! ## The parts of a number

The readers match on the first characters of a text of which nothing is known yet. `takeSign`,
`takeMinus` and what finishes behind them split these matches off, so that the lemmas rewrite where
the text is known.
-/

/-- The digits before the point: a zero stands alone, or the first of them is no zero. -/
theorem readWhole_digits {whole : Digits}
    (hleading : whole.chars = ['0'] ∨ whole.chars.head? ≠ some '0') {rest : List Char}
    (hrest : NoDigit rest) : readWhole (whole.chars ++ rest) = .ok (whole.chars, rest) := by
  rcases hleading with hzero | hother
  · -- a zero, and no digit behind it
    have hany : rest.head?.any Char.isDigit = false := by
      cases rest with
      | nil => rfl
      | cons c rest => exact hrest c rfl
    rw [hzero, List.singleton_append, readWhole, if_pos rfl, hany]
    rfl
  · obtain ⟨c, chars, hchars, hc⟩ := whole.exists_cons
    -- the first digit is another one, and all digits are taken
    have hnonzero : c ≠ '0' := by
      rintro rfl
      exact hother (by rw [hchars]; rfl)
    have hspan := spanDigits_append whole.digits hrest
    rw [hchars, List.cons_append] at hspan ⊢
    rw [readWhole, if_neg hnonzero, if_pos hc, hspan]

/-- A fraction is read if there is one. -/
theorem readFraction_text (literal : Literal) {rest : List Char} (hdigit : NoDigit rest)
    (hpoint : rest.head? ≠ some '.') :
    readFraction (literal.fractionText ++ rest) =
      .ok (literal.fraction.map Digits.chars, rest) := by
  unfold Literal.fractionText
  cases literal.fraction with
  | none =>
    cases rest with
    | nil => rfl
    | cons c rest =>
      -- no fraction: the text behind does not begin with a point
      have hc : c ≠ '.' := by
        rintro rfl
        exact hpoint rfl
      change readFraction (c :: rest) = .ok (none, c :: rest)
      unfold readFraction
      split
      · next heq => exact absurd (List.cons.inj heq).1 hc
      · rfl
  | some digits =>
    obtain ⟨c, chars, hchars, -⟩ := digits.exists_cons
    have hspan := spanDigits_append digits.digits hdigit
    rw [List.cons_append, readFraction, hspan]
    change _ = Except.ok (some digits.chars, rest)
    rw [hchars]

/-- A fraction begins with a point, so the whole part ends there. -/
theorem noDigit_fractionText (literal : Literal) {rest : List Char} (h : NoDigit rest) :
    NoDigit (literal.fractionText ++ rest) := by
  unfold Literal.fractionText
  cases literal.fraction with
  | none => exact h
  | some digits => exact noDigit_cons rfl (digits.chars ++ rest)

/-- An exponent, or what ends a number, goes on neither with a digit nor with a point. -/
theorem exponentText_head (literal : Literal) {rest : List Char} (h : EndsNumber rest) :
    NoDigit (literal.exponentText ++ rest) ∧ (literal.exponentText ++ rest).head? ≠ some '.' := by
  unfold Literal.exponentText
  cases literal.exponent with
  | none => exact ⟨h.noDigit, fun hpoint => (h '.' hpoint).2.1 rfl⟩
  | some part =>
    unfold ExponentPart.text
    constructor
    · intro c hc
      obtain rfl := Option.some.inj hc
      cases part.capital <;> rfl
    · intro hpoint
      have hmark := Option.some.inj hpoint
      cases hcapital : part.capital <;> simp [hcapital] at hmark

/-- Where a number has ended, there is no exponent. -/
theorem readExponent_ends (isZero : Bool) {rest : List Char} (h : EndsNumber rest) :
    readExponent isZero rest = .ok (none, rest) := by
  cases rest with
  | nil => rfl
  | cons c rest =>
    obtain ⟨-, -, he, hE⟩ := h c rfl
    have hmark : ¬ (c = 'e' ∨ c = 'E') := not_or.2 ⟨he, hE⟩
    unfold readExponent
    simp only [if_neg hmark]

/-- The sign of an exponent, if it is written, and the text behind it. -/
def takeSign : List Char → Bool × List Char
  | '+' :: rest => (false, rest)
  | '-' :: rest => (true, rest)
  | text => (false, text)

/-- The digits of an exponent, once its sign has been taken off `text`. -/
def finishExponent (isZero negative : Bool) (text : List Char) :
    Except Fault (Option Int × List Char) :=
  match spanDigits text with
  | ([], []) => faultBefore .endInValue []
  | ([], rest) => faultAt .invalidNumber rest
  | (digits, rest) =>
    let value := Nat.ofDigitChars 10 digits 0
    if exponentLimit < value ∧ ¬ negative ∧ ¬ isZero then
      faultBefore .numberOutOfRange (afterLimit 0 text)
    else .ok (some (if negative then -(value : Int) else value), rest)

/-- **Behind the mark comes a sign, and then the digits.** -/
theorem readExponent_mark (isZero : Bool) {mark : Char} (h : mark = 'e' ∨ mark = 'E')
    (text : List Char) :
    readExponent isZero (mark :: text) =
      finishExponent isZero (takeSign text).1 (takeSign text).2 := by
  unfold readExponent
  change (if mark = 'e' ∨ mark = 'E' then _ else _) = _
  rw [if_pos h]
  split
  next negative rest heq =>
    -- the reader's own match on the sign is that of `takeSign`
    have htake : takeSign text = (negative, rest) := by
      rw [← heq]
      unfold takeSign
      split <;> simp_all
    rw [htake]
    rfl

/-- The mark of an exponent may be a capital. -/
theorem ExponentPart.mark_cases (part : ExponentPart) :
    (if part.capital then 'E' else 'e') = 'e' ∨ (if part.capital then 'E' else 'e') = 'E' := by
  cases part.capital <;> decide

/-- The sign is what stands in front of the digits, and a digit is no sign. -/
theorem takeSign_text (part : ExponentPart) (rest : List Char) :
    takeSign (part.signText ++ (part.digits.chars ++ rest)) =
      (part.negative, part.digits.chars ++ rest) := by
  obtain ⟨c, chars, hchars, hdigit⟩ := part.digits.exists_cons
  unfold ExponentPart.signText ExponentPart.negative
  -- without a sign, the digit in front must not be taken for one
  cases part.sign with
  | none =>
    rw [List.nil_append, hchars, List.cons_append]
    unfold takeSign
    split
    · next heq =>
      obtain rfl := (List.cons.inj heq).1
      cases hdigit
    · next heq =>
      obtain rfl := (List.cons.inj heq).1
      cases hdigit
    · rfl
  | some minus => cases minus <;> rfl

/-- The digits are the exponent, unless it is beyond the limit. -/
theorem finishExponent_digits (isZero negative : Bool) (digits : Digits) {rest : List Char}
    (h : NoDigit rest) :
    (finishExponent isZero negative (digits.chars ++ rest)).toOption =
      if exponentLimit < digits.value ∧ ¬ negative ∧ ¬ isZero then none
      else some (some (if negative then -(digits.value : Int) else digits.value), rest) := by
  obtain ⟨c, chars, hchars, -⟩ := digits.exists_cons
  have hspan := spanDigits_append digits.digits h
  have hvalue : digits.value = Nat.ofDigitChars 10 (c :: chars) 0 := by
    rw [Digits.value, hchars]
  rw [finishExponent, hspan, hchars, hvalue]
  change Except.toOption (if _ then _ else _) = _
  split <;> rfl

/-- An exponent beyond the limit is refused, unless it leaves the number small or zero. -/
theorem readExponent_text (literal : Literal) {rest : List Char} (h : EndsNumber rest) :
    (readExponent literal.isZero (literal.exponentText ++ rest)).toOption =
      if literal.exceeds then none
      else some (literal.exponent.map ExponentPart.value, rest) := by
  unfold Literal.exponentText Literal.exceeds
  cases literal.exponent with
  | none =>
    rw [List.nil_append, readExponent_ends literal.isZero h]
    rfl
  | some part =>
    -- mark and sign are taken off; what is left are the digits
    have hread : readExponent literal.isZero (part.text ++ rest) =
        finishExponent literal.isZero part.negative (part.digits.chars ++ rest) := by
      unfold ExponentPart.text
      rw [List.cons_append, List.append_assoc, readExponent_mark _ part.mark_cases, takeSign_text]
    simp only [hread, finishExponent_digits _ _ part.digits h.noDigit]
    simp [ExponentPart.value, and_assoc]

/-- Whether a number is zero is told by its digits. -/
theorem isZero_eq (literal : Literal) :
    (literal.whole.chars.all (· == '0') &&
      ((literal.fraction.map Digits.chars).getD []).all (· == '0')) = literal.isZero := by
  unfold Literal.isZero Digits.isZero
  cases literal.fraction <;> rfl

/-- The sign of a number, and the text behind it. -/
def takeMinus : List Char → Bool × List Char
  | '-' :: rest => (true, rest)
  | text => (false, text)

/-- The parts of a number, once its sign has been taken off `text`. -/
def finishNumeral (negative : Bool) (text : List Char) : Except Fault (Numeral × List Char) := do
  let (whole, text) ← readWhole text
  let (fraction, text) ← readFraction text
  let isZero := whole.all (· == '0') && (fraction.getD []).all (· == '0')
  let (exponent, text) ← readExponent isZero text
  return (⟨negative, whole, fraction, exponent⟩, text)

/-- A number is read in its parts, behind its sign. -/
theorem readNumeral_eq (text : List Char) :
    readNumeral text = finishNumeral (takeMinus text).1 (takeMinus text).2 := by
  unfold readNumeral
  split
  next negative rest heq =>
    have htake : takeMinus text = (negative, rest) := by
      rw [← heq]
      unfold takeMinus
      split <;> simp_all
    rw [htake]
    rfl

/-- The text of a literal is its sign and its parts. -/
theorem takeMinus_text (literal : Literal) (rest : List Char) :
    takeMinus (literal.text ++ rest) =
      (literal.negative, literal.whole.chars ++ (literal.fractionText ++
        (literal.exponentText ++ rest))) := by
  obtain ⟨c, chars, hchars, hdigit⟩ := literal.whole.exists_cons
  unfold Literal.text
  simp only [List.append_assoc]
  cases literal.negative with
  | true => rfl
  | false =>
    -- the text begins with a digit, which is no minus sign
    rw [if_neg Bool.false_ne_true, List.nil_append, hchars, List.cons_append]
    unfold takeMinus
    split
    · next heq =>
      obtain rfl := (List.cons.inj heq).1
      cases hdigit
    · rfl

/-- **The parts of a literal are read from its text**, unless its exponent is beyond the limit. -/
theorem readNumeral_text (literal : Literal) {rest : List Char} (h : EndsNumber rest) :
    (readNumeral (literal.text ++ rest)).toOption =
      if literal.exceeds then none else some (literal.numeral, rest) := by
  obtain ⟨hdigit, hpoint⟩ := exponentText_head literal h
  have hwhole := readWhole_digits literal.leading (noDigit_fractionText literal hdigit)
  have hfraction := readFraction_text literal hdigit hpoint
  rw [readNumeral_eq, takeMinus_text, finishNumeral, hwhole]
  change (readFraction _ >>= _).toOption = _
  rw [hfraction]
  change (readExponent _ _ >>= _).toOption = _
  rw [isZero_eq, toOption_bind, readExponent_text literal h]
  split <;> rfl

/-- **And so is the number that they stand for.** -/
theorem readNumber_text (literal : Literal) {rest : List Char} (h : EndsNumber rest) :
    (readNumber (literal.text ++ rest)).toOption = literal.number?.map (·, rest) := by
  rw [readNumber, toOption_bind, readNumeral_text literal h, Literal.number?]
  split
  · rfl
  · simp only [Option.bind_some]
    cases literal.numeral.number? <;> rfl

/-! ## Strings

The recursion is that of `Piece.meaning?`: two units at once for a surrogate pair, else one piece.
-/

/-- Items that are made one by one are as many as before. -/
theorem length_of_mapM {α β : Type} {f : α → Option β} {list : List α} {made : List β}
    (h : list.mapM f = some made) : list.length = made.length := by
  induction list generalizing made with
  | nil =>
    obtain rfl : made = [] := by simpa using h.symm
    rfl
  | cons x rest ih =>
    rw [List.mapM_cons] at h
    obtain ⟨first, -, h⟩ := Option.bind_eq_some_iff.1 h
    obtain ⟨others, hothers, h⟩ := Option.bind_eq_some_iff.1 h
    obtain rfl : first :: others = made := Option.some.inj h
    rw [List.length_cons, List.length_cons, ih hothers]

theorem meaning?_short {letter c : Char} (known : (letter, c) ∈ shortEscapes)
    (rest : List Piece) :
    Piece.meaning? (.short letter c known :: rest) = (Piece.meaning? rest).map (c :: ·) := by
  rw [Piece.meaning?]

/-- Four hexadecimal digits are read to their code. -/
theorem readHex_chars (hex : Hex) (rest : List Char) :
    readHex (hex.chars ++ rest) = .ok (hex.code, rest) := by
  obtain ⟨a, b, c, d, hchars, hcode⟩ := hex.spelled
  have hlength : hex.chars.length = 4 := length_of_mapM hchars
  have htake : (hex.chars ++ rest).take 4 = hex.chars := by
    rw [← hlength, List.take_left]
  have hdrop : (hex.chars ++ rest).drop 4 = rest := by
    rw [← hlength, List.drop_left]
  unfold readHex
  rw [htake, hdrop, hchars, hcode]

/-- A short escape is read to its meaning. -/
theorem readEscape_short {letter meaning : Char} (h : (letter, meaning) ∈ shortEscapes)
    (rest : List Char) : readEscape (letter :: rest) = .ok (meaning, rest) := by
  simp only [shortEscapes, List.mem_cons, Prod.mk.injEq, List.not_mem_nil, or_false] at h
  rcases h with ⟨rfl, rfl⟩ | ⟨rfl, rfl⟩ | ⟨rfl, rfl⟩ | ⟨rfl, rfl⟩ | ⟨rfl, rfl⟩ | ⟨rfl, rfl⟩ |
    ⟨rfl, rfl⟩ | ⟨rfl, rfl⟩ <;> rfl

/-- No short escape has the letter of the long ones. -/
theorem short_ne_u {letter meaning : Char} (h : (letter, meaning) ∈ shortEscapes) :
    letter ≠ 'u' := by
  rintro rfl
  simp [shortEscapes] at h

/-- What a unit is depends on the range of its code. -/
theorem readUnicode_unit (hex : Hex) (rest : List Char) :
    readUnicode (hex.chars ++ rest) =
      if 0xDC00 ≤ hex.code ∧ hex.code ≤ 0xDFFF then faultBefore .loneSurrogate rest
      else if 0xD800 ≤ hex.code ∧ hex.code ≤ 0xDBFF then do
        let text ← readPairChar '\\' rest
        let text ← readPairChar 'u' text
        let (low, text) ← readHex text
        if 0xDC00 ≤ low ∧ low ≤ 0xDFFF then
          return (.ofNat (0x10000 + (hex.code - 0xD800) * 0x400 + (low - 0xDC00)), text)
        else faultBefore .loneSurrogate text
      else return (.ofNat hex.code, rest) := by
  rw [readUnicode, readHex_chars]
  rfl

/-- A low surrogate cannot come first. -/
theorem readUnicode_low {hex : Hex} (h : 0xDC00 ≤ hex.code ∧ hex.code ≤ 0xDFFF)
    (rest : List Char) : (readUnicode (hex.chars ++ rest)).toOption = none := by
  rw [readUnicode_unit, if_pos h]
  rfl

/-- A code that is no surrogate is a character. -/
theorem readUnicode_single {hex : Hex} (hlow : ¬ (0xDC00 ≤ hex.code ∧ hex.code ≤ 0xDFFF))
    (hhigh : ¬ (0xD800 ≤ hex.code ∧ hex.code ≤ 0xDBFF)) (rest : List Char) :
    readUnicode (hex.chars ++ rest) = .ok (.ofNat hex.code, rest) := by
  rw [readUnicode_unit, if_neg hlow, if_neg hhigh]
  rfl

/-- **A high surrogate needs a low one behind it**, and together they are a character. -/
theorem readUnicode_pair {high : Hex} (hlow : ¬ (0xDC00 ≤ high.code ∧ high.code ≤ 0xDFFF))
    (hhigh : 0xD800 ≤ high.code ∧ high.code ≤ 0xDBFF) (low : Hex) (rest : List Char) :
    readUnicode (high.chars ++ '\\' :: 'u' :: (low.chars ++ rest)) =
      if 0xDC00 ≤ low.code ∧ low.code ≤ 0xDFFF then
        .ok (.ofNat (0x10000 + (high.code - 0xD800) * 0x400 + (low.code - 0xDC00)), rest)
      else faultBefore .loneSurrogate rest := by
  rw [readUnicode_unit, if_neg hlow, if_pos hhigh]
  change (readHex (low.chars ++ rest) >>= _) = _
  rw [readHex_chars]
  rfl

/-- Pieces that do not begin with a unit hold no second half of a surrogate pair. -/
theorem readUnicode_alone {high : Hex} (hlow : ¬ (0xDC00 ≤ high.code ∧ high.code ≤ 0xDFFF))
    (hhigh : 0xD800 ≤ high.code ∧ high.code ≤ 0xDBFF) {pieces : List Piece}
    (h : ∀ low rest, pieces ≠ .unit low :: rest) (rest : List Char) :
    (readUnicode (high.chars ++ (pieces.flatMap Piece.text ++ '"' :: rest))).toOption = none := by
  rw [readUnicode_unit, if_neg hlow, if_pos hhigh, toOption_bind]
  cases pieces with
  | nil => rfl
  | cons piece others =>
    cases piece with
    | plain c allowed =>
      -- a plain character is no backslash
      have hmiss : (readPairChar '\\'
          ((Piece.plain c allowed :: others).flatMap Piece.text ++ '"' :: rest)).toOption =
          none := by
        change (readPairChar '\\' (c :: _)).toOption = none
        rw [readPairChar, if_neg allowed.2.1]
        rfl
      rw [hmiss]
      rfl
    | short letter meaning known =>
      -- the backslash is there, but the letter behind it is another one
      change (readPairChar 'u' (letter :: (others.flatMap Piece.text ++ '"' :: rest)) >>=
        _).toOption = none
      rw [readPairChar, if_neg (short_ne_u known)]
      rfl
    | unit low => exact absurd rfl (h low others)

/-- A plain character stands for itself. -/
theorem readStringBody_plain (fuel : Nat) {c : Char}
    (h : c ≠ '"' ∧ c ≠ '\\' ∧ 0x20 ≤ c.toNat) (text : List Char) :
    (readStringBody (fuel + 1) (c :: text)).toOption =
      (readStringBody fuel text).toOption.map fun read => (c :: read.1, read.2) := by
  rw [readStringBody, if_neg h.1, if_neg h.2.1, if_neg (Nat.not_lt.2 h.2.2)]
  cases readStringBody fuel text <;> rfl

/-- A backslash makes the next characters an escape. -/
theorem readStringBody_escape (fuel : Nat) (text : List Char) :
    (readStringBody (fuel + 1) ('\\' :: text)).toOption =
      (readEscape text).toOption.bind fun escape =>
        (readStringBody fuel escape.2).toOption.map fun read => (escape.1 :: read.1, read.2) := by
  change (readEscape text >>= _).toOption = _
  rw [toOption_bind]
  congr 1
  funext escape
  change (readStringBody fuel escape.2 >>= _).toOption = _
  cases readStringBody fuel escape.2 <;> rfl

/-- A unit is an escape, with the letter that it begins with. -/
theorem readStringBody_unit (fuel : Nat) (text : List Char) :
    (readStringBody (fuel + 1) ('\\' :: 'u' :: text)).toOption =
      (readUnicode text).toOption.bind fun escape =>
        (readStringBody fuel escape.2).toOption.map fun read => (escape.1 :: read.1, read.2) :=
  readStringBody_escape fuel ('u' :: text)

theorem flatMap_text_unit (hex : Hex) (others : List Piece) (rest : List Char) :
    (Piece.unit hex :: others).flatMap Piece.text ++ rest =
      '\\' :: 'u' :: (hex.chars ++ (others.flatMap Piece.text ++ rest)) := by
  rw [List.flatMap_cons, List.append_assoc]
  rfl

/-- The reader of a string finds the meaning of its pieces, and fails where they have none. -/
theorem readStringBody_pieces (pieces : List Piece) (rest : List Char) :
    ∀ spare, (readStringBody (spare + pieces.length + 1)
        (pieces.flatMap Piece.text ++ '"' :: rest)).toOption =
      (Piece.meaning? pieces).map (·, rest) := by
  -- a pair of units takes two pieces at once, so the fuel may be more than the pieces need
  fun_induction Piece.meaning? pieces with
  | case1 =>
    intro spare
    rfl
  | case2 c allowed others ih =>
    intro spare
    have hothers := ih spare
    have hread := readStringBody_plain (spare + others.length + 1) allowed
      (others.flatMap Piece.text ++ '"' :: rest)
    rw [hothers, Option.map_map] at hread
    rw [Option.map_map]
    exact hread
  | case3 letter c known others ih =>
    intro spare
    have hothers := ih spare
    have hread := readStringBody_escape (spare + others.length + 1)
      (letter :: (others.flatMap Piece.text ++ '"' :: rest))
    rw [readEscape_short known, toOption_ok, Option.bind_some, hothers] at hread
    rw [Option.map_map] at hread ⊢
    exact hread
  -- a low surrogate in front has no meaning
  | case4 hex others hlow =>
    intro spare
    rw [flatMap_text_unit, readStringBody_unit, readUnicode_low hlow]
    rfl
  -- a high surrogate: with a low one, with another unit, with anything else behind it
  | case5 hex hlow hhigh low others hpair ih =>
    intro spare
    have hothers := ih (spare + 1)
    have hfuel : spare + (others.length + 1) + 1 = spare + 1 + others.length + 1 := by omega
    rw [flatMap_text_unit, flatMap_text_unit, readStringBody_unit, readUnicode_pair hlow hhigh,
      if_pos hpair, toOption_ok, Option.bind_some, List.length_cons, List.length_cons,
      ← Nat.add_assoc, hfuel, hothers, Option.map_map, Option.map_map]
    simp only [Function.comp_def]
  | case6 hex hlow hhigh low others hpair =>
    intro spare
    rw [flatMap_text_unit, flatMap_text_unit, readStringBody_unit, readUnicode_pair hlow hhigh,
      if_neg hpair]
    rfl
  | case7 hex others hlow hhigh hunit =>
    intro spare
    rw [flatMap_text_unit, readStringBody_unit, readUnicode_alone hlow hhigh hunit]
    rfl
  | case8 hex others hlow hhigh ih =>
    intro spare
    have hothers := ih spare
    rw [flatMap_text_unit, readStringBody_unit, readUnicode_single hlow hhigh, toOption_ok,
      Option.bind_some, List.length_cons, ← Nat.add_assoc, hothers, Option.map_map,
      Option.map_map]
    rfl

/-- Each piece has at least one character, so there is fuel for all. -/
theorem length_le_flatMap_text (pieces : List Piece) :
    pieces.length ≤ (pieces.flatMap Piece.text).length := by
  induction pieces with
  | nil => exact Nat.le_refl 0
  | cons piece rest ih =>
    have hpiece : 1 ≤ piece.text.length := by
      cases piece with
      | plain => exact Nat.le_refl 1
      | short => exact Nat.le_succ 1
      | unit hex => exact Nat.le_add_left 1 _
    rw [List.flatMap_cons, List.length_append, List.length_cons]
    omega

/-- **A string is read to the meaning of its pieces.** -/
theorem readString_pieces (pieces : List Piece) (rest : List Char) :
    (readString (pieces.flatMap Piece.text ++ '"' :: rest)).toOption =
      (Piece.meaning? pieces).map fun chars => (.ofList chars, rest) := by
  -- the fuel is the length of the text, which is at least the number of pieces
  obtain ⟨spare, hspare⟩ : ∃ spare,
      (pieces.flatMap Piece.text ++ '"' :: rest).length + 1 = spare + pieces.length + 1 := by
    have hpieces := length_le_flatMap_text pieces
    rw [List.length_append]
    exact ⟨(pieces.flatMap Piece.text).length + ('"' :: rest).length - pieces.length, by omega⟩
  rw [readString, toOption_bind, hspare, readStringBody_pieces pieces rest spare]
  cases Piece.meaning? pieces <;> rfl

end StepRelay.Json
