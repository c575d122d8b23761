import StepRelay.Json.Printer
import StepRelay.Proofs.IntegerLiterals
import StepRelay.Proofs.Rounding

/-!
# What is printed is a document

The compact text of a tree is the text of a document without blanks, whose raw tree is the tree
(`exists_document`). Integers and strings are spelled digit by digit and piece by piece. A double is
spelled by the digits of its shortest decimal: wherever the point is put, the literal writes a
decimal of the same value, always with a fraction or an exponent, so that it cannot be taken for an
integer.
-/

namespace StepRelay.Json

/-! ## Numbers

There are five ways to write a double: as zero, with the point before, between or behind the digits,
and with an exponent. Which one is taken depends on the place of the point; each has its own lemma.
-/

/-- An integer is written as its literal. -/
theorem Literal.text_ofInt (n : Int) : (Literal.ofInt n).text = integerText n := by
  have htext : (Literal.ofInt n).text =
      (if decide (n < 0) then ['-'] else []) ++ Nat.toDigits 10 n.natAbs ++ [] ++ [] := rfl
  rw [htext, List.append_nil, List.append_nil, integerText]
  by_cases hn : n < 0
  · rw [if_pos (decide_eq_true hn), if_pos hn]
    rfl
  · rw [if_neg (by simpa using hn), if_neg hn]
    rfl

/-- And the literal is read as the integer, if it has a place among the numbers. -/
theorem Literal.number?_ofInt {n : Int} (fits : -Nat.pow 2 63 ≤ n ∧ n < Nat.pow 2 64) :
    (Literal.ofInt n).number? = some (.integer n fits) := by
  rw [number?_of_isInteger (isInteger_ofInt n), Numeral.number?,
    integer?_of_not_isMinusZero (isInteger_ofInt n) (not_isMinusZero_ofInt n), value_ofInt,
    Option.bind_some, Number.ofInt?, dif_pos fits]

/-! ### Digits

Zeros are put in front of digits, or behind them, to bring the point to its place.
-/

theorem ofDigitChars_zeros (count : Nat) (digits : List Char) :
    Nat.ofDigitChars 10 (List.replicate count '0' ++ digits) 0 = Nat.ofDigitChars 10 digits 0 := by
  induction count with
  | zero => rfl
  | succ count ih =>
    rw [List.replicate_succ, List.cons_append, Nat.ofDigitChars_cons]
    exact ih

/-- Each zero behind makes the number ten times as large. -/
theorem ofDigitChars_append_zeros (digits : List Char) (count : Nat) :
    Nat.ofDigitChars 10 (digits ++ List.replicate count '0') 0 =
      Nat.ofDigitChars 10 digits 0 * 10 ^ count := by
  have hzeros : Nat.ofDigitChars 10 (List.replicate count '0') 0 = 0 := by
    have hempty := ofDigitChars_zeros count []
    rwa [List.append_nil] at hempty
  rw [Nat.ofDigitChars_append, Nat.ofDigitChars_eq_ofDigitChars_zero, hzeros, List.length_replicate,
    Nat.mul_comm, Nat.add_zero]

theorem isDigit_of_mem_replicate {count : Nat} {c : Char} (h : c ∈ List.replicate count '0') :
    c.isDigit = true := by
  obtain rfl := List.eq_of_mem_replicate h
  rfl

/-! ### Doubles

`Spells` asks for two things, the same text and a value that rounds to the same double. The lemmas
below give a literal for each place that the point can have.
-/

/-- What a literal has to be for the text of a decimal to be read back as the same double. -/
structure Spells (literal : Literal) (d : Decimal) : Prop where
  text : literal.text = d.wireText
  exceeds : literal.exceeds = false
  notInteger : literal.numeral.integer? = none
  value : literal.numeral.decimal.toDouble = d.toDouble

section Spells

variable {d : Decimal}

/-- The digits of a decimal are digits. -/
theorem isDigit_of_mem_digits {c : Char} (h : c ∈ d.digits) : c.isDigit = true :=
  Nat.isDigit_of_mem_toDigits (by decide) (by decide) h

theorem digits_ne_nil : d.digits ≠ [] := Nat.toDigits_ne_nil

theorem ofDigitChars_digits : Nat.ofDigitChars 10 d.digits 0 = d.coefficient :=
  Nat.ofDigitChars_toDigits (by decide) (by decide)

/-- Digits on both sides of a point. -/
def pointed (negative : Bool) (whole fraction : Digits)
    (leading : whole.chars = ['0'] ∨ whole.chars.head? ≠ some '0') : Literal :=
  ⟨negative, whole, some fraction, none, leading⟩

/-- **A literal with a point spells a decimal** if its digits are those of the decimal, moved to
where the point is. -/
theorem spells_pointed (whole fraction : Digits)
    (leading : whole.chars = ['0'] ∨ whole.chars.head? ≠ some '0')
    (htext : d.wireText = d.sign ++ whole.chars ++ '.' :: fraction.chars)
    (hvalue : Decimal.toDouble ⟨d.negative, Nat.ofDigitChars 10 (whole.chars ++ fraction.chars) 0,
      -(fraction.chars.length : Int)⟩ = d.toDouble) :
    Spells (pointed d.negative whole fraction leading) d where
  text := by
    rw [htext]
    exact List.append_nil _
  exceeds := rfl
  notInteger := rfl
  value := by
    have hdecimal : (pointed d.negative whole fraction leading).numeral.decimal =
        ⟨d.negative, Nat.ofDigitChars 10 (whole.chars ++ fraction.chars) 0,
          0 - (fraction.chars.length : Int)⟩ := rfl
    rw [hdecimal, Int.zero_sub, hvalue]

/-- Zero is written with a point and a zero behind it. -/
theorem exists_spells_zero (hzero : d.coefficient = 0) : ∃ literal, Spells literal d := by
  have htext : d.wireText = d.sign ++ ['0'] ++ '.' :: ['0'] := by
    rw [Decimal.wireText, if_pos hzero, List.append_assoc]
    rfl
  have hvalue : Decimal.toDouble ⟨d.negative, 0, -1⟩ = d.toDouble := by
    rw [Decimal.toDouble, Decimal.toDouble, if_pos rfl, if_pos hzero]
  exact ⟨_, spells_pointed (.ofNat 0) (.ofNat 0) (Digits.leading_ofNat 0) htext hvalue⟩

/-- A decimal whose point is near its digits is written without an exponent. -/
theorem wireText_of_positional (hne : d.coefficient ≠ 0)
    (hplace : -5 < d.pointPlace ∧ d.pointPlace ≤ 16) : d.wireText = d.positional := by
  rw [Decimal.wireText, if_neg hne, if_pos hplace]

/-- The point stands in front of all digits. -/
theorem exists_spells_before (hne : d.coefficient ≠ 0)
    (hplace : -5 < d.pointPlace ∧ d.pointPlace ≤ 0) : ∃ literal, Spells literal d := by
  let fraction : Digits :=
    { chars := List.replicate (-d.pointPlace).toNat '0' ++ d.digits
      nonempty := List.append_ne_nil_of_right_ne_nil _ digits_ne_nil
      digits := fun c hc => (List.mem_append.1 hc).elim isDigit_of_mem_replicate
        isDigit_of_mem_digits }
  have hparts : d.positionalParts = (['0'], fraction.chars) := by
    rw [Decimal.positionalParts, if_pos hplace.2]
  have htext : d.wireText = d.sign ++ ['0'] ++ '.' :: fraction.chars := by
    rw [wireText_of_positional hne ⟨hplace.1, by omega⟩, Decimal.positional, hparts]
    simp only [if_neg fraction.nonempty]
  -- the zeros that were put in front fill the fraction up to the exponent
  have hlength : -(fraction.chars.length : Int) = d.exponent := by
    have hpoint : d.pointPlace = d.digits.length + d.exponent := rfl
    rw [List.length_append, List.length_replicate]
    omega
  have hcoefficient : Nat.ofDigitChars 10 (['0'] ++ fraction.chars) 0 = d.coefficient := by
    rw [List.singleton_append, Nat.ofDigitChars_cons]
    exact (ofDigitChars_zeros _ _).trans ofDigitChars_digits
  have hvalue : Decimal.toDouble ⟨d.negative, Nat.ofDigitChars 10 (['0'] ++ fraction.chars) 0,
      -(fraction.chars.length : Int)⟩ = d.toDouble := by
    rw [hlength, hcoefficient]
  exact ⟨_, spells_pointed (.ofNat 0) fraction (Digits.leading_ofNat 0) htext hvalue⟩

theorem head?_digits (hne : d.coefficient ≠ 0) : d.digits.head? ≠ some '0' :=
  Literal.head?_toDigits hne

/-- The point stands behind all digits. -/
theorem exists_spells_behind (hne : d.coefficient ≠ 0) (hexponent : 0 ≤ d.exponent)
    (hplace : 0 < d.pointPlace ∧ d.pointPlace ≤ 16) : ∃ literal, Spells literal d := by
  let whole : Digits :=
    { chars := d.digits ++ List.replicate d.exponent.toNat '0'
      nonempty := List.append_ne_nil_of_left_ne_nil digits_ne_nil _
      digits := fun c hc => (List.mem_append.1 hc).elim isDigit_of_mem_digits
        isDigit_of_mem_replicate }
  have leading : whole.chars.head? ≠ some '0' := by
    rw [List.head?_append_of_ne_nil _ digits_ne_nil]
    exact head?_digits hne
  have hparts : d.positionalParts = (whole.chars, []) := by
    rw [Decimal.positionalParts, if_neg (by omega), if_pos hexponent]
  have htext : d.wireText = d.sign ++ whole.chars ++ '.' :: ['0'] := by
    rw [wireText_of_positional hne ⟨by omega, hplace.2⟩, Decimal.positional, hparts]
    rfl
  have hsmall : d.exponent.toNat ≤ 310 := by
    have hpoint : d.pointPlace = d.digits.length + d.exponent := rfl
    omega
  -- the zero behind the point makes the coefficient ten times as large
  have hcoefficient : Nat.ofDigitChars 10 (whole.chars ++ ['0']) 0 =
      d.coefficient * 10 ^ (d.exponent.toNat + 1) := by
    have hzeros : whole.chars ++ ['0'] = d.digits ++ List.replicate (d.exponent.toNat + 1) '0' := by
      rw [List.replicate_succ', List.append_assoc]
    rw [hzeros, ofDigitChars_append_zeros, ofDigitChars_digits]
  have hvalue : Decimal.toDouble ⟨d.negative, Nat.ofDigitChars 10 (whole.chars ++ ['0']) 0, -1⟩ =
      d.toDouble := by
    have hnat : (d.exponent.toNat : Int) = d.exponent := Int.toNat_of_nonneg hexponent
    rw [hcoefficient, Decimal.toDouble_mul_ten_pow d.negative hne hsmall, hnat]
  exact ⟨_, spells_pointed whole (.ofNat 0) (.inr leading) htext hvalue⟩

/-- The point stands between two digits. -/
theorem exists_spells_between (hne : d.coefficient ≠ 0) (hexponent : d.exponent < 0)
    (hplace : 0 < d.pointPlace ∧ d.pointPlace ≤ 16) : ∃ literal, Spells literal d := by
  have hpoint : d.pointPlace = d.digits.length + d.exponent := rfl
  -- the point stands inside the digits and splits them into two parts, neither of them empty
  obtain ⟨place, hnat⟩ : ∃ place : Nat, d.pointPlace = place :=
    ⟨d.pointPlace.toNat, (Int.toNat_of_nonneg (by omega)).symm⟩
  have htake : (d.digits.take place).length = place := by
    rw [List.length_take]
    omega
  have hdrop : (d.digits.drop place).length = d.digits.length - place := List.length_drop
  let whole : Digits :=
    { chars := d.digits.take place
      nonempty := by
        rw [← List.length_pos_iff]
        omega
      digits := fun c hc => isDigit_of_mem_digits (List.mem_of_mem_take hc) }
  let fraction : Digits :=
    { chars := d.digits.drop place
      nonempty := by
        rw [← List.length_pos_iff]
        omega
      digits := fun c hc => isDigit_of_mem_digits (List.mem_of_mem_drop hc) }
  -- the first digit of a number that is not zero is not a zero
  have leading : whole.chars.head? ≠ some '0' := by
    rw [List.head?_take, if_neg (by omega)]
    exact head?_digits hne
  have hparts : d.positionalParts = (whole.chars, fraction.chars) := by
    rw [Decimal.positionalParts, if_neg (by omega), if_neg (by omega), hnat]
    rfl
  have htext : d.wireText = d.sign ++ whole.chars ++ '.' :: fraction.chars := by
    rw [wireText_of_positional hne ⟨by omega, hplace.2⟩, Decimal.positional, hparts]
    simp only [if_neg fraction.nonempty]
  -- put together again, the two parts are the coefficient
  have hvalue : Decimal.toDouble ⟨d.negative, Nat.ofDigitChars 10 (whole.chars ++ fraction.chars) 0,
      -(fraction.chars.length : Int)⟩ = d.toDouble := by
    have hlength : -(fraction.chars.length : Int) = d.exponent := by
      have hfraction : fraction.chars.length = d.digits.length - place := hdrop
      omega
    rw [hlength, List.take_append_drop, ofDigitChars_digits]
  exact ⟨_, spells_pointed whole fraction (.inr leading) htext hvalue⟩

/-! ### Exponents

Where the point is far from the digits, one of them is put in front of it and an exponent makes up
for the rest. The reader limits exponents, so this one has to be bounded.
-/

/-- The exponent of a decimal, written behind one digit. -/
def exponentPart (exponent : Int) : ExponentPart :=
  ⟨false, some (exponent < 0), .ofNat exponent.natAbs⟩

/-- The exponent that is written is the exponent. -/
theorem value_exponentPart (exponent : Int) : (exponentPart exponent).value = exponent := by
  have hvalue : (exponentPart exponent).digits.value = exponent.natAbs :=
    Digits.value_ofNat exponent.natAbs
  rw [ExponentPart.value, hvalue]
  by_cases hneg : exponent < 0
  · have hsign : (exponentPart exponent).negative = true := by
      simp [exponentPart, ExponentPart.negative, hneg]
    rw [hsign, if_pos rfl]
    omega
  · have hsign : (exponentPart exponent).negative = false := by
      simp [exponentPart, ExponentPart.negative, hneg]
    rw [hsign, if_neg Bool.false_ne_true]
    omega

theorem text_exponentPart (exponent : Int) :
    (exponentPart exponent).text =
      'e' :: (if exponent < 0 then '-' else '+') :: Nat.toDigits 10 exponent.natAbs := by
  by_cases hneg : exponent < 0
  · simp [exponentPart, ExponentPart.text, ExponentPart.signText, Digits.ofNat, hneg]
  · simp [exponentPart, ExponentPart.text, ExponentPart.signText, Digits.ofNat, hneg]

/-- Digits with a power of ten. -/
def scaled (negative : Bool) (whole : Digits) (fraction : Option Digits) (exponent : Int)
    (leading : whole.chars = ['0'] ∨ whole.chars.head? ≠ some '0') : Literal :=
  ⟨negative, whole, fraction, some (exponentPart exponent), leading⟩

/-- It stays within the limit of the reader, if it is not too large. -/
theorem exceeds_scaled (negative : Bool) (whole : Digits) (fraction : Option Digits)
    {exponent : Int} (leading : whole.chars = ['0'] ∨ whole.chars.head? ≠ some '0')
    (hlimit : exponent ≤ 309) :
    (scaled negative whole fraction exponent leading).exceeds = false := by
  have hexceeds : (scaled negative whole fraction exponent leading).exceeds =
      (decide (exponentLimit < (Digits.ofNat exponent.natAbs).value) &&
        !(exponentPart exponent).negative &&
        !(scaled negative whole fraction exponent leading).isZero) := rfl
  rw [hexceeds, Digits.value_ofNat]
  by_cases hneg : exponent < 0
  · -- a negative exponent is never too large
    have hsign : (exponentPart exponent).negative = true := by
      simp [exponentPart, ExponentPart.negative, hneg]
    rw [hsign, Bool.not_true, Bool.and_false, Bool.false_and]
  · -- and a positive one is far below the limit
    have hsmall : ¬ exponentLimit < exponent.natAbs := by
      have hbound : 309 ≤ exponentLimit := by decide
      omega
    rw [decide_eq_false hsmall, Bool.false_and, Bool.false_and]

/-- **A literal with an exponent spells a decimal** if its digits are those of the decimal, the
first of them in front of the point. -/
theorem spells_scaled (whole : Digits) (fraction : Option Digits)
    (leading : whole.chars = ['0'] ∨ whole.chars.head? ≠ some '0') (hlimit : d.pointPlace ≤ 310)
    (htext : d.wireText = (scaled d.negative whole fraction (d.pointPlace - 1) leading).text)
    (hdigits : whole.chars ++ (fraction.map Digits.chars).getD [] = d.digits)
    (hlength : d.digits.length = ((fraction.map Digits.chars).getD []).length + 1) :
    Spells (scaled d.negative whole fraction (d.pointPlace - 1) leading) d where
  text := htext.symm
  exceeds := exceeds_scaled d.negative whole fraction leading (by omega)
  -- an exponent is there
  notInteger := by
    rw [Numeral.integer?, if_neg]
    rintro ⟨-, hexponent⟩
    cases hexponent
  value := by
    have hdecimal : (scaled d.negative whole fraction (d.pointPlace - 1) leading).numeral.decimal =
        ⟨d.negative,
          Nat.ofDigitChars 10 (whole.chars ++ (fraction.map Digits.chars).getD []) 0,
          (exponentPart (d.pointPlace - 1)).value -
            ((fraction.map Digits.chars).getD []).length⟩ := rfl
    have hexponent : d.pointPlace - 1 - (((fraction.map Digits.chars).getD []).length : Int) =
        d.exponent := by
      have hpoint : d.pointPlace = d.digits.length + d.exponent := rfl
      omega
    rw [hdecimal, value_exponentPart, hdigits, ofDigitChars_digits, hexponent]

/-- One digit, the others behind the point, and an exponent. -/
theorem exists_spells_scientific (hne : d.coefficient ≠ 0) (hlimit : d.pointPlace ≤ 310)
    (hplace : ¬ (-5 < d.pointPlace ∧ d.pointPlace ≤ 16)) : ∃ literal, Spells literal d := by
  obtain ⟨c, rest, hdigits⟩ := List.exists_cons_of_ne_nil (digits_ne_nil (d := d))
  have hdigit : ∀ x ∈ c :: rest, x.isDigit = true := by
    intro x hx
    rw [← hdigits] at hx
    exact isDigit_of_mem_digits hx
  have hwire : d.wireText = d.scientific := by
    rw [Decimal.wireText, if_neg hne, if_neg hplace]
  let whole : Digits :=
    { chars := [c]
      nonempty := List.cons_ne_nil _ _
      digits := fun x hx => hdigit x (List.mem_cons.2 (.inl (List.mem_singleton.1 hx))) }
  have leading : whole.chars.head? ≠ some '0' := by
    have hhead := head?_digits hne
    rwa [hdigits] at hhead
  have hexponent := text_exponentPart (d.pointPlace - 1)
  cases rest with
  | nil =>
    -- one digit, and no point
    have htext : d.wireText =
        (scaled d.negative whole none (d.pointPlace - 1) (.inr leading)).text := by
      rw [hwire, Decimal.scientific, hdigits]
      change d.sign ++ [c] ++ _ = d.sign ++ [c] ++ [] ++ (exponentPart (d.pointPlace - 1)).text
      rw [hexponent, List.append_nil]
    exact ⟨_, spells_scaled whole none (.inr leading) hlimit htext hdigits.symm
      (by rw [hdigits]; rfl)⟩
  | cons second others =>
    -- several digits, with the point behind the first of them
    let fraction : Digits :=
      { chars := second :: others
        nonempty := List.cons_ne_nil _ _
        digits := fun x hx => hdigit x (List.mem_cons_of_mem c hx) }
    have htext : d.wireText =
        (scaled d.negative whole (some fraction) (d.pointPlace - 1) (.inr leading)).text := by
      rw [hwire, Decimal.scientific, hdigits]
      change d.sign ++ ([c] ++ '.' :: second :: others) ++ _ =
        d.sign ++ [c] ++ '.' :: second :: others ++ (exponentPart (d.pointPlace - 1)).text
      rw [hexponent]
      simp only [List.append_assoc]
    exact ⟨_, spells_scaled whole (some fraction) (.inr leading) hlimit htext hdigits.symm
      (by rw [hdigits]; rfl)⟩

/-- The text of a decimal is that of a literal, unless its point is too far behind. -/
theorem exists_spells (hlimit : d.coefficient ≠ 0 → d.pointPlace ≤ 310) :
    ∃ literal, Spells literal d := by
  by_cases hzero : d.coefficient = 0
  · exact exists_spells_zero hzero
  by_cases hplace : -5 < d.pointPlace ∧ d.pointPlace ≤ 16
  · by_cases hfront : d.pointPlace ≤ 0
    · exact exists_spells_before hzero ⟨hplace.1, hfront⟩
    by_cases hexponent : 0 ≤ d.exponent
    · exact exists_spells_behind hzero hexponent ⟨Int.not_le.1 hfront, hplace.2⟩
    · exact exists_spells_between hzero (Int.not_le.1 hexponent)
        ⟨Int.not_le.1 hfront, hplace.2⟩
  · exact exists_spells_scientific hzero (hlimit hzero) hplace

end Spells

/-- **A finite double has a literal.** -/
theorem exists_literal_double {d : Double} (h : d.isFinite = true) :
    ∃ literal : Literal, literal.text = d.wireText ∧ literal.number? = some (.double d h) := by
  have hread := Double.toDouble_shortest .toEven h
  -- the shortest decimal reads as a finite number, so its point is not too far behind
  have hlimit : (d.shortest .toEven).coefficient ≠ 0 → (d.shortest .toEven).pointPlace ≤ 310 := by
    intro hne
    exact Decimal.pointPlace_le hne (by rw [hread, h])
  obtain ⟨literal, hspells⟩ := exists_spells hlimit
  have hnumber : literal.numeral.number? = some (.double d h) := by
    rw [Numeral.number?, hspells.notInteger, hspells.value, hread]
    exact dif_pos h
  refine ⟨literal, hspells.text, ?_⟩
  rw [Literal.number?, hspells.exceeds, hnumber]
  rfl

/-- **Every number has a literal that is read as the number.** -/
theorem exists_literal (n : Number) :
    ∃ literal : Literal, literal.text = n.text ∧ literal.number? = some n := by
  cases n with
  | integer n fits => exact ⟨.ofInt n, Literal.text_ofInt n, Literal.number?_ofInt fits⟩
  | double d finite => exact exists_literal_double finite

/-! ## Strings

Each character is escaped to one piece, and no piece looks at the one behind it, since no surrogates
are written.
-/

/-- A hexadecimal digit is worth what it was made of. -/
theorem hexValue?_hexDigit {n : Nat} (h : n < 16) : hexValue? (hexDigit n) = some n := by
  have hdigits : ∀ n < 16, hexValue? (hexDigit n) = some n := by decide
  exact hdigits n h

/-- The four digits that a control character is escaped to. -/
def controlHex (c : Char) (h : c.toNat < 0x20) : Hex where
  chars := ['0', '0', hexDigit (c.toNat / 16), hexDigit (c.toNat % 16)]
  code := c.toNat
  spelled := by
    have hzero : hexValue? '0' = some 0 := rfl
    have hhigh : hexValue? (hexDigit (c.toNat / 16)) = some (c.toNat / 16) :=
      hexValue?_hexDigit (by omega)
    have hlow : hexValue? (hexDigit (c.toNat % 16)) = some (c.toNat % 16) :=
      hexValue?_hexDigit (by omega)
    refine ⟨0, 0, c.toNat / 16, c.toNat % 16, ?_, by omega⟩
    simp [hzero, hhigh, hlow]

/-- A control character is what its escape means. -/
theorem meaning?_control {c : Char} (h : c.toNat < 0x20) (rest : List Piece) :
    Piece.meaning? (.unit (controlHex c h) :: rest) = (Piece.meaning? rest).map (c :: ·) := by
  have hcode : (controlHex c h).code = c.toNat := rfl
  have hlow : ¬ (0xDC00 ≤ (controlHex c h).code ∧ (controlHex c h).code ≤ 0xDFFF) := by omega
  have hhigh : ¬ (0xD800 ≤ (controlHex c h).code ∧ (controlHex c h).code ≤ 0xDBFF) := by omega
  conv_lhs => unfold Piece.meaning?
  simp only [if_neg hlow, if_neg hhigh]
  rw [hcode, Char.ofNat_toNat]

/-- What a character is escaped to is one piece, which means the character. -/
theorem exists_piece (c : Char) : ∃ piece : Piece, piece.text = escapeChar c ∧
    ∀ rest, Piece.meaning? (piece :: rest) = (Piece.meaning? rest).map (c :: ·) := by
  by_cases hquote : c = '"'
  · subst hquote
    exact ⟨.short '"' '"' (by decide), rfl, meaning?_short _⟩
  by_cases hslash : c = '\\'
  · subst hslash
    exact ⟨.short '\\' '\\' (by decide), rfl, meaning?_short _⟩
  by_cases hline : c = '\n'
  · subst hline
    exact ⟨.short 'n' '\n' (by decide), rfl, meaning?_short _⟩
  by_cases hreturn : c = '\r'
  · subst hreturn
    exact ⟨.short 'r' '\r' (by decide), rfl, meaning?_short _⟩
  by_cases htab : c = '\t'
  · subst htab
    exact ⟨.short 't' '\t' (by decide), rfl, meaning?_short _⟩
  by_cases hback : c = '\x08'
  · subst hback
    exact ⟨.short 'b' '\x08' (by decide), rfl, meaning?_short _⟩
  by_cases hfeed : c = '\x0c'
  · subst hfeed
    exact ⟨.short 'f' '\x0c' (by decide), rfl, meaning?_short _⟩
  -- none of the characters that have an escape of their own
  have hescape : escapeChar c =
      if c.toNat < 0x20 then
        ['\\', 'u', '0', '0', hexDigit (c.toNat / 16), hexDigit (c.toNat % 16)]
      else [c] := by
    rw [escapeChar, if_neg hquote, if_neg hslash, if_neg hline, if_neg hreturn, if_neg htab,
      if_neg hback, if_neg hfeed]
  by_cases hcontrol : c.toNat < 0x20
  · refine ⟨.unit (controlHex c hcontrol), ?_, meaning?_control hcontrol⟩
    rw [hescape, if_pos hcontrol]
    rfl
  · refine ⟨.plain c ⟨hquote, hslash, Nat.not_lt.1 hcontrol⟩, ?_, fun rest => ?_⟩
    · rw [hescape, if_neg hcontrol]
      rfl
    · rw [Piece.meaning?]

theorem exists_pieces (chars : List Char) : ∃ pieces : List Piece,
    pieces.flatMap Piece.text = chars.flatMap escapeChar ∧ Piece.meaning? pieces = some chars := by
  induction chars with
  | nil => exact ⟨[], rfl, rfl⟩
  | cons c rest ih =>
    obtain ⟨pieces, htext, hmeaning⟩ := ih
    obtain ⟨piece, hpiece, hchar⟩ := exists_piece c
    refine ⟨piece :: pieces, ?_, ?_⟩
    · rw [List.flatMap_cons, List.flatMap_cons, hpiece, htext]
    · rw [hchar, hmeaning]
      rfl

/-- **A string is written as pieces between quotes.** -/
theorem exists_quoted (text : String) : ∃ pieces : List Piece,
    Piece.quoted pieces = stringText text ∧ Piece.meaning? pieces = some text.toList := by
  obtain ⟨pieces, htext, hmeaning⟩ := exists_pieces text.toList
  refine ⟨pieces, ?_, hmeaning⟩
  rw [Piece.quoted, stringText, htext]

/-! ## Trees

Between the items of a printed tree there are no blanks, so every document that comes up here is
padded with none.
-/

mutual

/-- **The compact text of a tree is a document** whose raw tree is the tree. -/
theorem exists_document : ∀ json : Json, ∃ d : Document,
    d.text = json.text ∧ d.tree? = some json ∧ d.depth = json.depth
  | null => ⟨.null, rfl, rfl, rfl⟩
  | bool flag => by
    refine ⟨.bool flag, ?_, rfl, rfl⟩
    cases flag <;> rfl
  | number n => by
    -- a number is spelled as it is printed
    obtain ⟨literal, htext, hnumber⟩ := exists_literal n
    refine ⟨.number literal, htext, ?_, rfl⟩
    rw [Document.tree?, hnumber]
    rfl
  | string text => by
    obtain ⟨pieces, htext, hmeaning⟩ := exists_quoted text
    refine ⟨.string pieces, htext, ?_, rfl⟩
    rw [Document.tree?, hmeaning]
    exact congrArg (fun text => some (Json.string text)) String.ofList_toList
  | array items => by
    obtain ⟨documents, htexts, htrees, hdepth⟩ := exists_items items
    -- no blanks anywhere, as the printer writes none
    refine ⟨.array .none documents, ?_, ?_, ?_⟩
    · rw [Document.text, Json.text, htexts]
      rfl
    · rw [Document.tree?, htrees]
      rfl
    · rw [Document.depth, Json.depth, hdepth]
  | object members => by
    obtain ⟨documents, htexts, htrees, hdepth⟩ := exists_members members
    refine ⟨.object .none documents, ?_, ?_, ?_⟩
    · rw [Document.text, Json.text, htexts]
      rfl
    · rw [Document.tree?, htrees]
      rfl
    · rw [Document.depth, Json.depth, hdepth]

theorem exists_items : ∀ items : List Json, ∃ documents : List (Padded Document),
    Document.itemTexts documents = itemTexts items ∧
      Document.itemTrees? documents = some items ∧
      Document.depthOfItems documents = depthOfItems items
  | [] => ⟨[], rfl, rfl, rfl⟩
  | item :: rest => by
    obtain ⟨d, htext, htree, hdepth⟩ := exists_document item
    obtain ⟨documents, htexts, htrees, hdepths⟩ := exists_items rest
    refine ⟨⟨.none, d, .none⟩ :: documents, ?_, ?_, ?_⟩
    · rw [Document.itemTexts, itemTexts, htexts, ← htext]
      exact congrArg (· :: _) (List.append_nil d.text)
    · rw [Document.itemTrees?, htree, htrees]
      rfl
    · rw [Document.depthOfItems, depthOfItems, hdepth, hdepths]

theorem exists_members : ∀ members : List (String × Json),
    ∃ documents : List (Padded (List Piece) × Padded Document),
      Document.memberTexts documents = memberTexts members ∧
        Document.memberTrees? documents = some members ∧
        Document.depthOfMembers documents = depthOfMembers members
  | [] => ⟨[], rfl, rfl, rfl⟩
  | (key, item) :: rest => by
    obtain ⟨pieces, hquoted, hmeaning⟩ := exists_quoted key
    obtain ⟨d, htext, htree, hdepth⟩ := exists_document item
    obtain ⟨documents, htexts, htrees, hdepths⟩ := exists_members rest
    refine ⟨(⟨.none, pieces, .none⟩, ⟨.none, d, .none⟩) :: documents, ?_, ?_, ?_⟩
    · -- without blanks a member is its key, a colon and its item
      have hmember : Blanks.none.chars ++ Piece.quoted pieces ++ Blanks.none.chars ++ ':' ::
          (Blanks.none.chars ++ d.text ++ Blanks.none.chars) = memberText key item.text := by
        rw [memberText, ← hquoted, ← htext]
        simp [Blanks.none]
      rw [Document.memberTexts, memberTexts, htexts, hmember]
    · rw [Document.memberTrees?, hmeaning, htree, htrees, Option.bind_some, Option.bind_some,
        String.ofList_toList]
      rfl
    · rw [Document.depthOfMembers, depthOfMembers, hdepth, hdepths]

end

end StepRelay.Json
