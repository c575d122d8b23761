import StepRelay.Json.Basic
import StepRelay.Json.Fault

/-!
# Reading the scalars of a JSON text

A `Reader` takes what it reads off the front of a text and returns the rest. Words, numbers and
strings are read here; `Json/Reader.lean` builds arrays, objects and whole values on them.
-/

namespace StepRelay.Json

/-- Reads something off the front of a text and returns the rest. -/
abbrev Reader (α : Type) := List Char → Except Fault (α × List Char)

/-- A fault at the first character of `rest`, which is part of its place. -/
def faultAt {α : Type} (cause : Cause) (rest : List Char) : Except Fault α :=
  .error { cause, rest, ahead := 1 }

/-- A fault in front of `rest`. -/
def faultBefore {α : Type} (cause : Cause) (rest : List Char) : Except Fault α :=
  .error { cause, rest, ahead := 0 }

/-- The blanks of the grammar. -/
def isBlank (c : Char) : Bool := c == ' ' || c == '\n' || c == '\t' || c == '\r'

def skipBlanks (text : List Char) : List Char := text.dropWhile isBlank

/-! ### Words

A word is recognized by its first letter, so only the others are left to be read.
-/

/-- Takes the characters of `word` off the text. -/
def readWord : List Char → List Char → Except Fault (List Char)
  | [], text => .ok text
  | _ :: _, [] => faultBefore .endInValue []
  | w :: word, c :: text =>
    if c = w then readWord word text else faultAt .expectedIdent (c :: text)

/-! ### Numbers

A number is first taken apart into its digits and only then given a value, since whether it is an
integer shows at its end.
-/

/-- The parts of a written number. -/
structure Numeral where
  negative : Bool
  whole : List Char
  fraction : Option (List Char)
  exponent : Option Int

/-- The digits at the front of a text, and the rest. -/
def spanDigits (text : List Char) : List Char × List Char :=
  (text.takeWhile Char.isDigit, text.dropWhile Char.isDigit)

/-- Whole digits: a single zero, or digits that do not begin with zero. -/
def readWhole : Reader (List Char)
  | [] => faultBefore .endInValue []
  | c :: text =>
    if c = '0' then
      if (text.head?.any Char.isDigit) then faultAt .invalidNumber text else .ok (['0'], text)
    else if c.isDigit then .ok (spanDigits (c :: text))
    else faultAt .invalidNumber (c :: text)

/-- A point and at least one digit, if the text goes on with a point. -/
def readFraction : Reader (Option (List Char))
  | '.' :: text =>
    match spanDigits text with
    | ([], []) => faultBefore .endInValue []
    | ([], rest) => faultAt .invalidNumber rest
    | (digits, rest) => .ok (some digits, rest)
  | text => .ok (none, text)

/-- The largest exponent that is read digit by digit to its end. -/
def exponentLimit : Nat := Nat.pow 2 31 - 1

/-- The text behind the first digits that make a number beyond the limit. -/
def afterLimit (value : Nat) : List Char → List Char
  | [] => []
  | c :: text =>
    let value := 10 * value + (c.toNat - 48)
    if exponentLimit < value then text else afterLimit value text

/-- An exponent, if the text goes on with one. A positive exponent beyond the limit is out of range
at the digit that takes it there, unless all digits of the number are zero. -/
def readExponent (isZero : Bool) : Reader (Option Int)
  | [] => .ok (none, [])
  | e :: text =>
    if e = 'e' ∨ e = 'E' then
      let (negative, text) := match text with
        | '+' :: rest => (false, rest)
        | '-' :: rest => (true, rest)
        | _ => (false, text)
      match spanDigits text with
      | ([], []) => faultBefore .endInValue []
      | ([], rest) => faultAt .invalidNumber rest
      | (digits, rest) =>
        let value := Nat.ofDigitChars 10 digits 0
        if exponentLimit < value ∧ ¬ negative ∧ ¬ isZero then
          faultBefore .numberOutOfRange (afterLimit 0 text)
        else .ok (some (if negative then -(value : Int) else value), rest)
    else .ok (none, e :: text)

/-- The parts of the number at the front of a text. -/
def readNumeral (text : List Char) : Except Fault (Numeral × List Char) := do
  let (negative, text) := match text with
    | '-' :: rest => (true, rest)
    | _ => (false, text)
  let (whole, text) ← readWhole text
  let (fraction, text) ← readFraction text
  let isZero := whole.all (· == '0') && (fraction.getD []).all (· == '0')
  let (exponent, text) ← readExponent isZero text
  return (⟨negative, whole, fraction, exponent⟩, text)

/-- The decimal number that a numeral writes. -/
def Numeral.decimal (n : Numeral) : Decimal where
  negative := n.negative
  coefficient := Nat.ofDigitChars 10 (n.whole ++ n.fraction.getD []) 0
  exponent := n.exponent.getD 0 - (n.fraction.getD []).length

/-- The integer that a numeral writes, if it has neither fraction nor exponent. Minus zero is
none. -/
def Numeral.integer? (n : Numeral) : Option Int :=
  if n.fraction = none ∧ n.exponent = none then
    let value := Nat.ofDigitChars 10 n.whole 0
    if n.negative then (if value = 0 then none else some (-(value : Int))) else some value
  else none

/-- The number that a numeral writes: an integer if it is one and fits, else the nearest double, if
that is finite. -/
def Numeral.number? (n : Numeral) : Option Number :=
  match n.integer?.bind Number.ofInt? with
  | some n => some n
  | none => Number.ofDouble? n.decimal.toDouble

/-- The number at the front of a text. -/
def readNumber (text : List Char) : Except Fault (Number × List Char) := do
  let (numeral, rest) ← readNumeral text
  match numeral.number? with
  | some n => return (n, rest)
  | none => faultBefore .numberOutOfRange rest

/-! ### Strings

A string is read character by character. An escape may need the one behind it to form a character.
-/

/-- The value of a hexadecimal digit. -/
def hexValue? (c : Char) : Option Nat :=
  if c.isDigit then some (c.toNat - 48)
  else if 'a' ≤ c ∧ c ≤ 'f' then some (c.toNat - 87)
  else if 'A' ≤ c ∧ c ≤ 'F' then some (c.toNat - 55)
  else none

/-- Four hexadecimal digits. With fewer than four bytes left the string ends too early, whatever
they are; else a wrong digit is noticed behind all four. -/
def readHex (text : List Char) : Except Fault (Nat × List Char) :=
  match text.take 4 |>.mapM hexValue? with
  | some [a, b, c, d] => .ok (((a * 16 + b) * 16 + c) * 16 + d, text.drop 4)
  | _ =>
    if byteCount (text.take 4) < 4 then faultBefore .endInString []
    else .error { cause := .invalidEscape, rest := text, ahead := 4 }

/-- Takes the given character off the text: the next one of a surrogate pair's second escape. -/
def readPairChar (expected : Char) : List Char → Except Fault (List Char)
  | [] => faultBefore .endInString []
  | c :: text => if c = expected then .ok text else faultAt .endOfHexEscape (c :: text)

/-- The character of a `\u` escape: one number, or two that are a surrogate pair. -/
def readUnicode (text : List Char) : Except Fault (Char × List Char) := do
  let (high, text) ← readHex text
  if 0xDC00 ≤ high ∧ high ≤ 0xDFFF then faultBefore .loneSurrogate text
  else if 0xD800 ≤ high ∧ high ≤ 0xDBFF then
    let text ← readPairChar '\\' text
    let text ← readPairChar 'u' text
    let (low, text) ← readHex text
    if 0xDC00 ≤ low ∧ low ≤ 0xDFFF then
      return (.ofNat (0x10000 + (high - 0xD800) * 0x400 + (low - 0xDC00)), text)
    else faultBefore .loneSurrogate text
  else return (.ofNat high, text)

/-- The character that an escape stands for, and the text behind it. -/
def readEscape : Reader Char
  | [] => faultBefore .endInString []
  | c :: text =>
    if c = '"' ∨ c = '\\' ∨ c = '/' then .ok (c, text)
    else if c = 'b' then .ok ('\x08', text)
    else if c = 'f' then .ok ('\x0c', text)
    else if c = 'n' then .ok ('\n', text)
    else if c = 'r' then .ok ('\r', text)
    else if c = 't' then .ok ('\t', text)
    else if c = 'u' then readUnicode text
    else faultAt .invalidEscape (c :: text)

/-- The characters up to the closing quote. Every round takes at least one character off the text,
so `fuel` rounds are enough for a text shorter than that. -/
def readStringBody : Nat → Reader (List Char)
  | 0, _ => faultBefore .endInString []
  | _ + 1, [] => faultBefore .endInString []
  | fuel + 1, c :: text =>
    if c = '"' then .ok ([], text)
    else if c = '\\' then do
      let (c, text) ← readEscape text
      let (rest, text) ← readStringBody fuel text
      return (c :: rest, text)
    else if c.toNat < 0x20 then faultAt .controlCharacter (c :: text)
    else do
      let (rest, text) ← readStringBody fuel text
      return (c :: rest, text)

/-- The string whose opening quote has been taken. -/
def readString (text : List Char) : Except Fault (String × List Char) := do
  let (characters, rest) ← readStringBody (text.length + 1) text
  return (.ofList characters, rest)

end StepRelay.Json
