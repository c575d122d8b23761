import StepRelay.Json.Reader

/-!
# The grammar of JSON texts

A `Document` is the syntax tree of a JSON text as RFC 8259 has it, blanks, escapes and the spelling
of numbers included, so that `Document.text` is the text itself and every text of the grammar is the
text of a document. The parts carry what the grammar asks of them: digits are digits, a string holds
no bare quote. Three things that the grammar permits have no meaning here, and `Document.tree?`
gives no tree for them: half of a surrogate pair, a number beyond the doubles, and an exponent
beyond `exponentLimit`.
-/

namespace StepRelay.Json

/-! ## Blanks and digits

What may be repeated at will: blanks between any two parts, and digits within a number.
-/

/-- A run of blanks. -/
structure Blanks where
  chars : List Char
  blank : ∀ c ∈ chars, isBlank c = true

/-- No blanks at all. -/
def Blanks.none : Blanks := ⟨[], by simp⟩

/-- Blanks and more blanks. -/
def Blanks.append (a b : Blanks) : Blanks where
  chars := a.chars ++ b.chars
  blank := fun c hc => (List.mem_append.1 hc).elim (a.blank c) (b.blank c)

/-- Something with blanks on both sides. -/
structure Padded (α : Type) where
  before : Blanks
  inner : α
  behind : Blanks

/-- One decimal digit at least. -/
structure Digits where
  chars : List Char
  nonempty : chars ≠ []
  digits : ∀ c ∈ chars, c.isDigit = true

/-- The number that the digits write in base ten. -/
def Digits.value (digits : Digits) : Nat := Nat.ofDigitChars 10 digits.chars 0

/-- Whether all digits are zeros, however many there are. -/
def Digits.isZero (digits : Digits) : Bool := digits.chars.all (· == '0')

/-! ## Numbers

A literal keeps its spelling, so that two spellings of one number are two literals. Whether it
denotes a number at all is asked afterwards, by `number?`.
-/

/-- An exponent with its mark and its sign, which is `some true` for a minus. -/
structure ExponentPart where
  capital : Bool
  sign : Option Bool
  digits : Digits

namespace ExponentPart

/-- The sign in front of an exponent's digits. -/
def signText (part : ExponentPart) : List Char :=
  match part.sign with
  | none => []
  | some false => ['+']
  | some true => ['-']

/-- The exponent as it is spelled. -/
def text (part : ExponentPart) : List Char :=
  (if part.capital then 'E' else 'e') :: (part.signText ++ part.digits.chars)

/-- Whether the exponent has a minus. -/
def negative (part : ExponentPart) : Bool := part.sign == some true

/-- The exponent with its sign. -/
def value (part : ExponentPart) : Int :=
  if part.negative then -(part.digits.value : Int) else part.digits.value

end ExponentPart

/-- A number as it is spelled: digits before the point do not begin with a zero, but for a zero
alone. -/
structure Literal where
  negative : Bool
  whole : Digits
  fraction : Option Digits
  exponent : Option ExponentPart
  leading : whole.chars = ['0'] ∨ whole.chars.head? ≠ some '0'

namespace Literal

/-- The point with the digits behind it, if there is one. -/
def fractionText (literal : Literal) : List Char :=
  match literal.fraction with
  | none => []
  | some digits => '.' :: digits.chars

/-- The exponent with its mark, if there is one. -/
def exponentText (literal : Literal) : List Char :=
  match literal.exponent with
  | none => []
  | some part => part.text

/-- The literal as it is spelled, from its sign to its exponent. -/
def text (literal : Literal) : List Char :=
  (if literal.negative then ['-'] else []) ++ literal.whole.chars ++ literal.fractionText ++
    literal.exponentText

/-- Whether all digits of a literal are zeros, whatever its exponent. -/
def isZero (literal : Literal) : Bool :=
  literal.whole.isZero && literal.fraction.all Digits.isZero

/-- The parts of a literal as the reader takes them. -/
def numeral (literal : Literal) : Numeral where
  negative := literal.negative
  whole := literal.whole.chars
  fraction := literal.fraction.map Digits.chars
  exponent := literal.exponent.map ExponentPart.value

/-- A positive exponent beyond the limit, on a number that is not zero. -/
def exceeds (literal : Literal) : Bool :=
  literal.exponent.any fun part =>
    exponentLimit < part.digits.value && !part.negative && !literal.isZero

/-- The number that a literal writes, if it is one. -/
def number? (literal : Literal) : Option Number :=
  if literal.exceeds then none else literal.numeral.number?

end Literal

/-! ## Strings

Between quotes stand pieces: plain characters, short escapes and escapes by number. A piece has no
meaning of its own where it is half of a surrogate pair, so `meaning?` goes over all of them.
-/

/-- The letters of the short escapes, with what they stand for. -/
def shortEscapes : List (Char × Char) :=
  [('"', '"'), ('\\', '\\'), ('/', '/'), ('b', '\x08'), ('f', '\x0c'), ('n', '\n'), ('r', '\r'),
    ('t', '\t')]

/-- Four hexadecimal digits and the number they write. -/
structure Hex where
  chars : List Char
  code : Nat
  spelled : ∃ a b c d, chars.mapM hexValue? = some [a, b, c, d] ∧
    code = ((a * 16 + b) * 16 + c) * 16 + d

/-- One item between the quotes of a string. -/
inductive Piece where
  | plain (c : Char) (allowed : c ≠ '"' ∧ c ≠ '\\' ∧ 0x20 ≤ c.toNat)
  | short (letter meaning : Char) (known : (letter, meaning) ∈ shortEscapes)
  | unit (hex : Hex)

namespace Piece

/-- A piece as it is spelled, its backslash included. -/
def text : Piece → List Char
  | plain c _ => [c]
  | short letter _ _ => ['\\', letter]
  | unit hex => '\\' :: 'u' :: hex.chars

/-- The characters that the pieces stand for. A high surrogate and the low one right behind it are
one character; half a pair is none. -/
def meaning? : List Piece → Option (List Char)
  | [] => some []
  | plain c _ :: rest => (meaning? rest).map (c :: ·)
  | short _ c _ :: rest => (meaning? rest).map (c :: ·)
  | unit hex :: rest =>
    if 0xDC00 ≤ hex.code ∧ hex.code ≤ 0xDFFF then none
    else if 0xD800 ≤ hex.code ∧ hex.code ≤ 0xDBFF then
      match rest with
      | unit low :: rest =>
        if 0xDC00 ≤ low.code ∧ low.code ≤ 0xDFFF then
          (meaning? rest).map
            (.ofNat (0x10000 + (hex.code - 0xD800) * 0x400 + (low.code - 0xDC00)) :: ·)
        else none
      | _ => none
    else (meaning? rest).map (.ofNat hex.code :: ·)

/-- The pieces between quotes. -/
def quoted (pieces : List Piece) : List Char := '"' :: (pieces.flatMap text ++ ['"'])

end Piece

/-! ## Documents

Blanks are part of a document wherever the grammar lets them stand, except around the whole. `text`
writes it and `tree?` says what it means; neither looks at the reader.
-/

/-- The syntax tree of a JSON text, with all blanks in it but those around the whole. -/
inductive Document where
  | null
  | bool (flag : Bool)
  | number (literal : Literal)
  | string (pieces : List Piece)
  | array (inside : Blanks) (items : List (Padded Document))
  | object (inside : Blanks) (members : List (Padded (List Piece) × Padded Document))

namespace Document

/-- The two words that are values. -/
def wordText (flag : Bool) : List Char :=
  if flag then ['t', 'r', 'u', 'e'] else ['f', 'a', 'l', 's', 'e']

mutual

/-- The text of a document. -/
def text : Document → List Char
  | null => ['n', 'u', 'l', 'l']
  | bool flag => wordText flag
  | number literal => literal.text
  | string pieces => Piece.quoted pieces
  | array inside items => '[' :: (inside.chars ++ [','].intercalate (itemTexts items) ++ [']'])
  | object inside members =>
    '\x7b' :: (inside.chars ++ [','].intercalate (memberTexts members) ++ ['\x7d'])

/-- The texts of items with their blanks, without the commas between them. -/
def itemTexts : List (Padded Document) → List (List Char)
  | [] => []
  | ⟨before, item, behind⟩ :: rest =>
    (before.chars ++ item.text ++ behind.chars) :: itemTexts rest

/-- The texts of members, each with its key and colon. -/
def memberTexts : List (Padded (List Piece) × Padded Document) → List (List Char)
  | [] => []
  | (key, ⟨before, item, behind⟩) :: rest =>
    (key.before.chars ++ Piece.quoted key.inner ++ key.behind.chars ++ ':' ::
      (before.chars ++ item.text ++ behind.chars)) :: memberTexts rest

end

mutual

/-- How many brackets enclose the innermost item: a scalar has depth zero, an empty array one. -/
def depth : Document → Nat
  | array _ items => depthOfItems items + 1
  | object _ members => depthOfMembers members + 1
  | _ => 0

/-- The depth of the deepest item. -/
def depthOfItems : List (Padded Document) → Nat
  | [] => 0
  | ⟨_, item, _⟩ :: rest => max item.depth (depthOfItems rest)

/-- The depth of the deepest member. -/
def depthOfMembers : List (Padded (List Piece) × Padded Document) → Nat
  | [] => 0
  | (_, ⟨_, item, _⟩) :: rest => max item.depth (depthOfMembers rest)

end

mutual

/-- The raw tree of a document, if all its strings and numbers have a meaning. -/
def tree? : Document → Option Json
  | null => some .null
  | bool flag => some (.bool flag)
  | number literal => literal.number?.map .number
  | string pieces => (Piece.meaning? pieces).map fun chars => .string (.ofList chars)
  | array _ items => (itemTrees? items).map .array
  | object _ members => (memberTrees? members).map .object

/-- The raw trees of items. -/
def itemTrees? : List (Padded Document) → Option (List Json)
  | [] => some []
  | ⟨_, item, _⟩ :: rest => item.tree?.bind fun first => (itemTrees? rest).map (first :: ·)

/-- The raw trees of members under the meanings of their keys. -/
def memberTrees? :
    List (Padded (List Piece) × Padded Document) → Option (List (String × Json))
  | [] => some []
  | (key, ⟨_, item, _⟩) :: rest =>
    (Piece.meaning? key.inner).bind fun name =>
      item.tree?.bind fun first => (memberTrees? rest).map ((.ofList name, first) :: ·)

end

end Document

end StepRelay.Json
