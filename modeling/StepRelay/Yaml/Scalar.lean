import StepRelay.Json.Scalar
import StepRelay.Yaml.Glyph

/-!
# Scalars

A scalar is written plain, in quotes or as a block of lines. Where a line of a plain or quoted
scalar ends, a `Gap` says what becomes of the break and of the blanks around it.
-/

namespace StepRelay.Yaml

/-! ### Gaps

Breaks are folded: one of them is a space, and of several the first is dropped. Blanks count only
within a line.
-/

/-- Blanks and breaks between two words of a scalar. -/
inductive Gap where
  /-- Blanks within a line. -/
  | within (blanks : List Char)
  /-- A break and the breaks behind it; all blanks are indentation. -/
  | between (first : Char) (more : List Char)
  /-- An escaped break, which joins two lines, and the breaks behind it. -/
  | joined (more : List Char)

namespace Gap

def none : Gap := within []

/-- Goes on with a blank or a break. -/
def push (c : Char) : Gap → Gap
  | within blanks => if isBreak c then between c [] else within (blanks ++ [c])
  | between first more => if isBreak c then between first (more ++ [c]) else between first more
  | joined more => if isBreak c then joined (more ++ [c]) else joined more

def isNone : Gap → Bool
  | within [] => true
  | _ => false

/-- Whether a line has ended. -/
def isBroken : Gap → Bool
  | within _ => false
  | _ => true

/-- What a gap contributes to the scalar: a lone line feed is a space, and of several the first is
dropped. -/
def text : Gap → List Char
  | within blanks => blanks
  | between first more =>
    if first = '\n' then (if more = [] then [' '] else more) else first :: more
  | joined more => more

end Gap

/-! ### Plain scalars

A plain scalar ends where something stands that has a meaning of its own, which is more within
brackets than outside of them.
-/

/-- Reads a plain scalar from a place inside a word or a gap. Lines that go on with it are indented
by `indent` at least, unless a flow collection is open. Also tells whether a line has ended behind
it. -/
def readPlain (inFlow : Bool) (indent : Nat) :
    Gap → List Glyph → Option (List Char × Bool × List Glyph)
  | gap, [] => some ([], gap.isBroken, [])
  | gap, g :: text =>
    let stop := some ([], gap.isBroken, g :: text)
    if isGap g.char then
      -- indentation consists of spaces
      if g.char = '\t' ∧ gap.isBroken ∧ g.column < indent then none
      else readPlain inFlow indent (gap.push g.char) text
    else if ¬ gap.isNone ∧
        ((¬ inFlow ∧ g.column < indent) ∨ isMarker (g :: text) ∨ g.char = '#') then stop
    else if inFlow ∧ g.char = ':' ∧ startsWith text [',', '?', '[', ']', '\x7b', '\x7d'] then none
    else if g.char = ':' ∧ atGap text then stop
    else if inFlow ∧ [',', '[', ']', '\x7b', '\x7d'].contains g.char then stop
    else do
      let (more, rest) ← readPlain inFlow indent .none text
      return (gap.text ++ g.char :: more, rest)

/-! ### Quoted scalars

Between single quotes only the quote is written twice; between double quotes a backslash begins an
escape.
-/

/-- What a letter stands for behind a backslash. -/
def escapes : List (Char × Char) := [
  ('0', '\x00'), ('a', '\x07'), ('b', '\x08'), ('t', '\t'), ('\t', '\t'), ('n', '\n'),
  ('v', '\x0b'), ('f', '\x0c'), ('r', '\r'), ('e', '\x1b'), (' ', ' '), ('"', '"'), ('/', '/'),
  ('\\', '\\'), ('N', '\u0085'), ('_', '\u00A0'), ('L', '\u2028'), ('P', '\u2029')]

/-- How many hexadecimal digits follow a letter behind a backslash. -/
def escapeDigits : List (Char × Nat) := [('x', 2), ('u', 4), ('U', 8)]

/-- The character of an escape whose backslash has been taken. -/
def readEscape : List Glyph → Option (Char × List Glyph)
  | [] => none
  | g :: text =>
    match escapes.lookup g.char with
    | some c => some (c, text)
    | none => do
      let count ← escapeDigits.lookup g.char
      let digits ← (text.take count).mapM fun g => Json.hexValue? g.char
      let code := digits.foldl (fun n d => 16 * n + d) 0
      if digits.length = count ∧ code.isValidChar then some (.ofNat code, text.drop count) else none

/-- Reads a quoted scalar from behind its opening quote. Each round takes a character, so `fuel`
rounds are enough for a text shorter than that. -/
def readQuoted (quote : Char) : (fuel : Nat) → Gap → List Glyph → Option (List Char × List Glyph)
  | 0, _, _ | _ + 1, _, [] => none
  | fuel + 1, gap, g :: text =>
    let goOn (c : Char) (text : List Glyph) : Option (List Char × List Glyph) := do
      let (more, rest) ← readQuoted quote fuel .none text
      return (gap.text ++ c :: more, rest)
    if isGap g.char then readQuoted quote fuel (gap.push g.char) text
    else if isMarker (g :: text) then none
    else if g.char = quote then
      if quote = '\'' ∧ startsWith text [quote] then goOn quote (text.drop 1)
      else some (gap.text, text)
    else if quote = '"' ∧ g.char = '\\' then
      -- an escaped break joins two lines without a space
      if text.head?.any (fun g => isBreak g.char) then do
        let (more, rest) ← readQuoted quote fuel (.joined []) (text.drop 1)
        return (gap.text ++ more, rest)
      else do
        let (c, rest) ← readEscape text
        goOn c rest
    else goOn g.char text

/-! ### Block scalars

A block keeps its lines. Its head may say how far it is indented and what becomes of the breaks at
its end; without that, its first line decides.
-/

/-- What becomes of the breaks at the end of a block. -/
inductive Chomping where
  | strip
  | clip
  | keep
  deriving DecidableEq

/-- The head of a block scalar: its chomping, and its indentation if that is given. -/
structure BlockHead where
  chomping : Chomping := .clip
  indent : Option Nat := none

/-- Reads the marks of a block's head, one of each kind at most. -/
def BlockHead.read (head : BlockHead) : (marks : Nat) → List Glyph → Option (BlockHead × List Glyph)
  | 0, text | _, text@([]) => some (head, text)
  | marks + 1, g :: text =>
    if (g.char = '+' ∨ g.char = '-') ∧ head.chomping = .clip then
      read { head with chomping := if g.char = '+' then .keep else .strip } marks text
    else if g.char.isDigit ∧ head.indent = none then
      if g.char = '0' then none
      else read { head with indent := some (g.char.toNat - 48) } marks text
    else some (head, g :: text)

/-- Drops the rest of a block's head line, which may hold a comment and nothing else. -/
def endHead (text : List Glyph) : Option (List Glyph) :=
  let text := text.dropWhile fun g => isBlank g.char
  let text := if startsWith text ['#'] then toLineEnd text else text
  match text with
  | [] => some []
  | g :: rest => if isBreak g.char then some rest else none

/-- Takes the indentation of a block's next line, and the empty lines before it. Gives their breaks
and the widest indentation among them. -/
def readIndentation (indent : Option Nat) :
    (widest : Nat) → List Glyph → Option (List Char × Nat × List Glyph)
  | widest, [] => some ([], widest, [])
  | widest, g :: text =>
    let inside := indent.all (g.column < ·)
    if g.char = ' ' ∧ inside then readIndentation indent (max widest (g.column + 1)) text
    else if g.char = '\t' ∧ inside then none
    else if isBreak g.char then do
      let (breaks, rest) ← readIndentation indent widest text
      return (g.char :: breaks, rest)
    else some ([], widest, g :: text)

/-- Reads the lines of a block. `last` is the break of the line before, `breaks` are those of the
empty lines behind that; `spaced` tells whether that line began with a blank. Each round takes a
line. -/
def readLines (folded : Bool) (chomping : Chomping) (indent : Nat) :
    (fuel : Nat) → (last breaks : List Char) → (spaced : Bool) → List Glyph →
      Option (List Char × List Glyph)
  | 0, _, _, _, _ => none
  | fuel + 1, last, breaks, spaced, text =>
    if text.head?.any (·.column == indent) then do
      let nowSpaced := text.head?.any fun g => isBlank g.char
      let line := (text.takeWhile fun g => !isBreak g.char).map Glyph.char
      let text := toLineEnd text
      -- folding leaves the lines alone that are indented further
      let between :=
        if folded ∧ last = ['\n'] ∧ ¬ spaced ∧ ¬ nowSpaced then
          if breaks = [] then [' '] else breaks
        else last ++ breaks
      let (breaks, _, rest) ← readIndentation (some indent) 0 (text.drop 1)
      let (more, rest) ←
        readLines folded chomping indent fuel ((text.take 1).map Glyph.char) breaks nowSpaced rest
      return (between ++ line ++ more, rest)
    else
      let tail := match chomping with
        | .strip => []
        | .clip => last
        | .keep => last ++ breaks
      some (tail, text)

/-- Reads a block scalar from behind its indicator. Its lines stand to the right of `outer`, the
column of the collection around it. -/
def readBlock (folded : Bool) (outer : Option Nat) (text : List Glyph) :
    Option (List Char × List Glyph) := do
  let (head, text) ← BlockHead.read {} 2 text
  let text ← endHead text
  let given := head.indent.map (outer.getD 0 + ·)
  let (breaks, widest, text) ← readIndentation given 0 text
  let indent := given.getD (max widest (outer.elim 1 (· + 1)))
  readLines folded head.chomping indent (text.length + 1) [] breaks false text

end StepRelay.Yaml
