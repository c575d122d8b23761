import StepRelay.Yaml.Scalar

/-!
# Tokens

The indicators and scalars of a document in order, with the beginnings and ends of block
collections, which only indentation shows. The colon of an entry may come long after its key has
begun: whatever may be a key is remembered as a `Candidate`, and the tokens of the entry go in front
of it once the colon is met. Directives, tags, anchors and aliases are refused.
-/

namespace StepRelay.Yaml

structure Scalar where
  /-- Whether it is written without quotes and not as a block. -/
  isPlain : Bool
  text : String
  deriving DecidableEq

/-- What a text is made of: indicators, scalars, and where collections begin and end. -/
inductive Token where
  | documentStart
  | documentEnd
  | blockSequence
  | blockMapping
  | blockEnd
  | flowSequence
  | flowSequenceEnd
  | flowMapping
  | flowMappingEnd
  | separator
  | item
  | key
  | value
  | scalar (scalar : Scalar)
  deriving DecidableEq

/-- A place where the key of an entry may have begun. -/
structure Candidate where
  /-- How many tokens stand before it. -/
  position : Nat
  start : Glyph
  /-- Whether nothing but a key may stand there. -/
  isRequired : Bool

/-- A key ends on its line and within 1024 characters. -/
def Candidate.isExpired (candidate : Candidate) (now : Glyph) : Bool :=
  candidate.start.line < now.line || candidate.start.index + 1024 < now.index

/-- What has been made of the text so far. -/
structure Lexer where
  tokens : Array Token := #[]
  /-- The columns of the open block collections, innermost first. -/
  indents : List Nat := []
  /-- The candidate in the innermost flow collection, or outside of all. -/
  candidate : Option Candidate := none
  /-- The candidates around each open flow collection, innermost first. -/
  outer : List (Option Candidate) := []
  /-- Whether a key may begin here. -/
  keyAllowed : Bool := true

namespace Lexer

/-- Whether a flow collection is open. -/
def inFlow (lexer : Lexer) : Bool := !lexer.outer.isEmpty

def emit (lexer : Lexer) (token : Token) : Lexer :=
  { lexer with tokens := lexer.tokens.push token }

def allowKey (lexer : Lexer) (keyAllowed : Bool) : Lexer := { lexer with keyAllowed }

/-! ### Candidates

At most one candidate is kept for each flow collection that is open, and one outside of them. It is
given up as soon as no colon can make a key of it any more.
-/

/-- Gives the candidate up, unless it has to be a key. -/
def dropCandidate (lexer : Lexer) : Option Lexer :=
  if lexer.candidate.any Candidate.isRequired then none else some { lexer with candidate := none }

/-- Makes the next token a candidate, if a key may begin here. -/
def markCandidate (lexer : Lexer) (start : Glyph) : Option Lexer :=
  if lexer.keyAllowed then do
    let lexer ← lexer.dropCandidate
    let isRequired := !lexer.inFlow && lexer.indents.head? == some start.column
    return { lexer with candidate := some ⟨lexer.tokens.size, start, isRequired⟩ }
  else some lexer

/-- Gives up all candidates that can be no key any more. -/
def expire (lexer : Lexer) (now : Glyph) : Option Lexer := do
  let expire (candidate : Option Candidate) : Option (Option Candidate) :=
    match candidate with
    | none => some none
    | some c =>
      if ¬ c.isExpired now then some (some c) else if c.isRequired then none else some none
  return { lexer with candidate := ← expire lexer.candidate, outer := ← lexer.outer.mapM expire }

/-! ### Collections

A block collection lasts as long as its lines are indented; a flow collection has brackets. Within
brackets the indentation says nothing.
-/

/-- Opens a block collection at a column to the right of all open ones, in front of the token at
`position`. -/
def openBlock (lexer : Lexer) (token : Token) (column position : Nat) : Lexer :=
  if !lexer.inFlow && lexer.indents.head?.all (· < column) then
    { lexer with
      indents := column :: lexer.indents
      tokens := lexer.tokens.insertIdxIfInBounds position token }
  else lexer

/-- Closes the block collections to the right of a column, or all of them. -/
def closeBlocks (lexer : Lexer) (column : Option Nat) : Lexer :=
  if lexer.inFlow then lexer
  else
    let isClosed (indent : Nat) : Bool := column.all (· < indent)
    { lexer with
      indents := lexer.indents.dropWhile isClosed
      tokens := lexer.tokens ++ (lexer.indents.takeWhile isClosed).map fun _ => Token.blockEnd }

/-- Opens a flow collection, which may itself be a key. -/
def openFlow (lexer : Lexer) (token : Token) (start : Glyph) : Option Lexer := do
  let lexer ← lexer.markCandidate start
  let outer := lexer.candidate :: lexer.outer
  return { lexer with candidate := none, outer, keyAllowed := true }.emit token

/-- Closes the innermost flow collection, if one is open. -/
def closeFlow (lexer : Lexer) (token : Token) : Option Lexer := do
  let lexer ← lexer.dropCandidate
  let (candidate, outer) := match lexer.outer with
    | [] => (lexer.candidate, [])
    | candidate :: outer => (candidate, outer)
  return { lexer with candidate, outer, keyAllowed := false }.emit token

/-! ### Indicators

What each indicator does to the open collections and to the candidate, besides adding a token of its
own.
-/

/-- A marker between documents. -/
def marker (lexer : Lexer) (token : Token) : Option Lexer := do
  let lexer ← (lexer.closeBlocks none).dropCandidate
  return (lexer.allowKey false).emit token

/-- A comma. -/
def separator (lexer : Lexer) : Option Lexer := do
  return ((← lexer.dropCandidate).allowKey true).emit .separator

/-- Opens a block collection for an indicator in its first column, where a key may begin. -/
def openAt (lexer : Lexer) (token : Token) (column : Nat) : Option Lexer :=
  if lexer.inFlow then some lexer
  else if lexer.keyAllowed then some (lexer.openBlock token column lexer.tokens.size)
  else none

/-- A dash. -/
def item (lexer : Lexer) (start : Glyph) : Option Lexer := do
  let lexer ← lexer.openAt .blockSequence start.column
  return ((← lexer.dropCandidate).allowKey true).emit .item

/-- A question mark. -/
def key (lexer : Lexer) (start : Glyph) : Option Lexer := do
  let lexer ← lexer.openAt .blockMapping start.column
  return ((← lexer.dropCandidate).allowKey !lexer.inFlow).emit .key

/-- A colon: the candidate is a key, or an entry has none or one behind a question mark. -/
def value (lexer : Lexer) (start : Glyph) : Option Lexer := do
  match lexer.candidate with
  | some c =>
    -- the entry's mark goes in front of its key, and a new mapping in front of that
    let tokens := lexer.tokens.insertIdxIfInBounds c.position .key
    let lexer := { lexer with tokens, candidate := none, keyAllowed := false }
    return (lexer.openBlock .blockMapping c.start.column c.position).emit .value
  | none =>
    let lexer ← lexer.openAt .blockMapping start.column
    return (lexer.allowKey !lexer.inFlow).emit .value

/-- Adds a scalar whose text is read by `read`. -/
def scalar (lexer : Lexer) (isPlain : Bool) (read : Option (List Char × List Glyph)) :
    Option (Lexer × List Glyph) := do
  let (text, rest) ← read
  return (lexer.emit (.scalar ⟨isPlain, .ofList text⟩), rest)

/-! ### Tokens of a text

The first character decides what is added next, together with the one behind it where an indicator
may also begin a plain scalar.
-/

/-- The characters that indicate something and begin no plain scalar, apart from the exceptions in
`startsPlain`. -/
def indicators : List Char :=
  ['-', '?', ':', ',', '[', ']', '\x7b', '\x7d', '#', '&', '*', '!', '|', '>', '\'', '"', '%', '@',
    '\x60']

/-- Whether a plain scalar begins with the character before `text`. -/
def startsPlain (inFlow : Bool) (g : Glyph) (text : List Glyph) : Bool :=
  !(isGap g.char || indicators.contains g.char) ||
    (g.char == '-' && !text.head?.any fun g => isBlank g.char) ||
    (!inFlow && (g.char == '?' || g.char == ':') && !atGap text)

/-- Drops blanks, comments, ends of lines and a mark of the byte order at the beginning of a line. A
tab may not stand where a key may begin in a block. Tells whether a key may begin behind it all. -/
def skip (inFlow : Bool) : (keyAllowed inComment : Bool) → List Glyph → Bool × List Glyph
  | keyAllowed, _, [] => (keyAllowed, [])
  | keyAllowed, inComment, g :: text =>
    -- in a block every line may begin with a key
    if isBreak g.char then skip inFlow (keyAllowed || !inFlow) false text
    else if inComment || g.char == '#' then skip inFlow keyAllowed true text
    else if g.char == ' ' || (g.char == '\t' && (inFlow || !keyAllowed)) ||
        (g.char == orderMark && g.column == 0) then skip inFlow keyAllowed false text
    else (keyAllowed, g :: text)

/-- Adds the token that begins with `g` and goes on in `text`. -/
def add (lexer : Lexer) (g : Glyph) (text : List Glyph) : Option (Lexer × List Glyph) := do
  let c := g.char
  if isMarkerOf '-' (g :: text) then return (← lexer.marker .documentStart, text.drop 2)
  else if isMarkerOf '.' (g :: text) then return (← lexer.marker .documentEnd, text.drop 2)
  else if c = '[' then return (← lexer.openFlow .flowSequence g, text)
  else if c = '\x7b' then return (← lexer.openFlow .flowMapping g, text)
  else if c = ']' then return (← lexer.closeFlow .flowSequenceEnd, text)
  else if c = '\x7d' then return (← lexer.closeFlow .flowMappingEnd, text)
  else if c = ',' then return (← lexer.separator, text)
  else if c = '-' ∧ atGap text then return (← lexer.item g, text)
  else if c = '?' ∧ (lexer.inFlow ∨ atGap text) then return (← lexer.key g, text)
  else if c = ':' ∧ (lexer.inFlow ∨ atGap text) then return (← lexer.value g, text)
  else if (c = '|' ∨ c = '>') ∧ ¬ lexer.inFlow then
    let lexer := (← lexer.dropCandidate).allowKey true
    lexer.scalar false (readBlock (c = '>') lexer.indents.head? text)
  else if c = '\'' ∨ c = '"' then
    let lexer := (← lexer.markCandidate g).allowKey false
    lexer.scalar false (readQuoted c (text.length + 1) .none text)
  else if startsPlain lexer.inFlow g text then
    let lexer ← lexer.markCandidate g
    let (characters, isBroken, rest) ←
      readPlain lexer.inFlow (lexer.indents.head?.elim 0 (· + 1)) .none (g :: text)
    (lexer.allowKey isBroken).scalar true (some (characters, rest))
  else none

/-- Adds all tokens of a text. Each round takes a character, so `fuel` rounds are enough for a text
shorter than that. -/
def addAll : (fuel : Nat) → Lexer → List Glyph → Option Lexer
  | 0, _, _ => none
  | fuel + 1, lexer, text =>
    match skip lexer.inFlow lexer.keyAllowed false text with
    | (_, []) => (lexer.closeBlocks none).dropCandidate
    | (keyAllowed, g :: text) => do
      -- candidates expire before the token is looked at, which may be the colon of one
      let lexer ← (lexer.allowKey keyAllowed).expire g
      let (lexer, rest) ← (lexer.closeBlocks (some g.column)).add g text
      addAll fuel lexer rest

end Lexer

/-- The tokens of a text, if all its characters may stand in a document. -/
def tokens? (text : List Char) : Option (List Token) :=
  if text.all isAllowed then do
    let lexer ← Lexer.addAll (text.length + 1) {} (glyphs text)
    return lexer.tokens.toList
  else none

end StepRelay.Yaml
