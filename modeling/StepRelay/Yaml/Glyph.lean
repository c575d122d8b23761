/-!
# Characters of a document and their places

Layout matters in YAML, so a document is read as a list of characters that know their line and
column.
-/

namespace StepRelay.Yaml

/-- A character and its place: how many characters stand before it, its line and its column, each
counted from zero. -/
structure Glyph where
  char : Char
  index : Nat
  line : Nat
  column : Nat

/-- The characters that may stand in a document. -/
def isAllowed (c : Char) : Bool :=
  c = '\t' || c = '\n' || c = '\r' || (' ' ≤ c && c ≤ '~') || c = '\u0085' ||
    ('\u00A0' ≤ c && c ≠ '\uFFFE' && c ≠ '\uFFFF')

/-- The mark of the byte order, which may begin a line. -/
def orderMark : Char := '\uFEFF'

def isBlank (c : Char) : Bool := c = ' ' || c = '\t'

/-- The characters that end a line. -/
def isBreak (c : Char) : Bool :=
  c = '\n' || c = '\r' || c = '\u0085' || c = '\u2028' || c = '\u2029'

/-- Blanks and breaks part words. -/
def isGap (c : Char) : Bool := isBlank c || isBreak c

/-- The characters of a text in their places. A return, a return with a line feed, and a next-line
character are each one line feed. -/
def glyphsFrom (index line column : Nat) : List Char → List Glyph
  | [] => []
  | '\r' :: '\n' :: text => ⟨'\n', index, line, column⟩ :: glyphsFrom (index + 2) (line + 1) 0 text
  | c :: text =>
    if isBreak c then
      let c := if c = '\r' ∨ c = '\u0085' then '\n' else c
      ⟨c, index, line, column⟩ :: glyphsFrom (index + 1) (line + 1) 0 text
    else ⟨c, index, line, column⟩ :: glyphsFrom (index + 1) line (column + 1) text

def glyphs (text : List Char) : List Glyph := glyphsFrom 0 0 0 text

/-- Whether a word ends here: at a gap or at the end. -/
def atGap (text : List Glyph) : Bool := text.head?.all fun g => isGap g.char

/-- Whether the first character is one of the given ones. -/
def startsWith (text : List Glyph) (chars : List Char) : Bool :=
  text.head?.any fun g => chars.contains g.char

/-- Whether three times `c` stand alone at the beginning of a line. -/
def isMarkerOf (c : Char) (text : List Glyph) : Bool :=
  text.head?.any (·.column == 0) && (text.take 3).map Glyph.char == [c, c, c] && atGap (text.drop 3)

/-- Whether a marker of documents stands here. -/
def isMarker (text : List Glyph) : Bool := isMarkerOf '-' text || isMarkerOf '.' text

/-- Drops characters up to the end of the line. -/
def toLineEnd (text : List Glyph) : List Glyph := text.dropWhile fun g => !isBreak g.char

end StepRelay.Yaml
