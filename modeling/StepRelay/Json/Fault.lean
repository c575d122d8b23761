import StepRelay.Double.Layout
import StepRelay.Text.Quoted
import StepRelay.Time.Timestamp

/-!
# What can be wrong with a JSON text

A `Mismatch` says that a piece of JSON is not what a reader of some type expects. A `Cause` is a
breach of the grammar or a mismatch. A `Fault` is a cause together with the rest of the text where
it arose, from which line and column are computed.
-/

namespace StepRelay.Json

/-- What a reader met. -/
inductive Unexpected where
  | null
  | bool (flag : Bool)
  | integer (n : Int)
  | wideInteger (n : Int) (typeName : String)
  | double (d : Double)
  | string (text : String)
  | bytes
  | sequence
  | mapping

/-- What was met, as messages call it. -/
def Unexpected.describe : Unexpected → String
  | null => "null"
  | bool flag => s!"boolean `{flag}`"
  | integer n => s!"integer `{n}`"
  | wideInteger n typeName => s!"integer `{n}` as {typeName}"
  | double d => "floating point `" ++ .ofList d.wireText ++ "`"
  | string text => "string " ++ Text.quoted text
  | bytes => "byte array"
  | sequence => "sequence"
  | mapping => "map"

/-- Why a piece of JSON is not of the type that a reader expects. -/
inductive Mismatch where
  | invalidType (got : Unexpected) (expected : String)
  | invalidValue (got : Unexpected) (expected : String)
  | invalidLength (length : Nat) (expected : String)
  | unknownVariant (name : String) (known : List String)
  | missingField (name : String)
  | duplicateField (name : String)
  | integerTooLarge (n : Int)
  | timestamp (fault : Timestamp.Fault)

/-- Names to choose from. -/
def alternatives : List String → String
  | [] => "there are no variants"
  | [a] => s!"expected `{a}`"
  | [a, b] => s!"expected `{a}` or `{b}`"
  | names => "expected one of " ++ ", ".intercalate (names.map fun name => s!"`{name}`")

/-- The message of a mismatch, without its place. -/
def Mismatch.message : Mismatch → String
  | invalidType got expected => s!"invalid type: {got.describe}, expected {expected}"
  | invalidValue got expected => s!"invalid value: {got.describe}, expected {expected}"
  | invalidLength length expected => s!"invalid length {length}, expected {expected}"
  | unknownVariant name known => s!"unknown variant `{name}`, {alternatives known}"
  | missingField name => s!"missing field `{name}`"
  | duplicateField name => s!"duplicate field `{name}`"
  | integerTooLarge n => s!"integer {n} does not fit in a signed 64-bit integer"
  | timestamp fault => fault.message

/-- Why a text cannot be read. -/
inductive Cause where
  | endInValue
  | endInList
  | endInObject
  | endInString
  | expectedColon
  | expectedListCommaOrEnd
  | expectedObjectCommaOrEnd
  | expectedIdent
  | expectedValue
  | invalidEscape
  | invalidNumber
  | numberOutOfRange
  | loneSurrogate
  | endOfHexEscape
  | controlCharacter
  | keyNotString
  | trailingComma
  | trailingCharacters
  | tooDeep
  | mismatch (mismatch : Mismatch)

/-- The message of a cause, without its place. -/
def Cause.message : Cause → String
  | endInValue => "EOF while parsing a value"
  | endInList => "EOF while parsing a list"
  | endInObject => "EOF while parsing an object"
  | endInString => "EOF while parsing a string"
  | expectedColon => "expected `:`"
  | expectedListCommaOrEnd => "expected `,` or `]`"
  | expectedObjectCommaOrEnd => "expected `,` or `\x7d`"
  | expectedIdent => "expected ident"
  | expectedValue => "expected value"
  | invalidEscape => "invalid escape"
  | invalidNumber => "invalid number"
  | numberOutOfRange => "number out of range"
  | loneSurrogate => "lone leading surrogate in hex escape"
  | endOfHexEscape => "unexpected end of hex escape"
  | controlCharacter => "control character (\\u0000-\\u001F) found while parsing a string"
  | keyNotString => "key must be a string"
  | trailingComma => "trailing comma"
  | trailingCharacters => "trailing characters"
  | tooDeep => "recursion limit exceeded"
  | mismatch m => m.message

/-- The three kinds of causes: the text ends too early, breaks the grammar, or says something of the
wrong type. -/
inductive Category where
  | eof
  | grammar
  | data
  deriving DecidableEq

/-- Which of the three kinds a cause is of. -/
def Cause.category : Cause → Category
  | endInValue | endInList | endInObject | endInString => .eof
  | mismatch _ => .data
  | _ => .grammar

/-- A cause, the rest of the text when it was noticed, and how many bytes of that rest belong to the
place of the fault. -/
structure Fault where
  cause : Cause
  rest : List Char
  ahead : Nat := 0

/-- A line, counted from one, and a number of bytes in it. -/
structure Position where
  line : Nat
  column : Nat
  deriving DecidableEq

/-- The position behind `bytes` more bytes of a text; past the end of the text it is the end. A line
feed belongs to the line before it and begins the next one. -/
def Position.advance : Nat → List Char → Position → Position
  | _, [], p => p
  | bytes, c :: rest, p =>
    if bytes = 0 then p
    else if bytes < c.utf8Size then ⟨p.line, p.column + bytes⟩
    else if c = '\n' then advance (bytes - c.utf8Size) rest ⟨p.line + 1, 0⟩
    else advance (bytes - c.utf8Size) rest ⟨p.line, p.column + c.utf8Size⟩

/-- How many bytes a text has. -/
def byteCount (text : List Char) : Nat := text.foldr (fun c bytes => c.utf8Size + bytes) 0

/-- Where in `text` a fault lies. -/
def Fault.position (fault : Fault) (text : List Char) : Position :=
  Position.advance (byteCount text - byteCount fault.rest + fault.ahead) text ⟨1, 0⟩

/-- The message of a fault in `text`, with its position. -/
def Fault.describe (fault : Fault) (text : List Char) : String :=
  let position := fault.position text
  s!"{fault.cause.message} at line {position.line} column {position.column}"

end StepRelay.Json
