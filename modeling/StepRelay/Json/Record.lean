import StepRelay.Json.Skip

/-!
# Reading typed data

Readers for the types of wire fields, and `Record`, which reads an object by field names or an array
by field positions. A record is read into a partial state; a field that occurs twice is noticed
before its second value is read, an unknown field is skipped, and a missing one is noticed at the
end.
-/

namespace StepRelay.Json

def Unexpected.ofNumber : Number → Unexpected
  | .integer n _ => .integer n
  | .double d _ => .double d

/-- Reads what stands at the front of a text only to say that something else was expected. -/
def refuse {α : Type} (expected : String) (text : List Char) : Except Fault α :=
  let wrong (got : Unexpected) (rest : List Char) : Except Fault α :=
    faultBefore (.mismatch (.invalidType got expected)) rest
  match skipBlanks text with
  | [] => faultAt .endInValue []
  | c :: rest =>
    if c = 'n' then do wrong .null (← readWord ['u', 'l', 'l'] rest)
    else if c = 't' then do wrong (.bool true) (← readWord ['r', 'u', 'e'] rest)
    else if c = 'f' then do wrong (.bool false) (← readWord ['a', 'l', 's', 'e'] rest)
    else if c = '-' ∨ c.isDigit then do
      let (n, rest) ← readNumber (c :: rest)
      wrong (.ofNumber n) rest
    else if c = '"' then do
      let (text, rest) ← readString rest
      wrong (.string text) rest
    else if c = '[' then wrong .sequence (c :: rest)
    else if c = '\x7b' then wrong .mapping (c :: rest)
    else faultAt .expectedValue (c :: rest)

/-- A string; `expected` names what it stands for. -/
def readText (expected : String) (text : List Char) : Except Fault (String × List Char) :=
  match skipBlanks text with
  | '"' :: rest => readString rest
  | text => refuse expected text

def readBool (text : List Char) : Except Fault (Bool × List Char) :=
  match skipBlanks text with
  | 't' :: rest => do return (true, ← readWord ['r', 'u', 'e'] rest)
  | 'f' :: rest => do return (false, ← readWord ['a', 'l', 's', 'e'] rest)
  | text => refuse "a boolean" text

/-- The natural of a number, or why it is none. -/
def naturalOf (typeName : String) : Number → Except Mismatch Nat
  | .integer n _ => if 0 ≤ n then .ok n.toNat else .error (.invalidValue (.integer n) typeName)
  | .double d _ => .error (.invalidType (.double d) typeName)

/-- A natural below `2 ^ 64`; `typeName` is the name of its type in messages. -/
def readNatural (typeName : String) (text : List Char) : Except Fault (Nat × List Char) :=
  match skipBlanks text with
  | [] => refuse typeName []
  | c :: rest =>
    if c = '-' ∨ c.isDigit then do
      let (n, rest) ← readNumber (c :: rest)
      match naturalOf typeName n with
      | .ok n => return (n, rest)
      | .error mismatch => faultBefore (.mismatch mismatch) rest
    else refuse typeName (c :: rest)

/-- The choice of that name among named choices. -/
def choice {α : Type} (name : α → String) (choices : List α) (text : String) : Except Mismatch α :=
  match choices.find? fun a => name a == text with
  | some a => .ok a
  | none => .error (.unknownVariant text (choices.map name))

/-- The name of one of the choices. -/
def readName {α : Type} (name : α → String) (choices : List α) (text : List Char) :
    Except Fault (α × List Char) := do
  let (text, rest) ← readText "variant identifier" text
  match choice name choices text with
  | .ok a => return (a, rest)
  | .error mismatch => faultBefore (.mismatch mismatch) rest

/-- One of some choices without content: its name, or an object whose only key is the name and whose
value is null. -/
def readChoice {α : Type} (name : α → String) (choices : List α) (text : List Char) :
    Except Fault (α × List Char) :=
  match skipBlanks text with
  | [] => faultAt .endInValue []
  | c :: rest =>
    if c = '"' then readName name choices (c :: rest)
    else if c = '\x7b' then do
      let (a, rest) ← readName name choices rest
      let rest ← readColon rest
      let rest ← match skipBlanks rest with
        | 'n' :: rest => readWord ['u', 'l', 'l'] rest
        | rest => refuse "unit" rest
      match skipBlanks rest with
      | [] => faultAt .endInObject []
      | d :: rest => if d = '\x7d' then return (a, rest) else faultBefore .expectedValue rest
    else faultAt .expectedValue (c :: rest)

def readTimestamp (text : List Char) : Except Fault (Timestamp × List Char) := do
  let (text, rest) ← readText "an RFC 3339 formatted date and time string" text
  match Timestamp.read text.toList with
  | .ok t => return (t, rest)
  | .error fault => faultBefore (.mismatch (.timestamp fault)) rest

/-! ### Records

The fields of a record are a list, and its readers search it by name or take it in order. So a
record says only what its fields are called, how each is read and where it is put.
-/

/-- A named field of a record that is read into a state. -/
structure Field (σ : Type) where
  name : String
  isSet : σ → Bool
  read : σ → Reader σ

/-- A field that a component of the state holds once it has been read. -/
def Field.of {σ α : Type} (name : String) (get : σ → Option α)
    (set : σ → α → σ) (reader : Reader α) : Field σ where
  name
  isSet state := (get state).isSome
  read state text := do
    let (value, rest) ← reader text
    return (set state value, rest)

/-- A record: its name in messages, its fields, and how it is made of a state. With
`partialArray` an array may leave fields out at its end. -/
structure Record (σ τ : Type) where
  title : String
  initial : σ
  fields : List (Field σ)
  finish : σ → Except Mismatch τ
  partialArray : Bool := false

namespace Record

variable {σ τ : Type}

/-- Reads the member of an object under `key` into the state. -/
def readMember (record : Record σ τ) (state : σ) (key : String) (text : List Char) :
    Except Fault (σ × List Char) :=
  match record.fields.find? fun field => field.name == key with
  | some field =>
    if field.isSet state then faultBefore (.mismatch (.duplicateField key)) text
    else do field.read state (← readColon text)
  | none => do return (state, ← skipValue (← readColon text))

/-- Reads the items of an array into the given fields, from the one at `index` on. The closing
bracket is left on the text; with it comes whether the array ended before its fields did. -/
def readPositions : List (Field σ) → Nat → σ → List Char →
    Except Fault ((σ × Option Nat) × List Char)
  | [], _, state, text => .ok ((state, none), text)
  | field :: others, index, state, text =>
    let next (text : List Char) : Except Fault ((σ × Option Nat) × List Char) := do
      let (state, text) ← field.read state text
      readPositions others (index + 1) state text
    match skipBlanks text with
    | [] => faultAt .endInList []
    | c :: rest =>
      if c = ']' then .ok ((state, some index), c :: rest)
      -- no comma stands in front of the first item
      else if index = 0 then next (c :: rest)
      else if c = ',' then
        match skipBlanks rest with
        | [] => faultAt .endInValue []
        | d :: rest => if d = ']' then faultAt .trailingComma (d :: rest) else next (d :: rest)
      else faultAt .expectedListCommaOrEnd (c :: rest)

/-- Takes the closing bracket of an array whose items have been read. -/
def readArrayEnd (text : List Char) : Except Fault (List Char) :=
  match skipBlanks text with
  | [] => faultAt .endInList []
  | c :: rest =>
    if c = ']' then .ok rest
    else if c = ',' then
      match skipBlanks rest with
      | ']' :: rest => faultAt .trailingComma (']' :: rest)
      | rest => faultAt .trailingCharacters rest
    else faultAt .trailingCharacters (c :: rest)

/-- Makes the record of a state; what is missing lies in front of `rest`. -/
def close (record : Record σ τ) (state : σ) (rest : List Char) : Except Fault τ :=
  match record.finish state with
  | .ok value => .ok value
  | .error mismatch => faultBefore (.mismatch mismatch) rest

/-- Reads a record. -/
def read (record : Record σ τ) (text : List Char) : Except Fault (τ × List Char) :=
  match skipBlanks text with
  | '[' :: rest => do
    let ((state, ended), rest) ← readPositions record.fields 0 record.initial rest
    match ended, record.partialArray with
    | some index, false =>
      let expected := s!"{record.title} with {record.fields.length} elements"
      faultBefore (.mismatch (.invalidLength index expected)) rest
    | _, _ => return (← record.close state rest, ← readArrayEnd rest)
  | '\x7b' :: rest => do
    let (state, rest) ← readObject record.readMember record.initial rest
    return (← record.close state rest, rest)
  | text => refuse record.title text

end Record

end StepRelay.Json
