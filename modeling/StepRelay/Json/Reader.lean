import StepRelay.Json.Scalar

/-!
# Reading whole values

The reader is written once over a `Builder`, which says what becomes of each kind of value. Nesting
is bounded: at most 127 brackets may be open at a time, and recursion follows that bound. The items
of an array and the members of an object are read by loops over an arbitrary reader of one item.
-/

namespace StepRelay.Json

/-- What a reader makes of the parts of a value. Only a number can be refused. -/
structure Builder (α : Type) where
  null : α
  bool : Bool → α
  number : Number → Except Mismatch α
  string : String → α
  array : List α → α
  object : List (String × α) → α

/-- The most brackets that may be open at a time. -/
def depthLimit : Nat := 127

variable {α σ : Type}

/-! ### Arrays

A loop reads one item after the other with the reader that it is given, and looks at what stands
behind each.
-/

/-- The items of an array up to its closing bracket, one at least. Every round takes at least one
character off the text, so as many rounds as it has characters are enough. -/
def readItems (item : Reader α) : Nat → Reader (List α)
  | 0, text => faultAt .expectedValue text
  | fuel + 1, text => do
    let (first, text) ← item text
    match skipBlanks text with
    | [] => faultAt .endInList []
    | c :: rest =>
      if c = ']' then return ([first], rest)
      else if c = ',' then
        match skipBlanks rest with
        | [] => faultAt .endInValue []
        | d :: rest =>
          if d = ']' then faultAt .trailingComma (d :: rest)
          else
            let (others, text) ← readItems item fuel (d :: rest)
            return (first :: others, text)
      else faultAt .expectedListCommaOrEnd (c :: rest)

/-- The array whose opening bracket has been taken. -/
def readArray (item : Reader α) (text : List Char) : Except Fault (List α × List Char) :=
  match skipBlanks text with
  | [] => faultAt .endInList []
  | c :: rest => if c = ']' then .ok ([], rest) else readItems item (rest.length + 1) (c :: rest)

/-! ### Objects

The same for members, each of which is a key, a colon and a value. What becomes of a member is left
to the caller.
-/

/-- Takes the colon between a key and its value. -/
def readColon (text : List Char) : Except Fault (List Char) :=
  match skipBlanks text with
  | [] => faultAt .endInObject []
  | c :: rest => if c = ':' then .ok rest else faultAt .expectedColon (c :: rest)

/-- The members of an object up to its closing bracket, one at least, from behind the opening quote
of the first key. `member` adds the value of a key to what has been read of the object. -/
def readMembers (member : σ → String → Reader σ) : Nat → σ → Reader σ
  | 0, _, text => faultAt .keyNotString text
  | fuel + 1, state, text => do
    let (key, text) ← readString text
    let (state, text) ← member state key text
    match skipBlanks text with
    | [] => faultAt .endInObject []
    | c :: rest =>
      if c = '\x7d' then return (state, rest)
      else if c = ',' then
        match skipBlanks rest with
        | [] => faultAt .endInValue []
        | d :: rest =>
          if d = '"' then readMembers member fuel state rest
          else if d = '\x7d' then faultAt .trailingComma (d :: rest)
          else faultAt .keyNotString (d :: rest)
      else faultAt .expectedObjectCommaOrEnd (c :: rest)

/-- The object whose opening bracket has been taken. -/
def readObject (member : σ → String → Reader σ) (initial : σ) (text : List Char) :
    Except Fault (σ × List Char) :=
  match skipBlanks text with
  | [] => faultAt .endInObject []
  | c :: rest =>
    if c = '\x7d' then .ok (initial, rest)
    else if c = '"' then readMembers member (rest.length + 1) initial rest
    else faultAt .keyNotString (c :: rest)

/-- Adds a member read by `item` to the members before it. -/
def readMember (item : Reader α) (members : List (String × α)) (key : String) :
    Reader (List (String × α)) := fun text => do
  let text ← readColon text
  let (value, text) ← item text
  return (members ++ [(key, value)], text)

/-! ### Values

The first character that is no blank decides which kind of value is read.
-/

/-- Hands a number to the builder; a refusal lies behind the number. -/
def readNumberWith (builder : Builder α) (text : List Char) : Except Fault (α × List Char) := do
  let (n, rest) ← readNumber text
  match builder.number n with
  | .ok value => return (value, rest)
  | .error mismatch => faultBefore (.mismatch mismatch) rest

/-- A value whose items are read by `nested`; without it, no bracket may be opened. -/
def readValueWith (builder : Builder α) (nested : Option (Reader α)) (text : List Char) :
    Except Fault (α × List Char) :=
  match skipBlanks text with
  | [] => faultAt .endInValue []
  | c :: rest =>
    if c = 'n' then do return (builder.null, ← readWord ['u', 'l', 'l'] rest)
    else if c = 't' then do return (builder.bool true, ← readWord ['r', 'u', 'e'] rest)
    else if c = 'f' then do return (builder.bool false, ← readWord ['a', 'l', 's', 'e'] rest)
    else if c = '-' ∨ c.isDigit then readNumberWith builder (c :: rest)
    else if c = '"' then do
      let (text, rest) ← readString rest
      return (builder.string text, rest)
    else if c = '[' then
      match nested with
      | none => faultAt .tooDeep (c :: rest)
      | some item => do
        let (items, rest) ← readArray item rest
        return (builder.array items, rest)
    else if c = '\x7b' then
      match nested with
      | none => faultAt .tooDeep (c :: rest)
      | some item => do
        let (members, rest) ← readObject (readMember item) [] rest
        return (builder.object members, rest)
    else faultAt .expectedValue (c :: rest)

/-- A value in which at most `depth` brackets are open at a time. -/
def readValue (builder : Builder α) : Nat → Reader α
  | 0 => readValueWith builder none
  | depth + 1 => readValueWith builder (some (readValue builder depth))

/-- What `reader` reads, if nothing but blanks stands behind it. -/
def readWhole? (reader : Reader α) (text : List Char) : Except Fault α := do
  let (value, rest) ← reader text
  match skipBlanks rest with
  | [] => return value
  | c :: rest => faultAt .trailingCharacters (c :: rest)

/-- Builds trees: a repeated key keeps its first place and its last item. -/
def treeBuilder : Builder Json where
  null := .null
  bool := .bool
  number n := .ok (.number n)
  string := .string
  array := .array
  object members := .object (Entries.merge members)

/-- Builds trees in which a repeated key stays repeated. -/
def rawBuilder : Builder Json := { treeBuilder with object := .object }

/-- The tree of a JSON text. -/
def parse (text : String) : Except Fault Json :=
  readWhole? (readValue treeBuilder depthLimit) text.toList

end StepRelay.Json
