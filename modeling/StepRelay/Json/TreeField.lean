import StepRelay.Json.Record

/-!
# Reading typed data from a tree

The counterpart of `Json.Record` for data whose text has been read into a tree before its type was
known. The tree keeps repeated keys, so that a field that occurs twice can be refused.
-/

namespace StepRelay.Json

def Unexpected.ofJson : Json → Unexpected
  | .null => .null
  | .bool flag => .bool flag
  | .number n => .ofNumber n
  | .string text => .string text
  | .array _ => .sequence
  | .object _ => .mapping

def textOf (expected : String) : Json → Except Mismatch String
  | .string text => .ok text
  | json => .error (.invalidType (.ofJson json) expected)

def naturalOfTree (typeName : String) : Json → Except Mismatch Nat
  | .number n => naturalOf typeName n
  | json => .error (.invalidType (.ofJson json) typeName)

def textsOf : Json → Except Mismatch (List String)
  | .array items => items.mapM (textOf "a string")
  | json => .error (.invalidType (.ofJson json) "a sequence")

def timestampOf (json : Json) : Except Mismatch Timestamp := do
  let text ← textOf "an RFC 3339 formatted date and time string" json
  match Timestamp.read text.toList with
  | .ok t => return t
  | .error fault => .error (.timestamp fault)

/-- A named field that is read from a tree into a state. -/
structure TreeField (σ : Type) where
  name : String
  isSet : σ → Bool
  read : σ → Json → Except Mismatch σ

/-- A field that a component of the state holds once it has been read. -/
def TreeField.of {σ α : Type} (name : String) (get : σ → Option α) (set : σ → α → σ)
    (reader : Json → Except Mismatch α) : TreeField σ where
  name
  isSet state := (get state).isSome
  read state json := do return set state (← reader json)

/-- Reads members in their order. A field that occurs twice is refused, an unknown one passed
over. -/
def readTreeMembers {σ : Type} (fields : List (TreeField σ)) :
    σ → List (String × Json) → Except Mismatch σ
  | state, [] => .ok state
  | state, (key, json) :: rest =>
    match fields.find? fun field => field.name == key with
    | some field =>
      if field.isSet state then .error (.duplicateField key)
      else do readTreeMembers fields (← field.read state json) rest
    | none => readTreeMembers fields state rest

/-- Reads items into fields by position. With it comes how many fields found no item, or else how
many items found no field. -/
def readTreeItems {σ : Type} :
    List (TreeField σ) → σ → List Json → Except Mismatch (σ × (Nat × Nat))
  | fields, state, [] => .ok (state, (fields.length, 0))
  | [], state, items => .ok (state, (0, items.length))
  | field :: fields, state, item :: items => do
    readTreeItems fields (← field.read state item) items

end StepRelay.Json
