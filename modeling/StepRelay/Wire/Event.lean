import StepRelay.Event
import StepRelay.Json.TreeField
import StepRelay.Wire.Dated

/-!
# Events on the wire

An event is an object whose `type` field names its variant; the other fields may come before or
behind it. So the members are kept as trees until the whole object has been read, and only then
taken for the fields of the variant. An array is read alike, with the type in front.
-/

namespace StepRelay

namespace Phase

/-- The phases by which a name can be read. -/
def all : List Phase := [pending, running, committed, failed]

def wireText (phase : Phase) : List Char := Json.stringText phase.name

def readWire (text : List Char) : Except Json.Fault (Phase × List Char) :=
  Json.readChoice name all text

end Phase

/-- A step id is a string. -/
def StepId.ofTree (json : Json) : Except Json.Mismatch StepId := do
  return ⟨← Json.textOf "a string" json⟩

/-- The variants of an event. -/
inductive EventType where
  | began
  | committed
  | failed
  | overridden
  deriving DecidableEq

namespace EventType

/-- The variants that a type can name. -/
def all : List EventType := [began, committed, failed, overridden]

/-- The name in the `type` field. -/
def name : EventType → String
  | began => "step_began"
  | committed => "step_committed"
  | failed => "step_failed"
  | overridden => "publish_overridden"

/-- The name in messages about its content. -/
def title : EventType → String
  | began => "struct variant BridgeEvent::StepBegan"
  | committed => "struct variant BridgeEvent::StepCommitted"
  | failed => "struct variant BridgeEvent::StepFailed"
  | overridden => "struct variant BridgeEvent::PublishOverridden"

end EventType

namespace Event

/-- The variant of an event. -/
def type : Event → EventType
  | began .. => .began
  | committed .. => .committed
  | failed .. => .failed
  | overridden .. => .overridden

/-- A list of names. -/
def namesText (names : List String) : List Char :=
  Json.bracketed '[' ']' (names.map Json.stringText)

/-- The written fields of an event's content, in order. -/
def contentFields : Event → List (String × List Char)
  | began step inputs version => [
      ("step_id", step.wireText),
      ("inputs", namesText inputs),
      ("table_version", Nat.toDigits 10 version)]
  | committed step outputs version => [
      ("step_id", step.wireText),
      ("outputs", namesText outputs),
      ("table_version", Nat.toDigits 10 version)]
  | failed step error => [
      ("step_id", step.wireText),
      ("error", Json.stringText error)]
  | overridden name step previousStep => [
      ("name", Json.stringText name),
      ("step_id", step.wireText),
      ("previous_step", previousStep.wireText)]

/-- The written fields of a dated event, in order. -/
def wireFields (event : Dated Event) : List (String × List Char) :=
  ("type", Json.stringText event.body.type.name) ::
    (event.body.contentFields ++ [("at", event.date.wireText)])

/-- The text of an event, its type in front. -/
def wireText (event : Dated Event) : List Char := Json.objectText (wireFields event)

/-- The fields of an event that have been read; each variant uses some of them. -/
structure Draft where
  step : Option StepId := none
  names : Option (List String) := none
  version : Option Nat := none
  error : Option String := none
  name : Option String := none
  previousStep : Option StepId := none
  date : Option Timestamp := none

namespace Draft

/-- The step that the event is about. -/
def stepField : Json.TreeField Draft :=
  .of "step_id" step (fun draft step => { draft with step }) StepId.ofTree

/-- Inputs or outputs, under the name that the variant has for them. -/
def namesField (name : String) : Json.TreeField Draft :=
  .of name names (fun draft names => { draft with names }) Json.textsOf

/-- The version of the table, which has to fit 64 bits. -/
def versionField : Json.TreeField Draft :=
  .of "table_version" version (fun draft version => { draft with version })
    (Json.naturalOfTree "u64")

/-- The message of the error that a step failed with. -/
def errorField : Json.TreeField Draft :=
  .of "error" error (fun draft error => { draft with error }) (Json.textOf "a string")

/-- The name that was overridden. -/
def nameField : Json.TreeField Draft :=
  .of "name" name (fun draft name => { draft with name }) (Json.textOf "a string")

/-- The step whose publish was overridden. -/
def previousStepField : Json.TreeField Draft :=
  .of "previous_step" previousStep (fun draft previousStep => { draft with previousStep })
    StepId.ofTree

/-- The instant at which the event was recorded. -/
def dateField : Json.TreeField Draft :=
  .of "at" date (fun draft date => { draft with date }) Json.timestampOf

/-- The fields of a variant, in order. -/
def fields : EventType → List (Json.TreeField Draft)
  | .began => [stepField, namesField "inputs", versionField, dateField]
  | .committed => [stepField, namesField "outputs", versionField, dateField]
  | .failed => [stepField, errorField, dateField]
  | .overridden => [nameField, stepField, previousStepField, dateField]

/-- The event of a variant; what is missing is noticed in the order of its fields. -/
def finish (draft : Draft) : EventType → Except Json.Mismatch (Dated Event)
  | .began => do
    let step ← Json.required "step_id" draft.step
    let names ← Json.required "inputs" draft.names
    let version ← Json.required "table_version" draft.version
    return ⟨← Json.required "at" draft.date, began step names version⟩
  | .committed => do
    let step ← Json.required "step_id" draft.step
    let names ← Json.required "outputs" draft.names
    let version ← Json.required "table_version" draft.version
    return ⟨← Json.required "at" draft.date, committed step names version⟩
  | .failed => do
    let step ← Json.required "step_id" draft.step
    let error ← Json.required "error" draft.error
    return ⟨← Json.required "at" draft.date, failed step error⟩
  | .overridden => do
    let name ← Json.required "name" draft.name
    let step ← Json.required "step_id" draft.step
    let previousStep ← Json.required "previous_step" draft.previousStep
    return ⟨← Json.required "at" draft.date, overridden name step previousStep⟩

end Draft

/-- The event of a variant from the members of its object. -/
def ofMembers (type : EventType) (members : List (String × Json)) :
    Except Json.Mismatch (Dated Event) := do
  (← Json.readTreeMembers (Draft.fields type) {} members).finish type

/-- The event of a variant from the items of an array behind its type. -/
def ofItems (type : EventType) (items : List Json) : Except Json.Mismatch (Dated Event) := do
  let fields := Draft.fields type
  let (draft, missing, extra) ← Json.readTreeItems fields {} items
  if missing ≠ 0 then
    .error (.invalidLength items.length s!"{type.title} with {fields.length} elements")
  else if extra ≠ 0 then
    .error (.invalidLength items.length s!"{fields.length} elements in sequence")
  else draft.finish type

/-- An event's object or array as far as the grammar and its type go. -/
structure Envelope where
  type : Option EventType := none
  members : List (String × Json) := []

/-- Reads a member: the type at once, any other as a tree for later. -/
def readMember (envelope : Envelope) (key : String) (text : List Char) :
    Except Json.Fault (Envelope × List Char) := do
  if key = "type" then
    if envelope.type.isSome then Json.faultBefore (.mismatch (.duplicateField key)) text
    else
      let text ← Json.readColon text
      let (type, text) ← Json.readName EventType.name EventType.all text
      return ({ envelope with type }, text)
  else
    let text ← Json.readColon text
    let (json, text) ← Json.readValue Json.rawBuilder (Json.depthLimit - 1) text
    return ({ envelope with members := envelope.members ++ [(key, json)] }, text)

/-- The items behind the type in an array, up to its closing bracket. -/
def readItemsBehind (text : List Char) : Except Json.Fault (List Json × List Char) :=
  match Json.skipBlanks text with
  | [] => Json.faultAt .endInList []
  | c :: rest =>
    if c = ']' then .ok ([], rest)
    else if c = ',' then
      match Json.skipBlanks rest with
      | [] => Json.faultAt .endInValue []
      | d :: rest =>
        if d = ']' then Json.faultAt .trailingComma (d :: rest)
        else
          Json.readItems (Json.readValue Json.rawBuilder (Json.depthLimit - 1)) (rest.length + 1)
            (d :: rest)
    else Json.faultAt .expectedListCommaOrEnd (c :: rest)

/-- Gives a mismatch its place in the text. -/
def placed {α : Type} (rest : List Char) :
    Except Json.Mismatch α → Except Json.Fault (α × List Char)
  | .ok value => .ok (value, rest)
  | .error mismatch => Json.faultBefore (.mismatch mismatch) rest

/-- Reads an event. All of its text is read before its content is looked at. -/
def readWire (text : List Char) : Except Json.Fault (Dated Event × List Char) :=
  match Json.skipBlanks text with
  | '\x7b' :: rest => do
    let (envelope, rest) ← Json.readObject readMember {} rest
    match envelope.type with
    | none => Json.faultBefore (.mismatch (.missingField "type")) rest
    | some type => placed rest (ofMembers type envelope.members)
  | '[' :: rest => do
    match Json.skipBlanks rest with
    | [] => Json.faultAt .endInList []
    | ']' :: rest => Json.faultBefore (.mismatch (.missingField "type")) rest
    | rest =>
      let (type, rest) ← Json.readName EventType.name EventType.all rest
      let (items, rest) ← readItemsBehind rest
      placed rest (ofItems type items)
  | text => Json.refuse "internally tagged enum BridgeEvent" text

end Event

end StepRelay
