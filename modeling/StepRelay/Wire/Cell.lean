import StepRelay.Cell
import StepRelay.Json.Record
import StepRelay.Value.Text

/-!
# Cells on the wire

A cell is an object of five fields, an identifier a string, a kind its name. Writing fails like its
value does.
-/

namespace StepRelay

/-- An object of written fields. -/
def Json.objectText (fields : List (String × List Char)) : List Char :=
  Json.bracketed '\x7b' '\x7d' (fields.map fun field => Json.memberText field.1 field.2)

/-- A component that a record must have. -/
def Json.required {α : Type} (name : String) : Option α → Except Json.Mismatch α
  | some a => .ok a
  | none => .error (.missingField name)

namespace StepId

/-- A step id is written as the string that it is. -/
def wireText (step : StepId) : List Char := Json.stringText step.id

def readWire (text : List Char) : Except Json.Fault (StepId × List Char) := do
  let (id, rest) ← Json.readText "a string" text
  return (⟨id⟩, rest)

end StepId

namespace CellKind

/-- The kinds by which a name can be read. -/
def all : List CellKind := [input, state, output]

def wireText (kind : CellKind) : List Char := Json.stringText kind.name

def readWire (text : List Char) : Except Json.Fault (CellKind × List Char) :=
  Json.readChoice name all text

end CellKind

namespace Cell

/-- The written fields, in order. -/
def wireFields (cell : Cell) : Except Double (List (String × List Char)) := do
  return [
    ("name", Json.stringText cell.name),
    ("value", ← cell.value.write),
    ("origin_step", cell.origin.wireText),
    ("kind", cell.kind.wireText),
    ("written_at", Nat.toDigits 10 cell.writtenAt)]

/-- The text of a cell; fails with the first double of its value that is not finite. -/
def wireText (cell : Cell) : Except Double (List Char) := do
  return Json.objectText (← cell.wireFields)

/-- The fields of a cell that have been read. -/
structure Draft where
  name : Option String := none
  value : Option Value := none
  origin : Option StepId := none
  kind : Option CellKind := none
  writtenAt : Option Nat := none

/-- The cell, if no field is missing; the first one that is gets named. -/
def Draft.finish (draft : Draft) : Except Json.Mismatch Cell := do
  return {
    name := ← Json.required "name" draft.name
    value := ← Json.required "value" draft.value
    origin := ← Json.required "origin_step" draft.origin
    kind := ← Json.required "kind" draft.kind
    writtenAt := ← Json.required "written_at" draft.writtenAt }

/-- A cell takes one of the brackets that may be open, its value the others. -/
def record : Json.Record Draft Cell where
  title := "struct DataCell"
  initial := {}
  fields := [
    .of "name" Draft.name (fun draft name => { draft with name }) (Json.readText "a string"),
    .of "value" Draft.value (fun draft value => { draft with value })
      (Json.readValue Value.builder (Json.depthLimit - 1)),
    .of "origin_step" Draft.origin (fun draft origin => { draft with origin }) StepId.readWire,
    .of "kind" Draft.kind (fun draft kind => { draft with kind }) CellKind.readWire,
    .of "written_at" Draft.writtenAt (fun draft writtenAt => { draft with writtenAt })
      (Json.readNatural "u64")]
  finish := Draft.finish

/-- Reads a cell off the front of a text. -/
def readWire (text : List Char) : Except Json.Fault (Cell × List Char) := record.read text

end Cell

end StepRelay
