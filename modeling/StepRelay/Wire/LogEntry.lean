import StepRelay.Log.Entry
import StepRelay.Wire.Dated

/-!
# Log entries on the wire

An entry is an object of four fields, all of them required. Its level is written by name, in lower
case, and its instant as text.
-/

namespace StepRelay

namespace LogLevel

/-- The levels by which a name can be read. -/
def all : List LogLevel := [debug, info, warn, error]

def wireText (level : LogLevel) : List Char := Json.stringText level.name

def readWire (text : List Char) : Except Json.Fault (LogLevel × List Char) :=
  Json.readChoice name all text

end LogLevel

namespace LogEntry

/-- The written fields of a dated entry, in order. -/
def wireFields (entry : Dated LogEntry) : List (String × List Char) := [
  ("timestamp", entry.date.wireText),
  ("step_id", entry.body.step.wireText),
  ("level", entry.body.level.wireText),
  ("message", Json.stringText entry.body.message)]

/-- The text of an entry. -/
def wireText (entry : Dated LogEntry) : List Char := Json.objectText (wireFields entry)

/-- The fields of an entry that have been read. -/
structure Draft where
  date : Option Timestamp := none
  step : Option StepId := none
  level : Option LogLevel := none
  message : Option String := none

/-- The entry, if no field is missing; the first one that is gets named. -/
def Draft.finish (draft : Draft) : Except Json.Mismatch (Dated LogEntry) := do
  let date ← Json.required "timestamp" draft.date
  let step ← Json.required "step_id" draft.step
  let level ← Json.required "level" draft.level
  let message ← Json.required "message" draft.message
  return ⟨date, step, level, message⟩

/-- A log entry has no optional fields. -/
def record : Json.Record Draft (Dated LogEntry) where
  title := "struct ScriptLogEntry"
  initial := {}
  fields := [
    .of "timestamp" Draft.date (fun draft date => { draft with date }) Json.readTimestamp,
    .of "step_id" Draft.step (fun draft step => { draft with step }) StepId.readWire,
    .of "level" Draft.level (fun draft level => { draft with level }) LogLevel.readWire,
    .of "message" Draft.message (fun draft message => { draft with message })
      (Json.readText "a string")]
  finish := Draft.finish

/-- Reads an entry off the front of a text. -/
def readWire (text : List Char) : Except Json.Fault (Dated LogEntry × List Char) :=
  record.read text

end LogEntry

end StepRelay
