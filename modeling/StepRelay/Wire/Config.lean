import StepRelay.Config.Basic
import StepRelay.Wire.Cell

/-!
# Configurations as JSON

Every field has a default, so an object or an array may leave any of them out.
-/

namespace StepRelay.Config

/-- The written fields, in order. -/
def wireFields (config : Config) : List (String × List Char) := [
  ("scriptLogCapacity", Nat.toDigits 10 config.scriptLogCapacity),
  ("archiveCapacity", Nat.toDigits 10 config.archiveCapacity),
  ("constantsOverridePublished", Json.boolText config.constantsOverridePublished)]

def wireText (config : Config) : List Char := Json.objectText config.wireFields

/-- The settings that have been read. -/
structure Draft where
  scriptLogCapacity : Option Nat := none
  archiveCapacity : Option Nat := none
  constantsOverridePublished : Option Bool := none

/-- Defaults for what has not been read. -/
def Draft.config (draft : Draft) : Config :=
  let defaults : Config := {}
  { scriptLogCapacity := draft.scriptLogCapacity.getD defaults.scriptLogCapacity
    archiveCapacity := draft.archiveCapacity.getD defaults.archiveCapacity
    constantsOverridePublished :=
      draft.constantsOverridePublished.getD defaults.constantsOverridePublished }

def record : Json.Record Draft Config where
  title := "struct BridgeConfig"
  initial := {}
  fields := [
    .of "scriptLogCapacity" Draft.scriptLogCapacity
      (fun draft scriptLogCapacity => { draft with scriptLogCapacity })
      (Json.readNatural "usize"),
    .of "archiveCapacity" Draft.archiveCapacity
      (fun draft archiveCapacity => { draft with archiveCapacity })
      (Json.readNatural "usize"),
    .of "constantsOverridePublished" Draft.constantsOverridePublished
      (fun draft constantsOverridePublished => { draft with constantsOverridePublished })
      Json.readBool]
  finish draft := .ok draft.config
  partialArray := true

def readWire (text : List Char) : Except Json.Fault (Config × List Char) := record.read text

end StepRelay.Config
