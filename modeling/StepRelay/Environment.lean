import StepRelay.Path.Basic
import StepRelay.Text.Blank

/-!
# Where a run finds its files

A run is told by its environment where its user is at home and where its settings are kept.
-/

namespace StepRelay

/-- The surroundings of a run. The variables hold bytes, which need not be text. -/
structure Environment where
  /-- The variable that names the home directory. -/
  home : Option (List UInt8) := none
  /-- The home directory of the account that the run belongs to. -/
  accountHome : Option Path := none
  /-- The variable that names the directory for settings. -/
  settings : Option (List UInt8) := none
  /-- The variable that names the configuration file. -/
  configFile : Option (List UInt8) := none

namespace Environment

/-- The home directory; an empty variable counts as none. -/
def home? (env : Environment) : Option Path :=
  match env.home with
  | none | some [] => env.accountHome
  | some bytes => some ⟨bytes⟩

/-- The home directory, or a tilde where there is none. -/
def homeOrTilde (env : Environment) : Path := env.home?.getD (.ofString "~")

/-- The path that a text names, without the blanks around it. A tilde in front of it, alone or
before a slash or a backslash, stands for the home directory. -/
def expandTilde (env : Environment) (text : List Char) : Path :=
  match Text.trim text with
  | ['~'] => env.homeOrTilde
  | '~' :: '/' :: rest | '~' :: '\\' :: rest => env.homeOrTilde.join (.ofChars rest)
  | trimmed => .ofChars trimmed

/-- The path in a variable. A variable that is unset, no text or blank names none. -/
def pathIn (env : Environment) (value : Option (List UInt8)) : Option Path := do
  let bytes ← value
  let text ← String.fromUTF8? bytes.toByteArray
  let trimmed := Text.trim text.toList
  if trimmed = [] then none else some (env.expandTilde trimmed)

/-- The directory that is set for settings, if it is absolute; else the one at home. -/
def settingsDirectory (env : Environment) : Path :=
  let fallback := (env.home?.map (·.join (.ofString ".config"))).getD (.ofString ".")
  match env.settings with
  | none => fallback
  | some bytes => if (Path.mk bytes).isAbsolute then ⟨bytes⟩ else fallback

/-- The configuration file: the one that is named, or its place among the settings. -/
def configPath (env : Environment) : Path :=
  (env.pathIn env.configFile).getD <|
    (env.settingsDirectory.join (.ofString "stepwire")).join (.ofString "bridge.yaml")

end Environment

end StepRelay
