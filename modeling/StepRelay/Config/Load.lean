import StepRelay.Config.Document
import StepRelay.Environment
import StepRelay.Files

/-!
# Loading a configuration

Without a file all settings have their defaults. A file is JSON if its name says so, else YAML, and
its settings must be valid.

YAML is read by a reader that is a parameter of loading: of a text it gives settings, or it refuses
the text. Nothing about loading depends on which texts those are. `Config.load` is loading with the
reader of this library, `Config.ofDocument?`, which knows all of YAML but its directives, tags,
anchors and aliases; a reader that knows these takes its place in `Config.loadWith`.
-/

namespace StepRelay

/-- Why no configuration can be loaded. -/
inductive LoadError where
  /-- The file cannot be read, or its content is no text. -/
  | unreadable
  | json (fault : Json.Fault)
  /-- The reader of YAML refuses the text. -/
  | yaml
  | invalid (error : ConfigError)

namespace Config

section Loading

variable (yaml? : List Char → Option Config)

/-- The settings that a file's text gives. A blank text gives the defaults, except in JSON. -/
def ofText (isJson : Bool) (text : List Char) : Except LoadError Config :=
  -- blank JSON is a fault like any other
  if isJson then (Json.readWhole? readWire text).mapError .json
  else if Text.trim text = [] then .ok {}
  else match yaml? text with
    | some config => .ok config
    | none => .error .yaml

/-- The settings that a file's content gives, if they are valid. -/
def ofContent (isJson : Bool) (content : List UInt8) : Except LoadError Config := do
  match String.fromUTF8? content.toByteArray with
  | none => throw .unreadable
  | some text =>
    let config ← ofText yaml? isJson text.toList
    let _ ← config.validate.mapError .invalid
    return config

/-- The settings that are found at a path, where YAML is read by the given reader. -/
def loadWith (path : Path) : Found → Except LoadError Config
  | .missing => .ok {}
  | .directory => .error .unreadable
  | .file content => ofContent yaml? (path.hasExtension "json") content

end Loading

/-- The settings that are found at a path. -/
def load (path : Path) (found : Found) : Except LoadError Config := loadWith ofDocument? path found

/-- The settings of a run that is started in the directory `start`. -/
def loadFor (env : Environment) (files : Files) (start : Place) : Except LoadError Config :=
  load env.configPath (files.find start env.configPath)

end Config

end StepRelay
