import StepRelay.Json.Printer
import StepRelay.Json.Reader
import StepRelay.Value.Tree

/-!
# Values as JSON text

`encode` and `decode` pass through a tree; `write` and `read` go from values to text and back
directly. `display` is the text of a value in messages, which exists for every value.
-/

namespace StepRelay.Value

/-- The compact text of a value. -/
def encode (value : Value) : Except ValueError String := do return (← value.toJson).render

/-- The value of a JSON text, by way of its tree. -/
def decode (text : String) : Except ValueError Value :=
  match Json.parse text with
  | .ok json => ofJson json
  | .error fault => .error (.encoding (fault.describe text.toList))

/-- The text of a value, or its outermost type if it has none. -/
def display (value : Value) : String :=
  match value.toJson with
  | .ok json => json.render
  | .error _ => "<" ++ value.typeName ++ ">"

/-! ### Without a tree

The text is put together as the value is walked through. There is no place to report, so a failure
is the double itself.
-/

mutual

/-- The compact text of a value; fails with the first double that is not finite. -/
def write : Value → Except Double (List Char)
  | null => .ok "null".toList
  | bool flag => .ok (Json.boolText flag)
  | int n => .ok (Json.integerText n.toInt)
  | float d => if d.isFinite then .ok d.wireText else .error d
  | string text => .ok (Json.stringText text)
  | sequence items => do return Json.bracketed '[' ']' (← writeItems items)
  | mapping entries => do return Json.bracketed '\x7b' '\x7d' (← writeEntries entries)

/-- The texts of the items of a sequence. -/
def writeItems : List Value → Except Double (List (List Char))
  | [] => .ok []
  | item :: rest => do
    let first ← item.write
    return first :: (← writeItems rest)

/-- The texts of the entries of a mapping, each with its key. -/
def writeEntries : List (String × Value) → Except Double (List (List Char))
  | [] => .ok []
  | (key, item) :: rest => do
    let first ← item.write
    return Json.memberText key first :: (← writeEntries rest)

end

/-- Makes values of what a reader meets. An integer is refused as soon as it is met. -/
def builder : Json.Builder Value where
  null := null
  bool := bool
  number := ofNumber
  string := string
  array := sequence
  object members := mapping (Entries.merge members)

/-- The value of a JSON text, without a tree. -/
def read (text : String) : Except Json.Fault Value :=
  Json.readWhole? (Json.readValue builder Json.depthLimit) text.toList

end StepRelay.Value
