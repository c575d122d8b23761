import StepRelay.Wire.Config
import StepRelay.Yaml.Node

/-!
# Configurations as YAML

Settings are the entries of a mapping. Numbers and flags are plain scalars; what is quoted is text
and no setting.
-/

namespace StepRelay.Config

/-- The bases of whole numbers, by what stands in front of their digits. -/
def bases : List (List Char × Nat) := [(['0', 'x'], 16), (['0', 'o'], 8), (['0', 'b'], 2)]

/-- The number that digits write in a base. -/
def ofDigits? (base : Nat) (digits : List Char) : Option Nat := do
  let values ← digits.mapM Json.hexValue?
  if digits ≠ [] ∧ values.all (· < base) then
    return values.foldl (fun n digit => base * n + digit) 0
  else none

/-- The number that a plain scalar writes in 64 bits, if it writes one: after at most one plus sign,
decimal digits that do not begin with a needless zero, or the digits of another base behind its
mark. -/
def natural? (text : List Char) : Option Nat := do
  let digits := match text with
    | '+' :: rest => rest
    | _ => text
  let n ← match bases.find? fun (mark, _) => mark.isPrefixOf digits with
    | some (mark, base) => ofDigits? base (digits.drop mark.length)
    | none => if digits.head? = some '0' ∧ digits.length ≠ 1 then none else ofDigits? 10 digits
  if n < Nat.pow 2 64 then return n else none

/-- The flag that a plain scalar writes. -/
def flag? (text : String) : Option Bool :=
  if ["true", "True", "TRUE"].contains text then some true
  else if ["false", "False", "FALSE"].contains text then some false
  else none

/-- The text of a plain scalar. -/
def plainText? : Yaml.Node → Option String
  | .scalar ⟨true, text⟩ => some text
  | _ => none

/-- Takes an entry of a document. No setting may come twice; other entries say nothing. -/
def Draft.takeEntry (draft : Draft) : Yaml.Node × Yaml.Node → Option Draft
  | (.scalar name, value) => do
    match name.text with
    | "scriptLogCapacity" =>
      if draft.scriptLogCapacity.isSome then none
      else return { draft with scriptLogCapacity := ← natural? (← plainText? value).toList }
    | "archiveCapacity" =>
      if draft.archiveCapacity.isSome then none
      else return { draft with archiveCapacity := ← natural? (← plainText? value).toList }
    | "constantsOverridePublished" =>
      if draft.constantsOverridePublished.isSome then none
      else return { draft with constantsOverridePublished := ← flag? (← plainText? value) }
    | _ => return draft
  | _ => none

/-- The settings in a node: a mapping, or nothing at all, which leaves every default. -/
def ofNode? : Yaml.Node → Option Config
  | .mapping entries => do return (← entries.foldlM Draft.takeEntry {}).config
  | .scalar ⟨true, ""⟩ => some {}
  | _ => none

/-- The settings in a text that holds one document or none. -/
def ofDocument? (text : List Char) : Option Config := do
  match ← Yaml.parse? text with
  | none => return {}
  | some node => ofNode? node

end StepRelay.Config
