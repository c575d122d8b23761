import StepRelay.Json.Basic
import StepRelay.Json.Fault
import StepRelay.Value.Basic
import StepRelay.Value.Error

/-!
# Values and JSON trees

Two ways lead from values to trees and two back. `toJson` and `ofJson` name the place of a number
that cannot pass: a double that is not finite on the way out, an integer above the signed 64-bit
range on the way in. `toTree` and `ofTree` report the number alone, as a reader or writer does that
has no place to name.
-/

namespace StepRelay.Value

/-- The path of the item at `index` of the sequence at `path`. -/
def indexPath (path : String) (index : Nat) : String := path ++ "[" ++ toString index ++ "]"

/-- The path of the item under `key` of the mapping at `path`. -/
def keyPath (path : String) (key : String) : String := path ++ "." ++ key

/-- An integer as a number of a tree. -/
def intNumber (n : Int64) : Json.Number :=
  .integer n.toInt ⟨n.le_toInt, Int.lt_trans n.toInt_lt (by decide)⟩

/-! ### From values to trees

The path is carried along, and used only where something fails.
-/

mutual

/-- The tree of the value at `path`. -/
def toJsonAt (path : String) : Value → Except ValueError Json
  | null => .ok .null
  | bool flag => .ok (.bool flag)
  | int n => .ok (.number (intNumber n))
  | float d =>
    if h : d.isFinite = true then .ok (.number (.double d h)) else .error (.nonFinite path d)
  | string text => .ok (.string text)
  | sequence items => do return .array (← itemsToJson path 0 items)
  | mapping entries => do return .object (← entriesToJson path entries)

/-- The trees of the items from `index` on of the sequence at `path`. -/
def itemsToJson (path : String) (index : Nat) : List Value → Except ValueError (List Json)
  | [] => .ok []
  | item :: rest => do
    let first ← toJsonAt (indexPath path index) item
    return first :: (← itemsToJson path (index + 1) rest)

/-- The members of the mapping at `path`. -/
def entriesToJson (path : String) :
    List (String × Value) → Except ValueError (List (String × Json))
  | [] => .ok []
  | (key, item) :: rest => do
    let first ← toJsonAt (keyPath path key) item
    return (key, first) :: (← entriesToJson path rest)

end

/-- The tree of a value; fails at the first double that is not finite. -/
def toJson (value : Value) : Except ValueError Json := toJsonAt "$" value

mutual

/-- The tree of a value; fails with the first double that is not finite. -/
def toTree : Value → Except Double Json
  | null => .ok .null
  | bool flag => .ok (.bool flag)
  | int n => .ok (.number (intNumber n))
  | float d => if h : d.isFinite = true then .ok (.number (.double d h)) else .error d
  | string text => .ok (.string text)
  | sequence items => do return .array (← itemsToTrees items)
  | mapping entries => do return .object (← entriesToTrees entries)

/-- The trees of the items of a sequence. -/
def itemsToTrees : List Value → Except Double (List Json)
  | [] => .ok []
  | item :: rest => do
    let first ← item.toTree
    return first :: (← itemsToTrees rest)

/-- The members of a mapping. -/
def entriesToTrees : List (String × Value) → Except Double (List (String × Json))
  | [] => .ok []
  | (key, item) :: rest => do
    let first ← item.toTree
    return (key, first) :: (← entriesToTrees rest)

end

/-! ### From trees to values

Integers above the signed 64-bit range have no value; nothing else of a tree is refused.
-/

mutual

/-- The value of the tree at `path`. -/
def ofJsonAt (path : String) : Json → Except ValueError Value
  | .null => .ok null
  | .bool flag => .ok (bool flag)
  | .number (.integer n _) =>
    if n < Nat.pow 2 63 then .ok (int (.ofInt n)) else .error (.integerOutOfRange path n)
  | .number (.double d _) => .ok (float d)
  | .string text => .ok (string text)
  | .array items => do return sequence (← itemsOfJson path 0 items)
  | .object members => do return mapping (← entriesOfJson path members)

/-- The values of the items from `index` on of the array at `path`. -/
def itemsOfJson (path : String) (index : Nat) : List Json → Except ValueError (List Value)
  | [] => .ok []
  | item :: rest => do
    let first ← ofJsonAt (indexPath path index) item
    return first :: (← itemsOfJson path (index + 1) rest)

/-- The entries of the object at `path`. -/
def entriesOfJson (path : String) :
    List (String × Json) → Except ValueError (List (String × Value))
  | [] => .ok []
  | (key, item) :: rest => do
    let first ← ofJsonAt (keyPath path key) item
    return (key, first) :: (← entriesOfJson path rest)

end

/-- The value of a tree; fails at the first integer above the signed 64-bit range. -/
def ofJson (json : Json) : Except ValueError Value := ofJsonAt "$" json

/-- The value of a number, unless it is an integer above the signed 64-bit range. -/
def ofNumber : Json.Number → Except Json.Mismatch Value
  | .integer n _ => if n < Nat.pow 2 63 then .ok (int (.ofInt n)) else .error (.integerTooLarge n)
  | .double d _ => .ok (float d)

mutual

/-- The value of a tree; fails with the first integer above the signed 64-bit range. -/
def ofTree : Json → Except Json.Mismatch Value
  | .null => .ok null
  | .bool flag => .ok (bool flag)
  | .number n => ofNumber n
  | .string text => .ok (string text)
  | .array items => do return sequence (← itemsOfTrees items)
  | .object members => do return mapping (← entriesOfTrees members)

/-- The values of the items of an array. -/
def itemsOfTrees : List Json → Except Json.Mismatch (List Value)
  | [] => .ok []
  | item :: rest => do
    let first ← ofTree item
    return first :: (← itemsOfTrees rest)

/-- The entries of an object. -/
def entriesOfTrees : List (String × Json) → Except Json.Mismatch (List (String × Value))
  | [] => .ok []
  | (key, item) :: rest => do
    let first ← ofTree item
    return (key, first) :: (← entriesOfTrees rest)

end

end StepRelay.Value
