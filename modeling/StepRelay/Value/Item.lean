import StepRelay.Value.Tree

/-!
# Values from the items of a data source

An `Item` is one thing that a typed data source can offer. Integers of every width, texts, sequences
and string-keyed mappings become values; what has no variant is refused.
-/

namespace StepRelay

/-- What a data source offers. -/
inductive Item where
  | unit
  | absent
  | present (item : Item)
  | bool (flag : Bool)
  | signed (n : Int)
  | unsigned (n : Nat)
  | wide (n : Int) (typeName : String)
  | double (d : Double)
  | text (text : String)
  | bytes
  | sequence (items : List Item)
  | mapping (entries : List (String × Item))
  | integerKeyed (firstKey : Int)

namespace Value

/-- What a value may be made of. -/
def expectation : String := "a null, boolean, number, string, sequence or string-keyed mapping"

mutual

/-- The value of an item. -/
def ofItem : Item → Except Json.Mismatch Value
  | .unit => .ok null
  | .absent => .ok null
  | .present item => ofItem item
  | .bool flag => .ok (bool flag)
  | .signed n => .ok (int (.ofInt n))
  | .unsigned n => if n < Nat.pow 2 63 then .ok (int (.ofInt n)) else .error (.integerTooLarge n)
  | .wide n typeName => .error (.invalidType (.wideInteger n typeName) expectation)
  | .double d => .ok (float d)
  | .text text => .ok (string text)
  | .bytes => .error (.invalidType .bytes expectation)
  | .sequence items => do return sequence (← ofItems items)
  | .mapping entries => do return mapping (Entries.merge (← ofEntries entries))
  | .integerKeyed key => .error (.invalidType (.integer key) "a string")

/-- The values of the items of a sequence; the first that has none is reported. -/
def ofItems : List Item → Except Json.Mismatch (List Value)
  | [] => .ok []
  | item :: rest => do
    let first ← ofItem item
    return first :: (← ofItems rest)

/-- The values of the entries of a mapping, under the same keys. -/
def ofEntries : List (String × Item) → Except Json.Mismatch (List (String × Value))
  | [] => .ok []
  | (key, item) :: rest => do
    let first ← ofItem item
    return (key, first) :: (← ofEntries rest)

end

end Value

end StepRelay
