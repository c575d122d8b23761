import StepRelay.Double.Basic
import StepRelay.OrderedMap

/-!
# Values exchanged between steps

A `Value` is a scalar, a sequence or a string-keyed mapping whose entries keep their order. The keys
of a mapping are meant to be distinct; the constructors do not enforce it, so `Value.WellFormed`
says it of a whole value. `Value.equals` is the equality that steps observe: numeric on doubles and
blind to the order of mapping entries.
-/

namespace StepRelay

/-- A scalar or structured datum. -/
inductive Value where
  | null
  | bool (flag : Bool)
  | int (number : Int64)
  | float (number : Double)
  | string (text : String)
  | sequence (items : List Value)
  | mapping (entries : List (String × Value))

namespace Value

instance : Inhabited Value := ⟨null⟩

/-- The label of a value's outermost type. -/
def typeName : Value → String
  | null => "null"
  | bool _ => "boolean"
  | int _ => "integer"
  | float _ => "float"
  | string _ => "string"
  | sequence _ => "sequence"
  | mapping _ => "mapping"

/-! ### Reading a value's content

Each of these answers only if the value is of the asked kind; nothing is converted, but for an
integer that is asked for as a double.
-/

def isNull : Value → Bool
  | null => true
  | _ => false

def asBool? : Value → Option Bool
  | bool flag => some flag
  | _ => none

/-- The integer; a float is not truncated. -/
def asInt? : Value → Option Int64
  | int number => some number
  | _ => none

/-- The number as a double; an integer is widened to the nearest one. -/
def asDouble? : Value → Option Double
  | int number => some (.ofInt number.toInt)
  | float number => some number
  | _ => none

def asString? : Value → Option String
  | string text => some text
  | _ => none

def asSequence? : Value → Option (List Value)
  | sequence items => some items
  | _ => none

def asMapping? : Value → Option (Entries Value)
  | mapping entries => some entries
  | _ => none

/-- The item under `key`, if the value is a mapping that has one. -/
def get? (value : Value) (key : String) : Option Value :=
  value.asMapping?.bind fun entries => Entries.get? entries key

/-- A mapping that keeps the order, the first place and the last item of each key. -/
def ofMap (map : OrderedMap Value) : Value := mapping map.entries

/-- An absent value is null. -/
def ofOption : Option Value → Value
  | none => null
  | some value => value

/-! ### Properties of a whole value

Said of a value and of everything in it, by recursion over its items and entries.
-/

mutual

/-- How many brackets enclose the innermost item: a scalar has depth zero, an empty sequence one. -/
def depth : Value → Nat
  | sequence items => depthOfItems items + 1
  | mapping entries => depthOfEntries entries + 1
  | _ => 0

/-- The depth of the deepest item. -/
def depthOfItems : List Value → Nat
  | [] => 0
  | item :: rest => max item.depth (depthOfItems rest)

/-- The depth of the deepest entry. -/
def depthOfEntries : List (String × Value) → Nat
  | [] => 0
  | (_, item) :: rest => max item.depth (depthOfEntries rest)

end

mutual

/-- Every double in the value is finite. -/
def AllFinite : Value → Prop
  | float number => number.isFinite = true
  | sequence items => ItemsAllFinite items
  | mapping entries => EntriesAllFinite entries
  | _ => True

/-- And so is every double in the items of a sequence. -/
def ItemsAllFinite : List Value → Prop
  | [] => True
  | item :: rest => item.AllFinite ∧ ItemsAllFinite rest

/-- And in the entries of a mapping. -/
def EntriesAllFinite : List (String × Value) → Prop
  | [] => True
  | (_, item) :: rest => item.AllFinite ∧ EntriesAllFinite rest

end

mutual

/-- The keys of every mapping in the value are distinct. -/
def WellFormed : Value → Prop
  | sequence items => ItemsWellFormed items
  | mapping entries => (Entries.keys entries).Nodup ∧ EntriesWellFormed entries
  | _ => True

/-- So it is in the items of a sequence. -/
def ItemsWellFormed : List Value → Prop
  | [] => True
  | item :: rest => item.WellFormed ∧ ItemsWellFormed rest

/-- And in the entries of a mapping. -/
def EntriesWellFormed : List (String × Value) → Prop
  | [] => True
  | (_, item) :: rest => item.WellFormed ∧ EntriesWellFormed rest

end

/-! ### Equality

Compared level by level. Of a mapping the second side is searched for each key of the first, and the
numbers of entries are compared.
-/

mutual

/-- Equality of values: variants never mix, doubles compare as numbers, sequences in order, and
mappings by look-up, so the order of their entries does not matter. -/
def equals : Value → Value → Bool
  | null, null => true
  | bool a, bool b => a == b
  | int a, int b => a == b
  | float a, float b => a.equals b
  | string a, string b => a == b
  | sequence a, sequence b => itemsEqual a b
  | mapping a, mapping b => a.length == b.length && entriesMatched a b
  | _, _ => false

/-- Equality item by item. -/
def itemsEqual : List Value → List Value → Bool
  | [], [] => true
  | a :: as, b :: bs => a.equals b && itemsEqual as bs
  | _, _ => false

/-- Every entry of the first list has an equal item under its key in the second. -/
def entriesMatched : List (String × Value) → List (String × Value) → Bool
  | [], _ => true
  | (key, a) :: rest, others =>
    (match Entries.get? others key with
      | some b => a.equals b
      | none => false) && entriesMatched rest others

end

end Value

end StepRelay
