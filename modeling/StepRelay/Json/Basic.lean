import StepRelay.Double.Basic
import StepRelay.OrderedMap

/-!
# JSON trees

A `Json.Number` is an integer of a signed or unsigned 64-bit word, or a finite double: the numbers
that a reader of JSON texts can deliver. The members of an object keep their order;
`Json.WellFormed` says that no key occurs twice in an object, wherever the object stands.
-/

namespace StepRelay

/-- A number of a JSON text. -/
inductive Json.Number where
  | integer (value : Int) (fits : -Nat.pow 2 63 ≤ value ∧ value < Nat.pow 2 64)
  | double (value : Double) (finite : value.isFinite = true)
  deriving DecidableEq

/-- A JSON tree. -/
inductive Json where
  | null
  | bool (flag : Bool)
  | number (number : Json.Number)
  | string (text : String)
  | array (items : List Json)
  | object (members : List (String × Json))

namespace Json

instance : Inhabited Json := ⟨null⟩

/-- The integer as a number, if it fits. -/
def Number.ofInt? (n : Int) : Option Number :=
  if h : -Nat.pow 2 63 ≤ n ∧ n < Nat.pow 2 64 then some (.integer n h) else none

/-- A double as a number, if it is finite. -/
def Number.ofDouble? (d : Double) : Option Number :=
  if h : d.isFinite = true then some (.double d h) else none

mutual

/-- How many brackets enclose the innermost item: a scalar has depth zero, an empty array one. -/
def depth : Json → Nat
  | array items => depthOfItems items + 1
  | object members => depthOfMembers members + 1
  | _ => 0

/-- The depth of the deepest item. -/
def depthOfItems : List Json → Nat
  | [] => 0
  | item :: rest => max item.depth (depthOfItems rest)

/-- The depth of the deepest member. -/
def depthOfMembers : List (String × Json) → Nat
  | [] => 0
  | (_, item) :: rest => max item.depth (depthOfMembers rest)

end

mutual

/-- The keys of every object in the tree are distinct. -/
def WellFormed : Json → Prop
  | array items => ItemsWellFormed items
  | object members => (Entries.keys members).Nodup ∧ MembersWellFormed members
  | _ => True

def ItemsWellFormed : List Json → Prop
  | [] => True
  | item :: rest => item.WellFormed ∧ ItemsWellFormed rest

def MembersWellFormed : List (String × Json) → Prop
  | [] => True
  | (_, item) :: rest => item.WellFormed ∧ MembersWellFormed rest

end

end Json

end StepRelay
