import StepRelay.Double.Layout

/-!
# Why a value has no wire form
-/

namespace StepRelay

/-- Why a value cannot be carried by JSON text, or a text holds no value. A path begins with `$` and
names the way to the culprit. -/
inductive ValueError where
  | nonFinite (path : String) (number : Double)
  | integerOutOfRange (path : String) (number : Int)
  | encoding (message : String)
  deriving DecidableEq

def ValueError.message : ValueError → String
  | nonFinite path number =>
    s!"non-finite number {number.plainText} at '{path}' has no wire representation"
  | integerOutOfRange path number =>
    s!"integer {number} at '{path}' does not fit in a signed 64-bit integer"
  | encoding message => s!"value encoding failed: {message}"

/-- The refusal of a number by a writer that does not know the way to it. -/
def Double.refusal (d : Double) : String :=
  s!"non-finite number {d.plainText} has no wire representation"

end StepRelay
