import StepRelay.Double.Basic

/-!
# Decimal numerals and the shortest one that reads back

A `Decimal` is a sign, a coefficient and a power of ten. `Decimal.toDouble` is the correctly rounded
reading of one. `Double.shortest` goes back: among the decimals that read back as the number it
takes one with the fewest digits, of two such the nearer, and of two equally near the one that the
caller's rule for ties says.
-/

namespace StepRelay

/-- The decimal number `coefficient * 10 ^ exponent` with its sign. -/
structure Decimal where
  negative : Bool
  coefficient : Nat
  exponent : Int
  deriving DecidableEq

namespace Decimal

/-- The binary64 number nearest to a decimal; a tie goes to the even fraction.

A coefficient of at least one with an exponent above 310 is beyond the largest number. A coefficient
below `2 ^ (3 * k)` is below `10 ^ k`, so with an exponent of `-330 - k` the decimal is below half
of the smallest positive number. Both cases are settled before any power of ten is formed. -/
def toDouble (d : Decimal) : Double :=
  if d.coefficient = 0 then .zero d.negative
  else if 310 < d.exponent then .infinity d.negative
  else if (d.coefficient.log2 : Int) < 3 * (-330 - d.exponent) then .zero d.negative
  else
    .nearest d.negative (d.coefficient * Nat.pow 10 d.exponent.toNat * Nat.pow 2 1074)
      (Nat.pow 10 (-d.exponent).toNat)

/-- Removes up to `n` trailing zeros of the coefficient. -/
def trim : Nat → Decimal → Decimal
  | 0, d => d
  | n + 1, d =>
    if d.coefficient % 10 = 0 ∧ d.coefficient ≠ 0 then
      trim n { d with coefficient := d.coefficient / 10, exponent := d.exponent + 1 }
    else d

end Decimal

/-- Which of two equally near neighbours is taken. -/
inductive Tie where
  | toEven
  | up
  deriving DecidableEq

/-- Whether a number whose excess over the lower neighbour is `excess / span` of the grid goes to
the lower one, `below`. -/
def Tie.takesLower (tie : Tie) (below excess span : Nat) : Bool :=
  match compare (2 * excess) span, tie with
  | .lt, _ => true
  | .gt, _ => false
  | .eq, .toEven => below % 2 == 0
  | .eq, .up => false

namespace Double

/-- Whether the magnitude is at least `10 ^ p`. -/
def reachesPower (d : Double) (p : Int) : Bool :=
  Nat.pow 10 p.toNat * Nat.pow 2 1074 ≤ d.units * Nat.pow 10 (-p).toNat

/-- How many digits the magnitude has before its decimal point, negative for a number below one
tenth: the `p` with `10 ^ (p - 1) ≤ |d| < 10 ^ p`.

The logarithm to base two, times that of two to base ten, is off by less than one. -/
def pointPlace (d : Double) : Int :=
  let guess := ((d.units.log2 : Int) - 1074) * 30103 / 100000
  if d.reachesPower (guess + 1) then guess + 2
  else if d.reachesPower guess then guess + 1
  else guess

/-- The decimals with `digits` digits on both sides of a number, the preferred one first. -/
def neighbours (tie : Tie) (d : Double) (digits : Nat) : List Decimal :=
  let exponent := d.pointPlace - digits
  let numerator := d.units * Nat.pow 10 (-exponent).toNat
  let denominator := Nat.pow 2 1074 * Nat.pow 10 exponent.toNat
  let below := numerator / denominator
  let lower := Decimal.trim digits ⟨d.negative, below, exponent⟩
  let upper := Decimal.trim digits ⟨d.negative, below + 1, exponent⟩
  if tie.takesLower below (numerator % denominator) denominator then [lower, upper]
  else [upper, lower]

/-- The decimal that a number is, with all its digits. -/
def exactDecimal (d : Double) : Decimal := ⟨d.negative, d.units * Nat.pow 5 1074, -1074⟩

/-- The decimal with the fewest digits that reads back as the number. Seventeen digits are always
enough, so the search ends there. -/
def shortest (tie : Tie) (d : Double) : Decimal :=
  if d.isZero then ⟨d.negative, 0, 0⟩
  else
    let candidates := (List.range 17).flatMap fun n => d.neighbours tie (n + 1)
    (candidates.find? fun c => c.toDouble == d).getD d.exactDecimal

end Double

end StepRelay
