import StepRelay.Double.Decimal

/-!
# Written forms of a binary64 number

Both forms write the digits of `Double.shortest`. The *wire* form is a JSON number: positional with
at least one fraction digit for magnitudes from `1e-5` up to `1e16`, else with a signed exponent.
The *plain* form, used in messages, is positional throughout and also names the numbers that JSON
lacks.
-/

namespace StepRelay.Decimal

/-- The digits of the coefficient. -/
def digits (d : Decimal) : List Char := Nat.toDigits 10 d.coefficient

/-- How many digits stand before the decimal point. -/
def pointPlace (d : Decimal) : Int := d.digits.length + d.exponent

def sign (d : Decimal) : List Char := if d.negative then ['-'] else []

/-- Digits before and after a decimal point, padded with zeros where the point falls outside them;
the digits before the point are never missing. -/
def positionalParts (d : Decimal) : List Char × List Char :=
  let place := d.pointPlace
  if place ≤ 0 then (['0'], List.replicate (-place).toNat '0' ++ d.digits)
  else if 0 ≤ d.exponent then (d.digits ++ List.replicate d.exponent.toNat '0', [])
  else (d.digits.take place.toNat, d.digits.drop place.toNat)

/-- Positional notation that always has a fraction: a whole number ends in `.0`. -/
def positional (d : Decimal) : List Char :=
  let (whole, fraction) := d.positionalParts
  d.sign ++ whole ++ '.' :: (if fraction = [] then ['0'] else fraction)

/-- Positional notation without a fraction for a whole number. -/
def positionalShort (d : Decimal) : List Char :=
  let (whole, fraction) := d.positionalParts
  d.sign ++ whole ++ (if fraction = [] then [] else '.' :: fraction)

/-- One digit before the point, the others behind it, and an exponent that always has a sign. -/
def scientific (d : Decimal) : List Char :=
  let exponent := d.pointPlace - 1
  let mantissa := match d.digits with
    | [] => []
    | [c] => [c]
    | c :: rest => c :: '.' :: rest
  d.sign ++ mantissa ++
    'e' :: (if exponent < 0 then '-' else '+') :: Nat.toDigits 10 exponent.natAbs

/-- The JSON form: positional with one to sixteen digits before the point or at most four zeros
behind it, else scientific. -/
def wireText (d : Decimal) : List Char :=
  if d.coefficient = 0 then d.sign ++ ['0', '.', '0']
  else if -5 < d.pointPlace ∧ d.pointPlace ≤ 16 then d.positional
  else d.scientific

end StepRelay.Decimal

namespace StepRelay.Double

/-- The JSON form of a finite number. -/
def wireText (d : Double) : List Char := (d.shortest .toEven).wireText

/-- The form used in messages: never an exponent, and names for what is not finite. -/
def plainText (d : Double) : String :=
  if d.isNaN then "NaN"
  else if d.isInfinite then (if d.negative then "-inf" else "inf")
  else if d.isZero then (if d.negative then "-0" else "0")
  else .ofList (d.shortest .up).positionalShort

end StepRelay.Double
