/-!
# Binary64 numbers

A `Double` is a binary64 number kept as its three fields, so that every question about it is
arithmetic on naturals. The magnitude of a finite number is counted in `units` of `2 ^ -1074`,
the smallest positive number of the format; rounding goes the other way, from a quotient of
naturals counted in the same unit.
-/

namespace StepRelay

/-- A binary64 number by its fields: sign, biased exponent and fraction. -/
structure Double where
  negative : Bool
  exponent : BitVec 11
  fraction : BitVec 52
  deriving DecidableEq

namespace Double

/-! ### The word of a number

Sign, exponent and fraction are the digits of the word from its highest bit down.
-/

/-- The number whose 64-bit word is `word`; bits above the sixty-fourth are ignored. -/
def ofBits (word : Nat) : Double where
  negative := word / Nat.pow 2 63 % 2 = 1
  exponent := .ofNat 11 (word / Nat.pow 2 52)
  fraction := .ofNat 52 word

/-- The 64-bit word of a number. -/
def toBits (d : Double) : Nat :=
  (if d.negative then Nat.pow 2 63 else 0) + d.exponent.toNat * Nat.pow 2 52 + d.fraction.toNat

/-! ### Classes

The exponent field tells finite numbers from the others, and the fraction tells an infinity from a
NaN.
-/

/-- Neither infinite nor a NaN: the exponent field is not all ones. -/
def isFinite (d : Double) : Bool := d.exponent != 2047

def isNaN (d : Double) : Bool := !d.isFinite && d.fraction != 0

def isInfinite (d : Double) : Bool := !d.isFinite && d.fraction == 0

def isZero (d : Double) : Bool := d.exponent == 0 && d.fraction == 0

def zero (negative : Bool) : Double := ⟨negative, 0, 0⟩

def infinity (negative : Bool) : Double := ⟨negative, 2047, 0⟩

/-- The quiet NaN without payload. -/
def nan : Double := ⟨false, 2047, .ofNat 52 (Nat.pow 2 51)⟩

/-- Numeric equality: a NaN equals nothing, and the two zeros equal each other. -/
def equals (a b : Double) : Bool :=
  !a.isNaN && !b.isNaN && (a == b || (a.isZero && b.isZero))

theorem not_isFinite_infinity (negative : Bool) : (infinity negative).isFinite = false := rfl

theorem equals_comm (a b : Double) : a.equals b = b.equals a := by
  have heq : (a == b) = (b == a) := BEq.comm
  unfold equals
  rw [heq]
  cases a.isNaN <;> cases b.isNaN <;> cases a.isZero <;> cases b.isZero <;> rfl

/-! ### Magnitude

Magnitudes are naturals, since each finite number is a whole number of units. Their order is that of
exponent and fraction read as one number.
-/

/-- The magnitude of a finite number, counted in units of `2 ^ -1074`. -/
def units (d : Double) : Nat :=
  if d.exponent = 0 then d.fraction.toNat
  else (Nat.pow 2 52 + d.fraction.toNat) * Nat.pow 2 (d.exponent.toNat - 1)

/-- The place of a magnitude among all magnitudes, counted from zero: the exponent and fraction
fields read as one number. -/
def rank (d : Double) : Nat := d.exponent.toNat * Nat.pow 2 52 + d.fraction.toNat

/-- The number of a given rank; from the rank of infinity on, infinity. -/
def ofRank (negative : Bool) (rank : Nat) : Double :=
  if rank < 2047 * Nat.pow 2 52 then ⟨negative, .ofNat 11 (rank / Nat.pow 2 52), .ofNat 52 rank⟩
  else infinity negative

/-! ### Rounding

Rounding is to the nearest magnitude, and to an even fraction in a tie. It is defined on quotients
of naturals, so that no intermediate result is rounded.
-/

/-- The natural nearest to `n / d`; a tie goes to the even one. -/
def nearestQuotient (n d : Nat) : Nat :=
  let q := n / d
  let r := n % d
  if 2 * r < d then q else if d < 2 * r then q + 1 else q + q % 2

/-- The number nearest to `n / d` units; a tie goes to the even fraction, and what would need
an exponent beyond the largest is infinite.

Past `2 ^ 53` units the last `log2 - 52` bits do not fit the fraction. One formula then gives the
rank for subnormal and normal numbers alike, and a quotient that rounds up to the next power of
two carries into the exponent by itself. -/
def nearest (negative : Bool) (n d : Nat) : Double :=
  let shift := (n / d).log2 - 52
  ofRank negative (shift * Nat.pow 2 52 + nearestQuotient n (d * Nat.pow 2 shift))

/-- The number nearest to an integer. -/
def ofInt (n : Int) : Double := nearest (n < 0) (n.natAbs * Nat.pow 2 1074) 1

/-- The nearest number with a 24-bit significand and the exponent range of binary32.

Such numbers are the multiples of `2 ^ 925` units, the unit of binary32. -/
def narrow (d : Double) : Double :=
  if d.isFinite then
    let shift := (d.units / Nat.pow 2 925).log2 - 23
    let rounded :=
      nearestQuotient d.units (Nat.pow 2 925 * Nat.pow 2 shift) * Nat.pow 2 (925 + shift)
    if rounded < Nat.pow 2 (128 + 1074) then nearest d.negative rounded 1 else infinity d.negative
  else d

end Double

end StepRelay
