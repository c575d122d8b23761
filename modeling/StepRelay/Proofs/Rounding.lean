import Mathlib.Tactic.Ring
import StepRelay.Double.Layout

/-!
# Rounding and reading back

Rounding depends on the quotient alone, not on the naturals it is written with (`nearest_mul`), a
number of the format is its own rounding (`nearest_units`), and from `2 ^ 2098` units on everything
is infinite (`nearest_overflow`). The exact decimal of a finite number is its units over a power of
ten, so it reads back, and since `Double.shortest` falls back on it, whatever is searched there
reads back as well (`toDouble_shortest`).

## The argument

* `nearest` is shown to depend on the quotient (`nearest_mul`), which lets a decimal be written with
  another power of ten (`toDouble_mul_ten_pow`).
* On the units of a finite number it is the identity: below 53 bits the units are the rank
  (`nearest_of_lt`), above that some zeros are counted by the exponent (`nearest_shifted`).
* The bound on the point of a finite decimal comes from the other end: too many digits before the
  point are beyond the format (`toDouble_of_pointPlace`).
-/

namespace StepRelay

namespace Double

/-! ## Quotients

Rounding to even looks at twice the remainder and at the divisor. Both grow by the factor that
numerator and denominator are expanded by, so the comparison comes out as before.
-/

/-- A quotient is rounded as it is, whatever it was expanded by. -/
theorem nearestQuotient_mul (n d : Nat) {k : Nat} (hk : 0 < k) :
    nearestQuotient (n * k) (d * k) = nearestQuotient n d := by
  have hquotient : n * k / (d * k) = n / d := Nat.mul_div_mul_right n d hk
  have hremainder : n * k % (d * k) = n % d * k := Nat.mul_mod_mul_right k n d
  -- the remainder is compared with half of the divisor, from below and from above
  have hlow : 2 * (n % d * k) < d * k ↔ 2 * (n % d) < d := by
    rw [← Nat.mul_assoc]
    exact Nat.mul_lt_mul_right hk
  have hhigh : d * k < 2 * (n % d * k) ↔ d < 2 * (n % d) := by
    rw [← Nat.mul_assoc]
    exact Nat.mul_lt_mul_right hk
  simp only [nearestQuotient, hquotient, hremainder, hlow, hhigh]

/-- A quotient without remainder is not rounded. -/
theorem nearestQuotient_exact (q : Nat) {d : Nat} (hd : 0 < d) : nearestQuotient (q * d) d = q := by
  have hquotient : q * d / d = q := Nat.mul_div_cancel q hd
  have hremainder : q * d % d = 0 := Nat.mul_mod_left q d
  simp only [nearestQuotient, hquotient, hremainder]
  exact if_pos hd

/-- Rounding goes up from the quotient of naturals, or leaves it. -/
theorem div_le_nearestQuotient (n d : Nat) : n / d ≤ nearestQuotient n d := by
  simp only [nearestQuotient]
  split
  · exact Nat.le_refl _
  split
  · exact Nat.le_succ _
  · exact Nat.le_add_right _ _

/-- Rounding looks at the quotient alone. -/
theorem nearest_mul (negative : Bool) (n d : Nat) {k : Nat} (hk : 0 < k) :
    nearest negative (n * k) (d * k) = nearest negative n d := by
  have hquotient : n * k / (d * k) = n / d := Nat.mul_div_mul_right n d hk
  have hscale : ∀ shift, d * k * Nat.pow 2 shift = d * Nat.pow 2 shift * k :=
    fun shift => Nat.mul_right_comm d k (Nat.pow 2 shift)
  simp only [nearest, hquotient, hscale, nearestQuotient_mul n _ hk]

/-! ## Numbers of the format

Units are multiples of the smallest number of the format, so every finite number is a natural number
of them. Rounding that natural number shifts out zeros only.
-/

/-- The exponent of a finite number is not the last one. -/
theorem exponent_lt {d : Double} (h : d.isFinite = true) : d.exponent.toNat < 2047 := by
  have hne : d.exponent ≠ 2047 := by simpa [isFinite] using h
  have hlt : d.exponent.toNat < 2048 := d.exponent.isLt
  have hvalue : d.exponent.toNat ≠ 2047 := fun heq => hne (BitVec.eq_of_toNat_eq heq)
  omega

/-- A finite number is found at its rank. -/
theorem ofRank_rank {d : Double} (h : d.isFinite = true) : ofRank d.negative d.rank = d := by
  obtain ⟨negative, exponent, fraction⟩ := d
  have hexponent : exponent.toNat < 2047 := exponent_lt h
  have hfraction : fraction.toNat < 2 ^ 52 := fraction.isLt
  have hrank : rank ⟨negative, exponent, fraction⟩ = exponent.toNat * 2 ^ 52 + fraction.toNat := by
    simp only [rank, Nat.pow_eq]
  have hlt : rank ⟨negative, exponent, fraction⟩ < 2047 * Nat.pow 2 52 := by
    rw [hrank, Nat.pow_eq]
    omega
  rw [ofRank, if_pos hlt, hrank, Nat.pow_eq]
  -- the exponent and the fraction come apart again, since the fraction has 52 bits
  congr 1
  · have hquotient : (exponent.toNat * 2 ^ 52 + fraction.toNat) / 2 ^ 52 = exponent.toNat := by
      omega
    rw [hquotient]
    exact BitVec.ofNat_toNat _ exponent
  · apply BitVec.eq_of_toNat_eq
    rw [BitVec.toNat_ofNat]
    omega

/-- Up to 53 bits the units are the rank. -/
theorem nearest_of_lt (negative : Bool) {n : Nat} (h : n < 2 ^ 53) :
    nearest negative n 1 = ofRank negative n := by
  -- nothing is shifted out
  have hlog : n.log2 - 52 = 0 := by
    by_cases hzero : n = 0
    · rw [hzero]
      decide
    · have hlt : n.log2 < 53 := (Nat.log2_lt hzero).2 h
      omega
  have hquotient : nearestQuotient n 1 = n := by
    have hexact := nearestQuotient_exact n Nat.one_pos
    rwa [Nat.mul_one] at hexact
  simp only [nearest, Nat.div_one, hlog, Nat.zero_mul, Nat.zero_add]
  change ofRank negative (nearestQuotient n 1) = _
  rw [hquotient]

/-- 53 bits and some zeros behind them: the zeros are counted by the exponent. -/
theorem nearest_shifted (negative : Bool) {n : Nat} (hlow : 2 ^ 52 ≤ n) (hhigh : n < 2 ^ 53)
    (shift : Nat) :
    nearest negative (n * 2 ^ shift) 1 = ofRank negative (shift * 2 ^ 52 + n) := by
  have hpos : 0 < 2 ^ shift := Nat.two_pow_pos shift
  have hlog : (n * 2 ^ shift).log2 - 52 = shift := by
    have hne : n * 2 ^ shift ≠ 0 := Nat.ne_of_gt (Nat.mul_pos (by omega) hpos)
    have hlog : (n * 2 ^ shift).log2 = 52 + shift := by
      rw [Nat.log2_eq_iff hne, Nat.add_right_comm, Nat.pow_add, Nat.pow_add]
      exact ⟨Nat.mul_le_mul_right _ hlow, Nat.mul_lt_mul_of_pos_right hhigh hpos⟩
    omega
  simp only [nearest, Nat.div_one, hlog, Nat.one_mul, Nat.pow_eq, nearestQuotient_exact n hpos]

/-- **A finite number is its own rounding.** -/
theorem nearest_units {d : Double} (h : d.isFinite = true) : nearest d.negative d.units 1 = d := by
  have hfraction : d.fraction.toNat < 2 ^ 52 := d.fraction.isLt
  rw [units]
  by_cases hzero : d.exponent = 0
  · have hrank : d.rank = d.fraction.toNat := by
      rw [rank, hzero]
      simp
    rw [if_pos hzero, nearest_of_lt d.negative (by omega), ← hrank, ofRank_rank h]
  · -- a normal number has one more bit in front of its fraction
    have hexponent : 1 ≤ d.exponent.toNat := by
      have hne : d.exponent.toNat ≠ 0 := fun heq => hzero (BitVec.eq_of_toNat_eq heq)
      omega
    have hrank : d.rank = (d.exponent.toNat - 1) * 2 ^ 52 + (2 ^ 52 + d.fraction.toNat) := by
      simp only [rank, Nat.pow_eq]
      omega
    simp only [if_neg hzero, Nat.pow_eq]
    rw [nearest_shifted d.negative (Nat.le_add_right _ _) (by omega), ← hrank, ofRank_rank h]

/-- A quotient of too many bits is infinite, wherever it is rounded to. -/
theorem nearest_of_log2 (negative : Bool) {n d shift : Nat} (hlog : (n / d).log2 = 52 + shift)
    (hshift : 2046 ≤ shift) : nearest negative n d = infinity negative := by
  have hne : n / d ≠ 0 := by
    intro hzero
    rw [hzero, Nat.log2_zero] at hlog
    omega
  have hsignificand : 2 ^ 52 ≤ nearestQuotient n (d * 2 ^ shift) := by
    have hself : 2 ^ 52 * 2 ^ shift ≤ n / d := by
      rw [← Nat.pow_add, ← hlog]
      exact Nat.log2_self_le hne
    calc 2 ^ 52 = 2 ^ 52 * 2 ^ shift / 2 ^ shift :=
          (Nat.mul_div_cancel _ (Nat.two_pow_pos shift)).symm
      _ ≤ n / d / 2 ^ shift := Nat.div_le_div_right hself
      _ = n / (d * 2 ^ shift) := Nat.div_div_eq_div_mul n d (2 ^ shift)
      _ ≤ nearestQuotient n (d * 2 ^ shift) := div_le_nearestQuotient n _
  -- the significand keeps its 53 bits, so the rank is past the last exponent
  have hrank : ¬ shift * Nat.pow 2 52 + nearestQuotient n (d * Nat.pow 2 shift) <
      2047 * Nat.pow 2 52 := by
    simp only [Nat.pow_eq]
    omega
  have hexcess : (n / d).log2 - 52 = shift := by omega
  simp only [nearest, hexcess]
  rw [ofRank, if_neg hrank]

/-- **Beyond the largest number everything is infinite.** -/
theorem nearest_overflow (negative : Bool) {n d bits : Nat} (hbits : 2098 ≤ bits)
    (h : 2 ^ bits ≤ n / d) : nearest negative n d = infinity negative := by
  have hpos : 0 < n / d := Nat.lt_of_lt_of_le (Nat.two_pow_pos bits) h
  have hlog : bits ≤ (n / d).log2 := (Nat.le_log2 (Nat.ne_of_gt hpos)).2 h
  -- as many bits as there are more than 2098 are shifted out
  obtain ⟨excess, hexcess⟩ := Nat.exists_eq_add_of_le (Nat.le_trans hbits hlog)
  have hshift : (n / d).log2 = 52 + (2046 + excess) := by
    rw [hexcess, ← Nat.add_assoc]
  exact nearest_of_log2 negative hshift (Nat.le_add_right _ _)

end Double

/-! ## Decimals

Very large and very small exponents are settled before a power of ten is computed. What is left is a
quotient of two naturals.
-/

namespace Decimal

/-- What is not settled early is one rounded quotient. -/
theorem toDouble_eq_nearest (negative : Bool) {coefficient : Nat} {exponent : Int}
    (hne : coefficient ≠ 0) (hhigh : exponent ≤ 310)
    (hlow : 3 * (-330 - exponent) ≤ coefficient.log2) :
    toDouble ⟨negative, coefficient, exponent⟩ =
      .nearest negative (coefficient * Nat.pow 10 exponent.toNat * Nat.pow 2 1074)
        (Nat.pow 10 (-exponent).toNat) := by
  rw [toDouble, if_neg hne, if_neg (Int.not_lt.2 hhigh), if_neg (Int.not_lt.2 hlow)]

/-- A zero moved from the exponent to the coefficient changes nothing. -/
theorem toDouble_mul_ten_pow (negative : Bool) {coefficient exponent : Nat} (hne : coefficient ≠ 0)
    (hexponent : exponent ≤ 310) :
    toDouble ⟨negative, coefficient * 10 ^ (exponent + 1), -1⟩ =
      toDouble ⟨negative, coefficient, exponent⟩ := by
  have hproduct : coefficient * 10 ^ (exponent + 1) ≠ 0 :=
    Nat.mul_ne_zero hne (Nat.ne_of_gt (Nat.pow_pos (by decide)))
  have hzero : (-1 : Int).toNat = 0 := rfl
  have hone : (- -1 : Int).toNat = 1 := rfl
  have hneg : (-(exponent : Int)).toNat = 0 := by omega
  rw [toDouble_eq_nearest negative hproduct (by decide) (by omega),
    toDouble_eq_nearest negative hne (by omega) (by omega), hzero, hone, hneg, Int.toNat_natCast]
  -- both sides are one quotient, written with and without a factor of ten
  generalize Nat.pow 2 1074 = unit
  have hscale := Double.nearest_mul negative (coefficient * 10 ^ exponent * unit) 1
    (show 0 < 10 by decide)
  have hnumerator : coefficient * 10 ^ (exponent + 1) * 10 ^ 0 * unit =
      coefficient * 10 ^ exponent * unit * 10 := by ring
  simp only [Nat.pow_eq]
  rw [hnumerator]
  exact hscale

/-- A coefficient is at least the power of ten that its length stands for. -/
theorem ten_pow_le_coefficient {d : Decimal} (hne : d.coefficient ≠ 0) :
    10 ^ (d.digits.length - 1) ≤ d.coefficient := by
  by_cases hlength : d.digits.length - 1 = 0
  · rw [hlength]
    exact Nat.pos_of_ne_zero hne
  · have hmore : ¬ d.digits.length ≤ d.digits.length - 1 := by omega
    have hiff := Nat.length_toDigits_le_iff (b := 10) (n := d.coefficient) (by decide)
      (Nat.pos_of_ne_zero hlength)
    exact Nat.not_lt.1 fun hlt => hmore (hiff.2 hlt)

/-- A coefficient that is settled as too small has few digits. -/
theorem pointPlace_le_of_log2 {d : Decimal} (hne : d.coefficient ≠ 0)
    (hlow : (d.coefficient.log2 : Int) < 3 * (-330 - d.exponent)) : d.pointPlace ≤ 310 := by
  obtain ⟨k, hk⟩ : ∃ k : Nat, -330 - d.exponent = k :=
    ⟨(-330 - d.exponent).toNat, by omega⟩
  have hlog : d.coefficient.log2 < 3 * k := by omega
  -- three bits are less than one digit
  have hlt : 10 ^ (d.digits.length - 1) < 10 ^ k :=
    calc 10 ^ (d.digits.length - 1) ≤ d.coefficient := ten_pow_le_coefficient hne
      _ < 2 ^ (3 * k) := (Nat.log2_lt hne).1 hlog
      _ = 8 ^ k := Nat.pow_mul 2 3 k
      _ ≤ 10 ^ k := Nat.pow_le_pow_left (by decide) k
  have hlength : d.digits.length - 1 < k := (Nat.pow_lt_pow_iff_right (by decide)).1 hlt
  rw [pointPlace]
  omega

/-- A decimal of more than 310 digits before its point is beyond the format. -/
theorem toDouble_of_pointPlace {d : Decimal} (hne : d.coefficient ≠ 0) (hhigh : d.exponent ≤ 310)
    (hlow : 3 * (-330 - d.exponent) ≤ d.coefficient.log2) (hplace : 310 < d.pointPlace) :
    d.toDouble = .infinity d.negative := by
  have hread : d.toDouble = _ := toDouble_eq_nearest d.negative hne hhigh hlow
  rw [hread]
  -- the digits before the point are those of the coefficient and the zeros of the exponent
  have hdigits : 310 + (-d.exponent).toNat ≤ d.digits.length - 1 + d.exponent.toNat := by
    rw [pointPlace] at hplace
    omega
  obtain ⟨bits, tens, hbits, htens, htop⟩ :
      ∃ bits tens, 1024 ≤ bits ∧ tens ≤ 310 ∧ 2 ^ bits ≤ 10 ^ tens :=
    ⟨1024, 310, Nat.le_refl _, Nat.le_refl _, by decide +kernel⟩
  have hscaled : 2 ^ bits * 10 ^ (-d.exponent).toNat ≤ d.coefficient * 10 ^ d.exponent.toNat :=
    calc 2 ^ bits * 10 ^ (-d.exponent).toNat
        ≤ 10 ^ tens * 10 ^ (-d.exponent).toNat := Nat.mul_le_mul_right _ htop
      _ = 10 ^ (tens + (-d.exponent).toNat) := (Nat.pow_add 10 tens _).symm
      _ ≤ 10 ^ (d.digits.length - 1 + d.exponent.toNat) :=
          Nat.pow_le_pow_right (by decide) (by omega)
      _ = 10 ^ (d.digits.length - 1) * 10 ^ d.exponent.toNat := Nat.pow_add 10 _ _
      _ ≤ d.coefficient * 10 ^ d.exponent.toNat :=
          Nat.mul_le_mul_right _ (ten_pow_le_coefficient hne)
  have hpos : 0 < 10 ^ (-d.exponent).toNat := Nat.pow_pos (by decide)
  -- a variable for the exponent, so that no power of it is computed
  obtain ⟨unit, hunit⟩ : ∃ unit, unit = 1074 := ⟨1074, rfl⟩
  rw [← hunit]
  simp only [Nat.pow_eq]
  have hquotient : 2 ^ (bits + unit) ≤
      d.coefficient * 10 ^ d.exponent.toNat * 2 ^ unit / 10 ^ (-d.exponent).toNat := by
    rw [Nat.le_div_iff_mul_le hpos, Nat.pow_add, Nat.mul_right_comm]
    exact Nat.mul_le_mul_right _ hscaled
  exact Double.nearest_overflow d.negative (by omega) hquotient

/-- **A decimal that reads as a finite number has its point within the format.** -/
theorem pointPlace_le {d : Decimal} (hne : d.coefficient ≠ 0) (h : d.toDouble.isFinite = true) :
    d.pointPlace ≤ 310 := by
  by_cases hhigh : 310 < d.exponent
  · rw [toDouble, if_neg hne, if_pos hhigh, Double.not_isFinite_infinity] at h
    cases h
  by_cases hlow : (d.coefficient.log2 : Int) < 3 * (-330 - d.exponent)
  · exact pointPlace_le_of_log2 hne hlow
  · -- between the two, too large a place of the point makes the number infinite
    by_contra hplace
    rw [toDouble_of_pointPlace hne (Int.not_lt.1 hhigh) (Int.not_lt.1 hlow)
      (Int.not_le.1 hplace), Double.not_isFinite_infinity] at h
    cases h

end Decimal

namespace Double

/-- A number that is not zero has units. -/
theorem units_ne_zero {d : Double} (h : d.isZero = false) : d.units ≠ 0 := by
  rw [units]
  split
  · next hexponent =>
    have hfraction : d.fraction ≠ 0 := by simpa [isZero, hexponent] using h
    exact fun hunits => hfraction (BitVec.eq_of_toNat_eq hunits)
  · simp only [Nat.pow_eq]
    exact Nat.mul_ne_zero (by omega) (Nat.ne_of_gt (Nat.two_pow_pos _))

/-- There are two zeros, told apart by the sign. -/
theorem eq_zero_of_isZero {d : Double} (h : d.isZero = true) : d = zero d.negative := by
  obtain ⟨negative, exponent, fraction⟩ := d
  obtain ⟨rfl, rfl⟩ : exponent = 0 ∧ fraction = 0 := by simpa [isZero] using h
  rfl

/-- Fives and twos of a numerator cancel against the tens of its denominator. -/
theorem nearest_five_pow (negative : Bool) (n : Nat) {k up down : Nat} (hup : up = 0)
    (hdown : down = k) :
    nearest negative (n * Nat.pow 5 k * Nat.pow 10 up * Nat.pow 2 k) (Nat.pow 10 down) =
      nearest negative n 1 := by
  have hpos : 0 < 10 ^ k := Nat.pow_pos (by decide)
  have hnumerator : n * 5 ^ k * 10 ^ 0 * 2 ^ k = n * 10 ^ k := by
    rw [Nat.pow_zero, Nat.mul_one, Nat.mul_assoc, ← Nat.mul_pow]
  have hscale := nearest_mul negative n 1 hpos
  rw [Nat.one_mul] at hscale
  subst hup hdown
  simp only [Nat.pow_eq]
  rw [hnumerator, hscale]

/-- **The exact decimal reads back.** -/
theorem toDouble_exactDecimal {d : Double} (hfinite : d.isFinite = true)
    (hzero : d.isZero = false) : d.exactDecimal.toDouble = d := by
  have hunits : 0 < d.units := Nat.pos_of_ne_zero (units_ne_zero hzero)
  have hne : d.units * Nat.pow 5 1074 ≠ 0 :=
    Nat.mul_ne_zero (Nat.ne_of_gt hunits) (by decide +kernel)
  -- the fives alone have bits enough, so the decimal is not settled as too small
  have hlog : 2232 ≤ (d.units * Nat.pow 5 1074).log2 := by
    obtain ⟨bits, hbits, hpower⟩ : ∃ bits, 2232 ≤ bits ∧ 2 ^ bits ≤ Nat.pow 5 1074 :=
      ⟨2232, Nat.le_refl _, by decide +kernel⟩
    have hself := Nat.le_trans hpower (Nat.le_mul_of_pos_left _ hunits)
    exact Nat.le_trans hbits ((Nat.le_log2 hne).2 hself)
  rw [exactDecimal, Decimal.toDouble_eq_nearest d.negative hne (by decide) (by omega)]
  have hup : (-1074 : Int).toNat = 0 := rfl
  have hdown : (- -1074 : Int).toNat = 1074 := rfl
  -- a variable for the exponent, so that no power of it is computed
  obtain ⟨unit, hunit⟩ : ∃ unit, unit = 1074 := ⟨1074, rfl⟩
  rw [← hunit] at hdown ⊢
  rw [nearest_five_pow d.negative d.units hup hdown, nearest_units hfinite]

/-- **The shortest decimal reads back.** -/
theorem toDouble_shortest (tie : Tie) {d : Double} (hfinite : d.isFinite = true) :
    (d.shortest tie).toDouble = d := by
  rw [shortest]
  split
  · next hzero => exact (eq_zero_of_isZero hzero).symm
  · next hzero =>
    have hexact := toDouble_exactDecimal hfinite (Bool.not_eq_true _ ▸ hzero)
    -- what the search finds was tried, and it falls back on the exact decimal
    cases hfind : ((List.range 17).flatMap fun n => d.neighbours tie (n + 1)).find?
        fun c => c.toDouble == d with
    | none => simpa only [hfind, Option.getD_none] using hexact
    | some found =>
      have hfound := List.find?_some hfind
      simpa only [hfind, Option.getD_some, beq_iff_eq] using hfound

end Double

end StepRelay
