import StepRelay.Proofs.Spelling
import StepRelay.Time.Timestamp

/-!
# Timestamps through text and back

What is written of a timestamp is read part by part (`Timestamp.read_text`). Every part is a number
in digits, padded to a width, and ends where the text goes on with something else (`digits_padded`).
Only a year with a sign is read without a limit on its digits.
-/

namespace StepRelay

/-! ## Characters

The readers of the parts skip blanks in front, which must not eat into a part.
-/

theorem Text.isBlank_of_isDigit {c : Char} (h : c.isDigit = true) : isBlank c = false := by
  -- every blank lies outside this range of code points
  have hrange : 48 ≤ c.toNat ∧ c.toNat ≤ 57 := by
    simpa [Char.isDigit, UInt32.le_iff_toNat_le] using h
  simp only [isBlank, Bool.or_eq_false_iff, Bool.and_eq_false_iff, decide_eq_false_iff_not,
    beq_eq_false_iff_ne]
  omega

/-- Nothing is trimmed from a text that begins with something else than a blank. -/
theorem Text.trimStart_cons {c : Char} (h : isBlank c = false) (rest : List Char) :
    trimStart (c :: rest) = c :: rest :=
  List.dropWhile_cons_of_neg (Bool.eq_false_iff.1 h)

namespace Timestamp

open Json (NoDigit noDigit_cons)

/-! ## Padded numbers

Zeros in front add nothing to a number, so only its digits' count has to be watched: a reader takes
no more than its limit.
-/

section Padded

variable {width n : Nat}

/-- A padded number consists of digits. -/
theorem isDigit_of_mem_padded {c : Char} (h : c ∈ padded width n) : c.isDigit = true :=
  (List.mem_append.1 h).elim Json.isDigit_of_mem_replicate
    (Nat.isDigit_of_mem_toDigits (by decide) (by decide))

variable (width n) in
/-- A padded number begins with a digit. -/
theorem padded_head : ∃ c rest, padded width n = c :: rest ∧ c.isDigit = true := by
  cases hpadded : padded width n with
  | nil => exact absurd (List.append_eq_nil_iff.1 hpadded).2 Nat.toDigits_ne_nil
  | cons c rest =>
    exact ⟨c, rest, rfl, isDigit_of_mem_padded (hpadded ▸ List.mem_cons_self)⟩

/-- The zeros in front do not change the number. -/
theorem ofDigitChars_padded : Nat.ofDigitChars 10 (padded width n) 0 = n := by
  rw [padded, Json.ofDigitChars_zeros, Nat.ofDigitChars_toDigits (by decide) (by decide)]

/-- A number that is small enough takes exactly the width. -/
theorem length_padded (hwidth : 0 < width) (h : n < 10 ^ width) :
    (padded width n).length = width := by
  have hdigits := (Nat.length_toDigits_le_iff (by decide) hwidth).2 h
  rw [padded, List.length_append, List.length_replicate, Nat.sub_add_cancel hdigits]

/-- Nothing is trimmed from a padded number. -/
theorem trimStart_padded (rest : List Char) :
    Text.trimStart (padded width n ++ rest) = padded width n ++ rest := by
  obtain ⟨c, others, hpadded, hc⟩ := padded_head width n
  rw [hpadded, List.cons_append, Text.trimStart_cons (Text.isBlank_of_isDigit hc)]

/-- A padded number is read back by a reader that may take all its digits. -/
theorem digits_padded {limit : Nat} (hlimit : (padded width n).length ≤ limit)
    (hn : n < Nat.pow 2 63) {rest : List Char} (hrest : NoDigit rest) :
    digits limit (padded width n ++ rest) = .ok (n, rest) := by
  -- the reader cuts off at its limit, then takes digits: that is the padded number and no more
  have hfound : ((padded width n ++ rest).take limit).takeWhile Char.isDigit = padded width n := by
    rw [List.take_append, List.take_of_length_le hlimit,
      List.takeWhile_append_of_pos fun c => isDigit_of_mem_padded, (hrest.take _).takeWhile,
      List.append_nil]
  obtain ⟨c, others, hpadded, -⟩ := padded_head width n
  have hnonempty : padded width n ≠ [] := by
    rw [hpadded]
    exact List.cons_ne_nil c others
  have htext : padded width n ++ rest ≠ [] := List.append_ne_nil_of_left_ne_nil hnonempty rest
  simp only [digits, hfound, if_neg htext, if_neg hnonempty, ofDigitChars_padded, if_pos hn,
    List.drop_left]

/-- A field of two digits is read back if it is within the bounds. -/
theorem field_padded {low high : Nat} (h : low ≤ n ∧ n ≤ high) (hhigh : high < 100)
    {rest : List Char} (hrest : NoDigit rest) :
    field 2 low high (padded 2 n ++ rest) = .ok (n, rest) := by
  have hsmall : n < 10 ^ 2 := Nat.lt_of_le_of_lt h.2 hhigh
  have hlimit : (padded 2 n).length ≤ 2 := Nat.le_of_eq (length_padded (by decide) hsmall)
  have hn : n < Nat.pow 2 63 := Nat.lt_trans hsmall (by decide)
  rw [field, trimStart_padded, digits_padded hlimit hn hrest]
  exact if_pos h

end Padded

/-! ## The parts of a timestamp

The year, then fields of two digits with a separator before each, and a fraction of a second in
three, six or nine places. Each part is read under the condition that no digit follows it.
-/

/-- A separator is read where it stands. -/
theorem separator_cons {c : Char} (h : Text.isBlank c = false) (rest : List Char) :
    separator c (c :: rest) = .ok rest := by
  rw [separator, Text.trimStart_cons h]
  exact if_pos rfl

section Year

variable {year : Int} (h : -262143 ≤ year ∧ year ≤ 262142) {rest : List Char} (hrest : NoDigit rest)

include h in
/-- A year that a timestamp can have is one that its reader accepts. -/
theorem year_fits : -Nat.pow 2 31 ≤ year ∧ year < Nat.pow 2 31 := by
  have hpow : Nat.pow 2 31 = 2147483648 := rfl
  omega

include h hrest

/-- Behind a sign all digits belong to the year. -/
theorem digits_signed :
    digits (padded 4 year.natAbs ++ rest).length (padded 4 year.natAbs ++ rest) =
      .ok (year.natAbs, rest) := by
  -- the limit is the length of all that follows
  have hlimit : (padded 4 year.natAbs).length ≤ (padded 4 year.natAbs ++ rest).length := by
    rw [List.length_append]
    exact Nat.le_add_right _ _
  have hsmall : year.natAbs ≤ 262143 := by omega
  exact digits_padded hlimit (Nat.lt_of_le_of_lt hsmall (by decide)) hrest

/-- A year is read from its text, which has a sign exactly if four digits do not do. -/
theorem yearField_yearText : yearField (yearText year ++ rest) = .ok (year, rest) := by
  have hfits := year_fits h
  rw [yearText]
  by_cases hplain : 0 ≤ year ∧ year ≤ 9999
  · have hsmall : year.toNat < 10 ^ 4 := by omega
    have hlimit : (padded 4 year.toNat).length ≤ 4 :=
      Nat.le_of_eq (length_padded (by decide) hsmall)
    have hdigits := digits_padded hlimit (Nat.lt_trans hsmall (by decide)) hrest
    have hyear : (year.toNat : Int) = year := Int.toNat_of_nonneg hplain.1
    obtain ⟨c, others, hpadded, hc⟩ := padded_head 4 year.toNat
    rw [if_pos hplain, yearField, trimStart_padded]
    -- a digit in front is no sign
    split
    · next heq =>
      rw [hpadded] at heq
      obtain ⟨rfl, -⟩ := List.cons.inj heq
      cases hc
    · next heq =>
      rw [hpadded] at heq
      obtain ⟨rfl, -⟩ := List.cons.inj heq
      cases hc
    · refine bind_eq_ok_iff.2 ⟨_, hdigits, bind_eq_ok_iff.2 ⟨(year, rest), ?_, if_pos hfits⟩⟩
      rw [hyear]
      rfl
  · -- five or six digits, or a year before the first: there is a sign, and then no limit
    have hdigits := digits_signed h hrest
    rw [if_neg hplain]
    by_cases hnegative : year < 0
    · have hyear : -(year.natAbs : Int) = year := by omega
      rw [if_pos hnegative, List.cons_append, yearField, Text.trimStart_cons rfl]
      refine bind_eq_ok_iff.2 ⟨_, hdigits, bind_eq_ok_iff.2 ⟨(year, rest), ?_, if_pos hfits⟩⟩
      rw [hyear]
      rfl
    · have hyear : (year.natAbs : Int) = year := by omega
      rw [if_neg hnegative, List.cons_append, yearField, Text.trimStart_cons rfl]
      refine bind_eq_ok_iff.2 ⟨_, hdigits, bind_eq_ok_iff.2 ⟨(year, rest), ?_, if_pos hfits⟩⟩
      rw [hyear]
      rfl

end Year

/-- A fraction in a number of places is read in nanoseconds. -/
theorem fraction_padded (places n : Nat) (hplaces : 0 < places ∧ places ≤ 9) (h : n < 10 ^ places)
    {rest : List Char} (hrest : NoDigit rest) :
    fraction ('.' :: (padded places n ++ rest)) = .ok (n * Nat.pow 10 (9 - places), rest) := by
  have hlength := length_padded hplaces.1 h
  have hn : n < Nat.pow 2 63 := by
    have hpow : 10 ^ places ≤ 10 ^ 9 := Nat.pow_le_pow_right (by decide) hplaces.2
    exact Nat.lt_of_lt_of_le h (Nat.le_trans hpow (by decide))
  have hdigits := digits_padded (hlength ▸ hplaces.2) hn hrest
  -- the reader finds out how many places it has read from what is left over
  have htaken : (padded places n ++ rest).length - rest.length = places := by
    rw [List.length_append, hlength, Nat.add_sub_cancel]
  refine bind_eq_ok_iff.2 ⟨_, hdigits, ?_⟩
  simp only [htaken, hrest.dropWhile]

/-- No digit comes between the seconds and the fraction. -/
theorem noDigit_fractionText (n : Nat) (rest : List Char) :
    NoDigit (fractionText n ++ 'Z' :: rest) := by
  unfold fractionText
  -- either the end mark follows at once, or the point of a fraction
  split
  · exact noDigit_cons rfl rest
  · split
    · exact noDigit_cons rfl _
    · split <;> exact noDigit_cons rfl _

/-- A fraction is written in as many places as it needs. -/
theorem fraction_fractionText {n : Nat} (h : n < 1000000000) (rest : List Char) :
    fraction (fractionText n ++ 'Z' :: rest) = .ok (n, 'Z' :: rest) := by
  have hrest : NoDigit ('Z' :: rest) := noDigit_cons rfl rest
  rw [fractionText]
  by_cases hwhole : n = 0
  · rw [if_pos hwhole, hwhole]
    rfl
  -- three, six or nine places, the fewest that hold the number
  by_cases hmillis : n % 1000000 = 0
  · have hread := fraction_padded 3 (n / 1000000) (by decide) (by omega) hrest
    have hback : n / 1000000 * Nat.pow 10 (9 - 3) = n :=
      Nat.div_mul_cancel (Nat.dvd_of_mod_eq_zero hmillis)
    rw [if_neg hwhole, if_pos hmillis, List.cons_append, hread, hback]
  by_cases hmicros : n % 1000 = 0
  · have hread := fraction_padded 6 (n / 1000) (by decide) (by omega) hrest
    have hback : n / 1000 * Nat.pow 10 (9 - 6) = n :=
      Nat.div_mul_cancel (Nat.dvd_of_mod_eq_zero hmicros)
    rw [if_neg hwhole, if_neg hmillis, if_pos hmicros, List.cons_append, hread, hback]
  · have hread := fraction_padded 9 n (by decide) (by omega) hrest
    have hback : n * Nat.pow 10 (9 - 9) = n := Nat.mul_one n
    rw [if_neg hwhole, if_neg hmillis, if_neg hmicros, List.cons_append, hread, hback]

/-- At offset zero the date and the time are those of the timestamp. -/
theorem ofLocal_zero (t : Timestamp) :
    ofLocal t.date.year t.date.month t.date.day (t.minuteOfDay / 60) (t.minuteOfDay % 60) t.second
      t.nanosecond 0 = .ok t := by
  obtain ⟨date, minute, second, nanosecond⟩ := t
  have hdate : Date.make? date.year date.month date.day = some date :=
    dif_pos ⟨date.year_mem, date.month_mem, date.day_mem⟩
  have hbounds : (0 : Int).natAbs < 1440 ∧ second.val < 61 ∧ nanosecond.val < 1000000000 :=
    ⟨by decide, second.isLt, nanosecond.isLt⟩
  -- hours and minutes make up the minute of the day again
  have hminute :
      ((minute.val / 60 : Nat) : Int) * 60 + (minute.val % 60 : Nat) - 0 = minute.val := by
    omega
  have hday : ¬ (minute.val : Int) < 0 ∧ ¬ 1440 ≤ (minute.val : Int) := by omega
  have hwrap : ((minute.val : Int) % 1440).toNat = minute.val := by omega
  simp only [ofLocal, hdate, if_pos hbounds, hminute, if_neg hday.1, if_neg hday.2, hwrap,
    Fin.ofNat_val_eq_self]

/-- **A timestamp is read from its text.** -/
theorem read_text (t : Timestamp) : read t.text = .ok t := by
  have hday : 1 ≤ t.date.day ∧ t.date.day ≤ 31 := by
    have hbounds := t.date.day_mem
    have hlongest : daysInMonth t.date.year t.date.month ≤ 31 := by
      unfold daysInMonth
      split <;> split <;> omega
    omega
  have hhour : 0 ≤ t.minuteOfDay.val / 60 ∧ t.minuteOfDay.val / 60 ≤ 23 := by omega
  have hminute : 0 ≤ t.minuteOfDay.val % 60 ∧ t.minuteOfDay.val % 60 ≤ 59 := by omega
  have hsecond : 0 ≤ t.second.val ∧ t.second.val ≤ 60 := by omega
  simp only [text, List.append_assoc, List.cons_append]
  -- the reader goes from left to right, so each step names what it has read
  refine bind_eq_ok_iff.2 ⟨_, yearField_yearText t.date.year_mem (noDigit_cons rfl _), ?_⟩
  refine bind_eq_ok_iff.2 ⟨_, separator_cons rfl _, ?_⟩
  refine bind_eq_ok_iff.2 ⟨_, field_padded t.date.month_mem (by decide) (noDigit_cons rfl _), ?_⟩
  refine bind_eq_ok_iff.2 ⟨_, separator_cons rfl _, ?_⟩
  refine bind_eq_ok_iff.2 ⟨_, field_padded hday (by decide) (noDigit_cons rfl _), ?_⟩
  -- the letter between date and time
  refine bind_eq_ok_iff.2 ⟨_, rfl, ?_⟩
  refine bind_eq_ok_iff.2 ⟨_, field_padded hhour (by decide) (noDigit_cons rfl _), ?_⟩
  refine bind_eq_ok_iff.2 ⟨_, separator_cons rfl _, ?_⟩
  refine bind_eq_ok_iff.2 ⟨_, field_padded hminute (by decide) (noDigit_cons rfl _), ?_⟩
  refine bind_eq_ok_iff.2 ⟨_, separator_cons rfl _, ?_⟩
  refine bind_eq_ok_iff.2 ⟨_, field_padded hsecond (by decide) (noDigit_fractionText _ _), ?_⟩
  refine bind_eq_ok_iff.2 ⟨_, fraction_fractionText t.nanosecond.isLt _, ?_⟩
  exact ofLocal_zero t

end Timestamp

end StepRelay
