import StepRelay.Text.Blank

/-!
# Timestamps

A `Timestamp` is an instant in UTC by calendar date, minute of the day, second and nanosecond.
Second 60 is a leap second. The written form is that of RFC 3339 with `Z`; the reader takes any
offset and is lenient about blanks around the parts, so it accepts more than the writer produces.
-/

namespace StepRelay

/-- Every fourth year, but of the centuries only every fourth. -/
def isLeapYear (year : Int) : Bool := year % 4 == 0 && (year % 100 != 0 || year % 400 == 0)

/-- How long a month is. The month is not checked. -/
def daysInMonth (year : Int) (month : Nat) : Nat :=
  if month = 2 then (if isLeapYear year then 29 else 28)
  else if month ∈ [4, 6, 9, 11] then 30
  else 31

/-- A day of the proleptic Gregorian calendar, in the years that a timestamp can hold. -/
structure Date where
  year : Int
  month : Nat
  day : Nat
  year_mem : -262143 ≤ year ∧ year ≤ 262142
  month_mem : 1 ≤ month ∧ month ≤ 12
  day_mem : 1 ≤ day ∧ day ≤ daysInMonth year month
  deriving DecidableEq

namespace Date

/-- The day of the given numbers, if there is one. -/
def make? (year : Int) (month day : Nat) : Option Date :=
  if h : (-262143 ≤ year ∧ year ≤ 262142) ∧ (1 ≤ month ∧ month ≤ 12) ∧
      (1 ≤ day ∧ day ≤ daysInMonth year month) then
    some ⟨year, month, day, h.1, h.2.1, h.2.2⟩
  else none

/-- The day after, unless the calendar ends. -/
def next? (d : Date) : Option Date :=
  if d.day < daysInMonth d.year d.month then make? d.year d.month (d.day + 1)
  else if d.month < 12 then make? d.year (d.month + 1) 1
  else make? (d.year + 1) 1 1

/-- The day before, unless the calendar begins. -/
def previous? (d : Date) : Option Date :=
  if 1 < d.day then make? d.year d.month (d.day - 1)
  else if 1 < d.month then make? d.year (d.month - 1) (daysInMonth d.year (d.month - 1))
  else make? (d.year - 1) 12 31

end Date

/-- An instant in UTC. -/
structure Timestamp where
  date : Date
  minuteOfDay : Fin 1440
  second : Fin 61
  nanosecond : Fin 1000000000
  deriving DecidableEq

namespace Timestamp

/-! ### Writing

Every part is written in a fixed number of digits, except for a year outside the first ten thousand
and for the fraction of a second.
-/

/-- A natural in at least `width` decimal digits. -/
def padded (width n : Nat) : List Char :=
  let digits := Nat.toDigits 10 n
  List.replicate (width - digits.length) '0' ++ digits

/-- Four digits for the years 0 to 9999; any other year has a sign. -/
def yearText (year : Int) : List Char :=
  if 0 ≤ year ∧ year ≤ 9999 then padded 4 year.toNat
  else (if year < 0 then '-' else '+') :: padded 4 year.natAbs

/-- No fraction for a whole second, else three, six or nine digits, whichever is enough. -/
def fractionText (nanosecond : Nat) : List Char :=
  if nanosecond = 0 then []
  else if nanosecond % 1000000 = 0 then '.' :: padded 3 (nanosecond / 1000000)
  else if nanosecond % 1000 = 0 then '.' :: padded 6 (nanosecond / 1000)
  else '.' :: padded 9 nanosecond

/-- The written form, in UTC. -/
def text (t : Timestamp) : List Char :=
  yearText t.date.year ++ '-' :: padded 2 t.date.month ++ '-' :: padded 2 t.date.day ++
    'T' :: padded 2 (t.minuteOfDay / 60) ++ ':' :: padded 2 (t.minuteOfDay % 60) ++
    ':' :: padded 2 t.second ++ fractionText t.nanosecond ++ ['Z']

/-! ### Reading

A reader of one part returns what the part says and the text behind it. -/

/-- Why a text is no timestamp. -/
inductive Fault where
  | outOfRange
  | impossible
  | invalid
  | tooShort
  | trailing
  deriving DecidableEq

/-- The message of a fault. -/
def Fault.message : Fault → String
  | outOfRange => "input is out of range"
  | impossible => "no possible date and time matching input"
  | invalid => "input contains invalid characters"
  | tooShort => "premature end of input"
  | trailing => "trailing input"

/-- Up to `width` digits, at least one; numbers from `2 ^ 63` on are out of range. -/
def digits (width : Nat) (text : List Char) : Except Fault (Nat × List Char) :=
  let found := (text.take width).takeWhile Char.isDigit
  if text = [] then .error .tooShort
  else if found = [] then .error .invalid
  else
    let n := Nat.ofDigitChars 10 found 0
    if n < Nat.pow 2 63 then .ok (n, text.drop found.length) else .error .outOfRange

/-- Blanks, then a number of up to `width` digits between `low` and `high`. -/
def field (width low high : Nat) (text : List Char) : Except Fault (Nat × List Char) := do
  let (n, rest) ← digits width (Text.trimStart text)
  if low ≤ n ∧ n ≤ high then .ok (n, rest) else .error .outOfRange

/-- Blanks, then a year: up to four digits, or a sign and any number of digits. -/
def yearField (text : List Char) : Except Fault (Int × List Char) := do
  let (year, rest) : Int × List Char ← match Text.trimStart text with
    | '-' :: rest => do
      let (n, rest) ← digits rest.length rest
      pure (-(n : Int), rest)
    | '+' :: rest => do
      let (n, rest) ← digits rest.length rest
      pure ((n : Int), rest)
    | text => do
      let (n, rest) ← digits 4 text
      pure ((n : Int), rest)
  if -Nat.pow 2 31 ≤ year ∧ year < Nat.pow 2 31 then .ok (year, rest) else .error .outOfRange

/-- Blanks, then the given character. -/
def separator (c : Char) (text : List Char) : Except Fault (List Char) :=
  match Text.trimStart text with
  | [] => .error .tooShort
  | d :: rest => if d = c then .ok rest else .error .invalid

/-- The letter or blank between date and time. -/
def dateEnd : List Char → Except Fault (List Char)
  | [] => .error .tooShort
  | c :: rest => if c = 'T' ∨ c = 't' ∨ c = ' ' then .ok rest else .error .invalid

/-- A fraction of a second in nanoseconds, if the text goes on with a point; digits behind the ninth
do not count. -/
def fraction : List Char → Except Fault (Nat × List Char)
  | '.' :: text => do
    let (n, rest) ← digits 9 text
    .ok (n * Nat.pow 10 (9 - (text.length - rest.length)), rest.dropWhile Char.isDigit)
  | text => .ok (0, text)

/-- Two digits at the front of a text. What is missing is told from what is wrong by bytes: one
character beyond ASCII is long enough to be wrong. -/
def twoDigits : List Char → Except Fault ((Nat × Nat) × List Char)
  | a :: b :: rest =>
    if a.isDigit ∧ b.isDigit then .ok ((a.toNat - 48, b.toNat - 48), rest) else .error .invalid
  | [a] => if a.utf8Size < 2 then .error .tooShort else .error .invalid
  | [] => .error .tooShort

/-- The sign of an offset: minus also in its typographic form. -/
def offsetSign : List Char → Except Fault (Bool × List Char)
  | [] => .error .tooShort
  | c :: rest =>
    if c = '+' then .ok (false, rest)
    else if c = '-' ∨ c = '\u2212' then .ok (true, rest)
    else .error .invalid

/-- An offset from UTC in minutes: `Z`, `UTC`, or a sign, hours and minutes with colons and blanks
between them. -/
def offset (text : List Char) : Except Fault (Int × List Char) :=
  match text with
  | c :: rest =>
    if c = 'Z' ∨ c = 'z' then .ok (0, rest)
    else if (text.take 3).map Char.toUpper = ['U', 'T', 'C'] then .ok (0, text.drop 3)
    else do
      let (negative, rest) ← offsetSign text
      let ((h, h'), rest) ← twoDigits rest
      let ((m, m'), rest) ← twoDigits (rest.dropWhile fun c => c == ':' || Text.isBlank c)
      if 6 ≤ m then .error .outOfRange
      else
        let minutes : Int := (10 * h + h') * 60 + (10 * m + m')
        .ok (if negative then -minutes else minutes, rest)
  | [] => .error .tooShort

/-- The instant whose local date and time at `offset` minutes from UTC are given. Only the date can
leave the calendar by the shift. -/
def ofLocal (year : Int) (month day hour minute second nanosecond : Nat) (offset : Int) :
    Except Fault Timestamp :=
  match Date.make? year month day with
  | none => .error .outOfRange
  | some date =>
    if offset.natAbs < 1440 ∧ second < 61 ∧ nanosecond < 1000000000 then
      let minute := (hour * 60 + minute : Int) - offset
      let shifted :=
        if minute < 0 then date.previous? else if 1440 ≤ minute then date.next? else date
      match shifted with
      | none => .error .impossible
      | some date =>
        .ok ⟨date, .ofNat 1440 (minute % 1440).toNat, .ofNat 61 second,
          .ofNat 1000000000 nanosecond⟩
    else .error .outOfRange

/-- Reads a date, a letter `T` or a blank, a time and an offset. -/
def read (text : List Char) : Except Fault Timestamp := do
  let (year, rest) ← yearField text
  let (month, rest) ← field 2 1 12 (← separator '-' rest)
  let (day, rest) ← field 2 1 31 (← separator '-' rest)
  let (hour, rest) ← field 2 0 23 (← dateEnd rest)
  let (minute, rest) ← field 2 0 59 (← separator ':' rest)
  let (second, rest) ← field 2 0 60 (← separator ':' rest)
  let (nanosecond, rest) ← fraction rest
  let (offset, rest) ← offset (Text.trimStart rest)
  if Text.trimStart rest = [] then ofLocal year month day hour minute second nanosecond offset
  else .error .trailing

end Timestamp

end StepRelay
