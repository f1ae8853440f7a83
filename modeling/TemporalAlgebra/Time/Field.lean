import TemporalAlgebra.Text.Blank
import TemporalAlgebra.Time.Calendar

/-!
# Dates and times of day in texts

A date is written and read as year, month and day between hyphens, a time of day as hour, minute and
perhaps second and fraction between colons. White space may stand before a number that is read. What
timestamps take from a calendar is put together in a chronology.
-/
namespace TemporalAlgebra

/-- Why a text is not read as a date or a time of day. -/
inductive FieldError where
  | tooShort
  | invalid
  | outOfRange
  | trailing
deriving DecidableEq, Repr

/-- Text of the refusal. -/
def FieldError.message : FieldError → String
  | tooShort => "premature end of input"
  | invalid => "input contains invalid characters"
  | outOfRange => "input is out of range"
  | trailing => "trailing input"

/-- A time of day; `nanos` reaches past a second in the extra second of a minute. -/
structure DayTime where
  seconds : Int
  nanos : Nat
deriving DecidableEq, Repr

namespace Field

/-- Read digits, at least one and at most `width` if there is a width. The value has to stay below
`2 ^ 63`. -/
def digits (width : Option Nat) (cs : List Char) : Except FieldError (Nat × List Char) :=
  let run := cs.takeWhile Decimal.isDigit
  let taken :=
    match width with
    | some n => run.take n
    | none => run
  if cs.isEmpty then .error .tooShort
  else if taken.isEmpty then .error .invalid
  else
    let value := Decimal.value taken
    if value < 2 ^ 63 then .ok (value, cs.drop taken.length) else .error .outOfRange

/-- Read a number of two digits or one within limits, after white space. -/
def number (lo hi : Nat) (cs : List Char) : Except FieldError (Nat × List Char) := do
  let (value, rest) ← digits (some 2) (Text.trimStart cs)
  if lo ≤ value ∧ value ≤ hi then pure (value, rest) else throw .outOfRange

/-- Read a year: four digits or fewer, or a sign and any count of digits. -/
def year (cs : List Char) : Except FieldError (Int × List Char) := do
  let (value, rest) ←
    match Text.trimStart cs with
    | '-' :: more => (digits none more).map fun (n, rest) => (-(n : Int), rest)
    | '+' :: more => (digits none more).map fun (n, rest) => ((n : Int), rest)
    | other => (digits (some 4) other).map fun (n, rest) => ((n : Int), rest)
  if -2 ^ 31 ≤ value ∧ value < 2 ^ 31 then pure (value, rest) else throw .outOfRange

def separator (mark : Char) : List Char → Except FieldError (List Char)
  | [] => .error .tooShort
  | c :: rest => if c == mark then .ok rest else .error .invalid

/-- Nothing may be left. -/
def finish (cs : List Char) : Except FieldError Unit :=
  if cs.isEmpty then .ok () else .error .trailing

/-- Read a fraction of a second, in nanoseconds. Digits past the ninth are skipped; without a point
there is no fraction. -/
def fraction : List Char → Except FieldError (Nat × List Char)
  | '.' :: more => do
    let (value, rest) ← digits (some 9) more
    let count := more.length - rest.length
    pure (value * 10 ^ (9 - count), rest.dropWhile Decimal.isDigit)
  | cs => .ok (0, cs)

def date (cs : List Char) : Except FieldError CivilDate := do
  let (y, rest) ← year cs
  let rest ← separator '-' rest
  let (m, rest) ← number 1 12 rest
  let rest ← separator '-' rest
  let (d, rest) ← number 1 31 rest
  finish rest
  let found : CivilDate := ⟨y, m, d⟩
  if found.isValid then pure found else throw .outOfRange

/-- Read a time of day with seconds. Second 60 is the extra second after second 59. -/
def timeWithSeconds (cs : List Char) : Except FieldError DayTime := do
  let (h, rest) ← number 0 23 cs
  let rest ← separator ':' rest
  let (m, rest) ← number 0 59 rest
  let rest ← separator ':' rest
  let (s, rest) ← number 0 60 rest
  let (nanos, rest) ← fraction rest
  finish rest
  let seconds : Int := h * 3600 + m * 60
  if s = 60 then pure ⟨seconds + 59, 10 ^ 9 + nanos⟩ else pure ⟨seconds + s, nanos⟩

/-- Read a time of day in hours and minutes. -/
def timeInMinutes (cs : List Char) : Except FieldError DayTime := do
  let (h, rest) ← number 0 23 cs
  let rest ← separator ':' rest
  let (m, rest) ← number 0 59 rest
  finish rest
  pure ⟨h * 3600 + m * 60, 0⟩

/-- Text of a count of seconds since midnight. -/
def clockText (seconds : Nat) : List Char :=
  Decimal.padded 2 (seconds / 3600) ++ ':' :: (Decimal.padded 2 (seconds / 60 % 60) ++
    ':' :: Decimal.padded 2 (seconds % 60))

end Field

/-- A time of day moved by whole seconds. Away from its extra second a time is an ordinary one: it
falls into second 59 when it moves on, and into the next minute when it moves back. -/
def DayTime.shift (t : DayTime) (seconds : Int) : DayTime :=
  if t.nanos < 10 ^ 9 ∨ seconds = 0 then ⟨t.seconds + seconds, t.nanos⟩
  else if 0 < seconds then ⟨t.seconds + seconds, t.nanos - 10 ^ 9⟩
  else ⟨t.seconds + 1 + seconds, t.nanos - 10 ^ 9⟩

/-- What timestamps and dates take from a calendar: dates by their counts of days, times of day that
are moved, and how both are written and read. -/
structure Chronology where
  /-- The date of a count of days from 2000-01-01, if the calendar has it. -/
  dateOf : Int → Option CivilDate
  /-- Days from 2000-01-01 to a date. -/
  daysTo : CivilDate → Int
  dateText : CivilDate → List Char
  /-- Text of a count of seconds since midnight. -/
  clockText : Nat → List Char
  readDate : List Char → Except FieldError CivilDate
  /-- Read hours, minutes, seconds and perhaps a fraction of a second. -/
  readSeconds : List Char → Except FieldError DayTime
  /-- Read hours and minutes. -/
  readMinutes : List Char → Except FieldError DayTime
  /-- Move a time of day by seconds. -/
  shift : DayTime → Int → DayTime

namespace Chronology

/-- The chronology of the proleptic Gregorian calendar. -/
def gregorian : Chronology where
  dateOf := CivilDate.ofDayNumber?
  daysTo := CivilDate.dayNumber
  dateText := CivilDate.text
  clockText := Field.clockText
  readDate := Field.date
  readSeconds := Field.timeWithSeconds
  readMinutes := Field.timeInMinutes
  shift := DayTime.shift

/-- Read a time of day in either form; a refusal is that of the shorter form. -/
def readTime (c : Chronology) (cs : List Char) : Except FieldError DayTime :=
  match c.readSeconds cs with
  | .ok t => .ok t
  | .error _ => c.readMinutes cs

end Chronology

end TemporalAlgebra
