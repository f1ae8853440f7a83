import TemporalAlgebra.Number.Decimal

/-!
# The calendar

Dates of the proleptic Gregorian calendar and their count of days from 2000-01-01. The count runs
through eras of 400 years that start on the first of March.
-/
namespace TemporalAlgebra

/-- A date by year, month and day. -/
structure CivilDate where
  year : Int
  month : Nat
  day : Nat
deriving DecidableEq, Repr

namespace CivilDate

def firstYear : Int := -262143

def lastYear : Int := 262142

/-- Whether a year has a 29th of February. -/
def isLeap (year : Int) : Bool :=
  year % 4 == 0 && (year % 100 != 0 || year % 400 == 0)

/-- Count of days of a month; none for a month that does not exist. -/
def daysInMonth (year : Int) (month : Nat) : Nat :=
  match month with
  | 1 | 3 | 5 | 7 | 8 | 10 | 12 => 31
  | 4 | 6 | 9 | 11 => 30
  | 2 => if isLeap year then 29 else 28
  | _ => 0

/-- Whether the date exists, in a year of the calendar. -/
def isValid (d : CivilDate) : Bool :=
  decide (firstYear ≤ d.year ∧ d.year ≤ lastYear) &&
    decide (1 ≤ d.day ∧ d.day ≤ daysInMonth d.year d.month)

/-- Days from 0000-03-01, the start of an era, to 2000-01-01. -/
def eraOffset : Int := 730425

/-- Days from 2000-01-01 to a date that exists. -/
def dayNumber (d : CivilDate) : Int :=
  let year := if d.month ≤ 2 then d.year - 1 else d.year
  let era := year / 400
  let yearOfEra := year % 400
  let month : Int := (d.month + 9) % 12
  let dayOfYear := (153 * month + 2) / 5 + d.day - 1
  let dayOfEra := yearOfEra * 365 + yearOfEra / 4 - yearOfEra / 100 + dayOfYear
  era * 146097 + dayOfEra - eraOffset

/-- The date of a count of days from 2000-01-01. -/
def ofDayNumber (n : Int) : CivilDate :=
  let z := n + eraOffset
  let era := z / 146097
  let dayOfEra := z % 146097
  let yearOfEra := (dayOfEra - dayOfEra / 1460 + dayOfEra / 36524 - dayOfEra / 146096) / 365
  let dayOfYear := dayOfEra - (365 * yearOfEra + yearOfEra / 4 - yearOfEra / 100)
  let month := (5 * dayOfYear + 2) / 153
  let day := dayOfYear - (153 * month + 2) / 5 + 1
  let civilMonth := if month < 10 then month + 3 else month - 9
  let year := yearOfEra + era * 400 + if civilMonth ≤ 2 then 1 else 0
  ⟨year, civilMonth.toNat, day.toNat⟩

/-- The date of a count of days, if its year is one of the calendar. -/
def ofDayNumber? (n : Int) : Option CivilDate :=
  let d := ofDayNumber n
  if firstYear ≤ d.year ∧ d.year ≤ lastYear then some d else none

/-- Text of a year: four digits, and a sign before years under 0 and over 9999. -/
def yearText (year : Int) : List Char :=
  if 0 ≤ year ∧ year ≤ 9999 then Decimal.padded 4 year.natAbs
  else (if year < 0 then '-' else '+') :: Decimal.padded 4 year.natAbs

/-- Text of a date: year, month and day between hyphens. -/
def text (d : CivilDate) : List Char :=
  yearText d.year ++ '-' :: (Decimal.padded 2 d.month ++ '-' :: Decimal.padded 2 d.day)

end CivilDate

end TemporalAlgebra
