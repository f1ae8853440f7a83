import TemporalAlgebra.Time.Timestamp

/-!
# Dates

Dates count days from 2000-01-01 in 32 bits.
-/
namespace TemporalAlgebra

/-- A day: days from 2000-01-01. -/
structure Date where
  ticks : Integer
deriving DecidableEq

namespace Date

/-- Days from 2000-01-01. -/
def days (d : Date) : Int := d.ticks.val

instance : Ord Date := ⟨fun a b => compare a.days b.days⟩

def ofDays? (n : Int) : Option Date := (Signed.ofInt? n).map Date.mk

/-- The date nearest to a count of days. -/
def nearest (n : Int) : Date := ⟨Signed.clamp n⟩

def ofFields (year : Int) (month day : Nat) : Result Date := do
  let date : CivilDate := ⟨year, month, day⟩
  require date.isValid (.outOfRange ("Invalid date " ++ Decimal.ofInt year ++ "-" ++
    Decimal.ofNat month ++ "-" ++ Decimal.ofNat day))
  return nearest date.dayNumber

/-- The date in a calendar, if it has it. -/
def civilIn? (d : Date) (c : Chronology) : Option CivilDate := c.dateOf d.days

def civil? (d : Date) : Option CivilDate := d.civilIn? .gregorian

/-- Midnight UTC at the start of the day. It is given up when its microseconds do not fit in 64
bits. -/
def midnight (d : Date) : Result Timestamp :=
  orAbort (Timestamp.ofMicros? (d.days * Timestamp.dayMicros))

/-- Text of a date; outside the calendar the days are counted. -/
def textIn (d : Date) (c : Chronology) : String :=
  match d.civilIn? c with
  | some date => String.ofList (c.dateText date)
  | none => Decimal.ofInt d.days ++ "d"

def text (d : Date) : String := d.textIn .gregorian

def readIn (c : Chronology) (input : List Char) : Result Date := do
  let cs := Text.trim input
  let date ← (c.readDate cs).mapError (Timestamp.fieldRefusal "date" cs)
  return nearest (c.daysTo date)

def read (input : List Char) : Result Date := readIn .gregorian input

def parse (input : String) : Result Date := read input.toList

end Date

end TemporalAlgebra
