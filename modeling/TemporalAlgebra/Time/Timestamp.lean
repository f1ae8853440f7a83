import TemporalAlgebra.Text.Split
import TemporalAlgebra.Time.Field
import TemporalAlgebra.Time.Interval

/-!
# Timestamps

Timestamps count microseconds from 2000-01-01 00:00:00 UTC in 64 bits. Those in a year of the
calendar are written and read as date and time of day; an offset from UTC may follow when read.
-/
namespace TemporalAlgebra

/-- A point in time: microseconds from the start of the year 2000, UTC. -/
structure Timestamp where
  ticks : Bigint
deriving DecidableEq

namespace Timestamp

/-- Microseconds from 2000-01-01 00:00:00 UTC. -/
def micros (t : Timestamp) : Int := t.ticks.val

instance : Ord Timestamp := ⟨fun a b => compare a.micros b.micros⟩

instance : LT Timestamp := ⟨fun a b => a.micros < b.micros⟩

instance : LE Timestamp := ⟨fun a b => a.micros ≤ b.micros⟩

instance (a b : Timestamp) : Decidable (a < b) := inferInstanceAs (Decidable (a.micros < b.micros))

instance (a b : Timestamp) : Decidable (a ≤ b) := inferInstanceAs (Decidable (a.micros ≤ b.micros))

def ofMicros? (n : Int) : Option Timestamp := (Signed.ofInt? n).map Timestamp.mk

/-- The timestamp nearest to a count of microseconds. -/
def nearest (n : Int) : Timestamp := ⟨Signed.clamp n⟩

def dayMicros : Int := 86400000000

/-- The timestamp of a time of day, cut to the microsecond, on a day by its count. -/
def ofDayTime (day : Int) (time : DayTime) : Timestamp :=
  nearest (day * dayMicros + time.seconds * 1000000 + (time.nanos / 1000 : Nat))

/-- The date of a timestamp, if the calendar has it. -/
def civilIn? (t : Timestamp) (c : Chronology) : Option CivilDate := c.dateOf (t.micros / dayMicros)

def civil? (t : Timestamp) : Option CivilDate := t.civilIn? .gregorian

def ofFields (year : Int) (month day hour minute second : Nat) : Result Timestamp := do
  let date : CivilDate := ⟨year, month, day⟩
  let join (mark : String) (a b : Nat) : String := Decimal.ofNat a ++ mark ++ Decimal.ofNat b
  require date.isValid
    (.outOfRange ("Invalid date " ++ Decimal.ofInt year ++ "-" ++ join "-" month day))
  require (decide (hour < 24 ∧ minute < 60 ∧ second < 60))
    (.outOfRange ("Invalid time " ++ Decimal.ofNat hour ++ ":" ++ join ":" minute second))
  return ofDayTime date.dayNumber ⟨hour * 3600 + minute * 60 + second, 0⟩

/-- A timestamp moved by an interval. -/
def shift (t : Timestamp) (d : Interval) : Result Timestamp := do
  let n ← orRefuse d.micros? (.outOfRange "Interval too large for a timestamp shift")
  orRefuse (ofMicros? (t.micros + n.val)) (.outOfRange "Timestamp out of range")

/-- The interval from `earlier` to `t`, cut to 64 bits of microseconds. -/
def since (t earlier : Timestamp) : Interval :=
  .ofMicros (Signed.clamp (w := 63) (t.micros - earlier.micros)).val

/-- Microseconds from `a` to `b`. A way that does not fit in 64 bits is given up. -/
def microsTo (a b : Timestamp) : Result Bigint := orAbort (Signed.ofInt? (b.micros - a.micros))

/-- Microseconds from `a` to `b` as a number. -/
def distanceTo (a b : Timestamp) : Result Float := return Binary64.ofInt (← a.microsTo b).val

/-- The timestamp at a fraction of the way from `a` to `b`, rounded to the microsecond. It is given
up when it does not fit in 64 bits. -/
def lerp (a b : Timestamp) (ratio : Float) : Result Timestamp := do
  let way : Bigint := Binary64.toSigned ((← a.distanceTo b) * ratio)
  orAbort (ofMicros? (a.micros + way.val))

/-- The fraction of the way from `start` to `stop` at which `t` lies. -/
def ratio (t start stop : Timestamp) : Result Float :=
  if stop.micros = start.micros then return 0.0
  else return (← start.distanceTo t) / (← start.distanceTo stop)

/-- Text of a fraction of a second after its point; nothing where there is no digit. -/
def fractionText (digits : List Char) : List Char :=
  if digits.isEmpty then [] else '.' :: digits

/-- Text of the time of day, without trailing zeros of its fraction. -/
def clockText (c : Chronology) (microsOfDay : Nat) : List Char :=
  c.clockText (microsOfDay / 1000000) ++
    fractionText (Decimal.dropTrailingZeros (Decimal.padded 6 (microsOfDay % 1000000)))

/-- Text of a timestamp in UTC. The ends of the range are infinite; outside the calendar the
microseconds are counted. -/
def textIn (t : Timestamp) (c : Chronology) : String :=
  if t.ticks = Signed.minimum then "-infinity"
  else if t.ticks = Signed.maximum then "infinity"
  else
    match t.civilIn? c with
    | none => Decimal.ofInt t.micros ++ "us"
    | some date =>
      String.ofList (c.dateText date ++ ' ' :: clockText c (t.micros % dayMicros).toNat ++
        ['+', '0', '0'])

def text (t : Timestamp) : String := t.textIn .gregorian

/-- Seconds of the offset written in `body` after its sign: one or two digits of hours, or two of
hours and two of minutes, colons left out. -/
def offsetSeconds? (body : List Char) : Result (Option Int) := do
  let number (cs : List Char) : Option Int := Decimal.readInt? cs
  let cs := body.filter (· != ':')
  let size := Text.byteLength cs
  if size = 1 ∨ size = 2 then return (number cs).map (· * 3600)
  else if size = 4 then
    match Text.cutAt 2 cs with
    | .between hours minutes =>
      return (number hours).bind fun h => (number minutes).map fun m => h * 3600 + m * 60
    | _ => throw .aborted
  else return none

/-- Split a text at its last sign. -/
def splitSign (cs : List Char) : Option (List Char × Char × List Char) :=
  let isSign (c : Char) : Bool := c == '+' || c == '-'
  let back := cs.reverse
  match back.dropWhile fun c => !isSign c with
  | sign :: before => some (before.reverse, sign, (back.takeWhile fun c => !isSign c).reverse)
  | [] => none

/-- Split an offset from UTC off the end of a text: `Z`, or a sign and digits after the date. -/
def splitOffset (cs : List Char) : Result (List Char × Int) :=
  match cs.reverse with
  | 'Z' :: body => .ok (body.reverse, 0)
  | _ =>
    match Text.splitOnce ' ' cs with
    | none => .ok (cs, 0)
    | some (date, time) =>
      match splitSign time with
      | none => .ok (cs, 0)
      | some (clock, sign, digits) => do
        let found ← offsetSeconds? digits
        let seconds ← orRefuse found
          (.textInput ("Invalid time zone offset in '" ++ String.ofList cs ++ "'"))
        return (Text.trimEnd (date ++ ' ' :: clock), if sign == '-' then -seconds else seconds)

/-- A date or time of day in the refusal of a timestamp. -/
def fieldRefusal (what : String) (cs : List Char) (e : FieldError) : Failure :=
  .refused (.textInput ("Invalid " ++ what ++ " '" ++ String.ofList cs ++ "': " ++ e.message)) 0

/-- The timestamp of a date and a time of day at an offset from UTC. It gives up when the offset
leads out of the calendar. -/
def atOffset (c : Chronology) (date : CivilDate) (time : DayTime) (offset : Int) :
    Result Timestamp :=
  let moved := c.shift time (-offset)
  match c.dateOf (c.daysTo date + moved.seconds / 86400) with
  | none => .error .aborted
  | some _ => .ok (ofDayTime (c.daysTo date) moved)

/-- Read a timestamp: a date, then perhaps a time of day after `T` or white space, then perhaps an
offset from UTC. -/
def readIn (c : Chronology) (input : List Char) : Result Timestamp := do
  let cs := (Text.trim input).map fun c => if c == 'T' then ' ' else c
  require (!cs.isEmpty) (.textInput "Empty timestamp")
  let (body, offset) ← splitOffset cs
  let (datePart, timePart) :=
    match Text.splitOnce ' ' body with
    | some (d, t) => (Text.trim d, Text.trim t)
    | none => (Text.trim body, [])
  let date ← (c.readDate datePart).mapError (fieldRefusal "date" datePart)
  let time ←
    if timePart.isEmpty then pure ⟨0, 0⟩
    else (c.readTime timePart).mapError (fieldRefusal "time" timePart)
  atOffset c date time offset

def read (input : List Char) : Result Timestamp := readIn .gregorian input

def parse (input : String) : Result Timestamp := read input.toList

end Timestamp

end TemporalAlgebra
