import TemporalAlgebra.Number.Decimal

/-!
# Intervals

Lengths of time, exact to the nanosecond. Timestamps count microseconds, so an interval is cut
toward zero before it moves one.
-/
namespace TemporalAlgebra

/-- A length of time, perhaps negative. -/
structure Interval where
  nanos : Int
deriving DecidableEq, Repr

namespace Interval

instance : Ord Interval := ⟨fun a b => compare a.nanos b.nanos⟩

instance : LT Interval := ⟨fun a b => a.nanos < b.nanos⟩

instance : LE Interval := ⟨fun a b => a.nanos ≤ b.nanos⟩

instance (a b : Interval) : Decidable (a < b) := inferInstanceAs (Decidable (a.nanos < b.nanos))

instance (a b : Interval) : Decidable (a ≤ b) := inferInstanceAs (Decidable (a.nanos ≤ b.nanos))

def zero : Interval := ⟨0⟩

def ofMicros (n : Int) : Interval := ⟨n * 1000⟩

/-- The interval of whole seconds and a further count of nanoseconds. -/
def ofSeconds (seconds : Int) (nanos : Nat) : Interval := ⟨seconds * 10 ^ 9 + nanos⟩

def add (a b : Interval) : Interval := ⟨a.nanos + b.nanos⟩

/-- Whole microseconds, cut toward zero. -/
def wholeMicros (d : Interval) : Int := Int.tdiv d.nanos 1000

def micros? (d : Interval) : Option Bigint := Signed.ofInt? d.wholeMicros

/-- Whole seconds, cut toward zero. -/
def wholeSeconds (d : Interval) : Int := Int.tdiv d.nanos (10 ^ 9)

/-- What is left of the whole seconds, with the sign of the interval. -/
def subsecondNanos (d : Interval) : Int := Int.tmod d.nanos (10 ^ 9)

/-- Whole days, cut toward zero. -/
def wholeDays (d : Interval) : Int := Int.tdiv d.wholeSeconds 86400

/-- Text of an interval: `P0D` when empty, else its seconds as in `PT1.5S`. -/
def text (d : Interval) : String :=
  if d.nanos = 0 then "P0D"
  else
    let size := d.nanos.natAbs
    let sign := if d.nanos < 0 then "-" else ""
    sign ++ "PT" ++ String.ofList (Decimal.trimmed size 9) ++ "S"

end Interval

end TemporalAlgebra
