import TemporalAlgebra.Aggregate.Basic
import TemporalAlgebra.Value.Compound

/-!
# Aggregates

Minimum, maximum, sum, count, average, conjunction and disjunction over time, the first five also
over a trailing window.
-/
namespace TemporalAlgebra

namespace Aggregator

section

variable {V : Type} [TemporalValue V]

/-- Least value; the earlier one of equals. -/
def minimum : Aggregator V :=
  ofCombine (fun x y => .ok (if BaseValue.order y x == .lt then y else x)) true

/-- Greatest value; the earlier one of equals. -/
def maximum : Aggregator V :=
  ofCombine (fun x y => .ok (if BaseValue.order y x == .gt then y else x)) true

end

section

variable {V : Type} [NumericValue V]

def sum : Aggregator V := ofCombine NumericValue.add false

def windowMinimum (size : Interval) : Result (Aggregator V) := minimum.windowed size .least

def windowMaximum (size : Interval) : Result (Aggregator V) := maximum.windowed size .greatest

def windowSum (size : Interval) : Result (Aggregator V) := sum.windowed size .steps

end

def count : Aggregator Integer := sum

def windowCount (size : Interval) : Result (Aggregator Integer) := count.windowed size .steps

def conjunction : Aggregator Bool := ofCombine (fun x y => .ok (x && y)) false

def disjunction : Aggregator Bool := ofCombine (fun x y => .ok (x || y)) false

def average : Aggregator Pair := ofCombine (fun p q => .ok (p.add q)) false

def windowAverage (size : Interval) : Result (Aggregator Pair) := average.windowed size .steps

/-- Count a value wherever it is defined. -/
def addCount {W : Type} [TemporalValue W] (v : Temporal W) : Aggregation Integer Unit := do
  let ones ← (v.constantLike (Signed.clamp 1 : Integer) : Result _)
  add ones

/-- Add a number with the count of one. -/
def addAverage {W : Type} [NumericValue W] (v : Temporal W) : Aggregation Pair Unit := do
  let pairs ← (reported (v.mapValues fun x => .ok ⟨NumericValue.toFloat x, 1.0⟩) :
    Result (Temporal Pair))
  add pairs

end Aggregator

/-- Quotients of sums and counts; a refusal is reported. -/
def Temporal.quotients (v : Temporal Pair) : Result (Temporal Float) :=
  reported (v.mapValues fun p => if p.b == 0.0 then refuse .divisionByZero else .ok (p.a / p.b))

/-- The average so far, if there is any. -/
def Aggregator.finishAverage (a : Aggregator Pair) : Result (Option (Temporal Float)) := do
  match ← a.finish with
  | some sums => return some (← sums.quotients)
  | none => return none

end TemporalAlgebra
