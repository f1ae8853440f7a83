import TemporalAlgebra.Temporal.Lift
import TemporalAlgebra.Temporal.Restrict
import TemporalAlgebra.Value.Scalar

/-!
# Arithmetic over time

Sums, differences, products and quotients of two temporal numbers, or of one and a constant, and
absolute values. The distance of two values, at every timestamp of their common time, and the least
of it.
-/
namespace TemporalAlgebra.Temporal

section

variable {V : Type} [MetricValue V]

/-- Distance to be lifted; it may turn where the values are closest. -/
def measuring : Lifting V Float where
  apply x y := .ok (MetricValue.distance x y)
  turning := MetricValue.closest

def distance (a b : Temporal V) : Result (Option (Temporal Float)) :=
  reported (liftWith measuring a b)

/-- Distance of a value and a constant over time. -/
def distanceValue (a : Temporal V) (x : V) : Result (Temporal Float) :=
  reported (liftValue measuring a x)

/-- Least distance of two values, if they share any time. -/
def leastDistance (a b : Temporal V) : Result (Option Float) := do
  return (← distance a b).map fun d => d.minInstant.value

end

variable {V : Type} [NumericValue V]

/-- Fraction strictly inside two segments at which the product of two numbers that change linearly
is extreme. -/
def productTurning (start1 stop1 start2 stop2 : V) : Option Float :=
  let a := NumericValue.toFloat start1
  let b := NumericValue.toFloat start2
  let da := NumericValue.toFloat stop1 - a
  let db := NumericValue.toFloat stop2 - b
  if da == 0.0 || db == 0.0 then none else inside? (-(a * db + b * da) / (2.0 * da * db))

def add (a b : Temporal V) : Result (Option (Temporal V)) :=
  reported (liftWith { apply := NumericValue.add } a b)

def sub (a b : Temporal V) : Result (Option (Temporal V)) :=
  reported (liftWith { apply := NumericValue.sub } a b)

def mul (a b : Temporal V) : Result (Option (Temporal V)) :=
  reported (liftWith { apply := NumericValue.mul, turning := productTurning } a b)

/-- Quotient of two numbers, the second of which may not be zero at any common time. -/
def div (a b : Temporal V) : Result (Option (Temporal V)) := reported do
  if let some common ← b.atPeriods a.time then
    if (← common.atValue NumericValue.zero).isSome then refuse .divisionByZero
  liftWith { apply := NumericValue.div } a b

/-- Sum of a number and a constant. -/
def addValue (a : Temporal V) (x : V) : Result (Temporal V) :=
  reported (a.mapValues fun y => NumericValue.add y x)

/-- Difference of a number and a constant. -/
def subValue (a : Temporal V) (x : V) : Result (Temporal V) :=
  reported (a.mapValues fun y => NumericValue.sub y x)

/-- Product of a number and a constant. -/
def mulValue (a : Temporal V) (x : V) : Result (Temporal V) :=
  reported (a.mapValues fun y => NumericValue.mul y x)

/-- Quotient of a number and a constant. -/
def divValue (a : Temporal V) (x : V) : Result (Temporal V) :=
  reported (a.mapValues fun y => NumericValue.div y x)

/-- Absolute value: the distance from zero. -/
def abs (a : Temporal V) : Result (Temporal V) := reported do
  let distance ← liftValue measuring a NumericValue.zero
  distance.mapValues NumericValue.ofFloat

/-- Stretch the values so that they extend over `width`; the least value stays. -/
def scaleValue (a : Temporal V) (width : V) : Result (Temporal V) := reported do
  let width := NumericValue.toFloat width
  require (!decide (width <= 0.0)) (.invalidArgValue "The value width must be positive")
  let least := NumericValue.toFloat a.minInstant.value
  let greatest := NumericValue.toFloat a.maxInstant.value
  if greatest == least then return a
  else
    let factor := width / (greatest - least)
    a.mapValues fun y =>
      NumericValue.ofFloat (least + (NumericValue.toFloat y - least) * factor)

end TemporalAlgebra.Temporal
