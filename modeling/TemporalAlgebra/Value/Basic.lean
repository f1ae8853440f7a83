import TemporalAlgebra.Binary.Reader
import TemporalAlgebra.Box.TBox
import TemporalAlgebra.Point

/-!
# Values

What temporal values are made of. Every value type has an order, a text and a binary form. A value
that varies over time also has a bounding box for each instant; continuous values can be
interpolated, metric ones have a distance, and numbers can be computed with.
-/
namespace TemporalAlgebra

open Binary

def tolerance : Float := 1e-6

/-- What a value takes from the whole that it is written in. -/
structure ValueContext where
  srid : Integer
  hasZ : Bool
deriving DecidableEq

def ValueContext.plain : ValueContext := ⟨unknownSrid, false⟩

/-- Types of values. -/
class BaseValue (V : Type) extends BEq V where
  baseType : TypeTag
  /-- A total order. -/
  order : V → V → Ordering
  read : ValueContext → List Char → Result V
  /-- Text with at most so many decimals. -/
  text : V → Nat → String
  write : V → Variant → Bytes
  readForm : ValueContext → Reader V

/-- Types of values that vary over time. -/
class TemporalValue (V : Type) extends BaseValue V where
  /-- Boxes that bound temporal values of the type. -/
  Box : Type
  [box : TemporalBox Box]
  temporalType : TypeTag
  /-- Whether values may be interpolated. -/
  continuous : Bool := false
  instantBox : V → Timestamp → Box
  /-- The value at a fraction of the way along a segment. -/
  interpolate : V → V → Float → V := fun start _ _ => start
  /-- Whether the second value, at a fraction of the way from the first to the third, lies on their
  segment. -/
  collinear : V → V → V → Float → Bool := fun start middle stop _ => start == middle && middle == stop
  /-- Fraction of the way along a segment that is not constant at which a value is taken. -/
  locate : V → V → V → Option Float := fun _ _ _ => none
  /-- Fraction strictly inside two segments that run side by side at which they meet. -/
  crossing : V → V → V → V → Option Float := fun _ _ _ _ => none
  /-- Refuses two values that do not go together. -/
  compatible : V → V → Result Unit := fun _ _ => .ok ()
  /-- What is written in front of a value like this one. -/
  context : V → ValueContext := fun _ => .plain
  /-- Distance by which gaps are measured, if there is one. -/
  gap : V → V → Option Float := fun _ _ => none

attribute [reducible, instance] TemporalValue.box

/-- Types of values that have a distance. -/
class MetricValue (V : Type) extends TemporalValue V where
  distance : V → V → Float
  /-- Fraction strictly inside two segments that run side by side at which they are closest. -/
  closest : V → V → V → V → Option Float

/-- Types of numbers. -/
class NumericValue (V : Type) extends MetricValue V where
  zero : V
  toFloat : V → Float
  /-- The nearest value to a number. -/
  ofFloat : Float → Result V
  add : V → V → Result V
  sub : V → V → Result V
  mul : V → V → Result V
  div : V → V → Result V
  /-- Text that shows the type of the number too. -/
  debug : V → String
  /-- The bounding box as one of numbers and time. -/
  numberBox : Box → TBox

/-- Whether two numbers are equal within the tolerance. -/
def nearlyEqual (x y : Float) : Bool := decide ((x - y).abs <= tolerance)

/-- A fraction, if it lies strictly between zero and one. -/
def inside? (r : Float) : Option Float := if 0.0 < r ∧ r < 1.0 then some r else none

/-- Fraction strictly inside a segment at which the difference, `d0` at its start and `d1` at its
end, is zero. -/
def linearRoot (d0 d1 : Float) : Option Float :=
  if d0 == d1 || decide (0.0 < d0 * d1) then none else inside? (d0 / (d0 - d1))

end TemporalAlgebra
