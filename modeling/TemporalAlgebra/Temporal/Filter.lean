import TemporalAlgebra.SpanSet.Basic
import TemporalAlgebra.Value.Compound

/-!
# Value filters

A filter selects values, and the parts of a linear segment whose values it selects, as ranges of
fractions of the way along the segment.
-/
namespace TemporalAlgebra

/-- A range of fractions of the way along a segment. -/
structure RatioRange where
  lower : Float
  upper : Float
  lowerInc : Bool
  upperInc : Bool

namespace RatioRange

def full : RatioRange := ⟨0.0, 1.0, true, true⟩

def point (r : Float) : RatioRange := ⟨r, r, true, true⟩

/-- The part of a range that lies on the segment, if there is any. -/
def clip? (r : RatioRange) : Option RatioRange :=
  let r := if r.lower < 0.0 then { r with lower := 0.0, lowerInc := true } else r
  let r := if 1.0 < r.upper then { r with upper := 1.0, upperInc := true } else r
  if decide (r.lower < r.upper) || (r.lower == r.upper && r.lowerInc && r.upperInc) then some r
  else none

end RatioRange

/-- Selects values, at instants and along segments. -/
structure ValueFilter (V : Type) where
  holds : V → Bool
  /-- Where the values of a segment are selected. -/
  along : V → V → List RatioRange
  /-- The exact form of a selected value, which may have been interpolated. -/
  snap : V → V := id

namespace ValueFilter

section

variable {V : Type} [TemporalValue V]

/-- Where a segment takes a value. -/
def alongValue (x start stop : V) : List RatioRange :=
  if start == stop then
    if start == x then [.full] else []
  else ((TemporalValue.locate start stop x).map RatioRange.point).toList

/-- Selects one value. -/
def equalTo (x : V) : ValueFilter V where
  holds y := y == x
  along := alongValue x
  snap _ := x

/-- Selects the values of a list. -/
def oneOf (xs : List V) : ValueFilter V where
  holds y := xs.any fun x => x == y
  along start stop := xs.flatMap fun x => alongValue x start stop
  snap y := (xs.find? fun x => TemporalValue.collinear x y x 0.5).getD y

end

/-- Where a segment of numbers lies in a span. -/
def alongSpan (start stop : Float) (s : FloatSpan) : Option RatioRange :=
  if start == stop then
    if s.containsValue start then some .full else none
  else
    let r1 := (s.lower - start) / (stop - start)
    let r2 := (s.upper - start) / (stop - start)
    RatioRange.clip?
      (if start < stop then ⟨r1, r2, s.lowerInc, s.upperInc⟩
      else ⟨r2, r1, s.upperInc, s.lowerInc⟩)

/-- Selects the numbers of a span set. -/
def inSpans {V : Type} [NumericValue V] (s : SpanSet Float) : ValueFilter V where
  holds y := s.containsValue (NumericValue.toFloat y)
  along start stop :=
    s.spans.filterMap (alongSpan (NumericValue.toFloat start) (NumericValue.toFloat stop))

/-- Clip the range from `lower` to `upper` of a segment along one axis. -/
def clipAxis (start stop : Float) (e : Extent) (range : Float × Float) : Option (Float × Float) :=
  let d := stop - start
  if d == 0.0 then
    if start < e.min ∨ e.max < start then none else some range
  else
    let a := (e.min - start) / d
    let c := (e.max - start) / d
    let lower := Binary64.max range.1 (Binary64.min a c)
    let upper := Binary64.min range.2 (Binary64.max a c)
    if upper < lower then none else some (lower, upper)

/-- Where a segment lies in a space. Elevations count when the space and the segment have them. -/
def alongSpace (s : Space) (start stop : Point) : Option RatioRange := do
  let range ← clipAxis start.x stop.x s.x (0.0, 1.0)
  let range ← clipAxis start.y stop.y s.y range
  let (lower, upper) ←
    match s.z, start.z with
    | some e, some z => clipAxis z (stop.z.getD 0.0) e range
    | _, _ => some range
  return ⟨lower, upper, true, true⟩

/-- Selects the points of a box. -/
def inBox (b : STBox) : ValueFilter Point where
  holds := b.containsPoint
  along start stop :=
    match b.space with
    | none => [.full]
    | some s => (alongSpace s start stop).toList

end ValueFilter

end TemporalAlgebra
