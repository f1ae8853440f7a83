import TemporalAlgebra.Span.Relation

/-!
# Moving and stretching spans

Spans are shifted by a delta, stretched by a factor or to a width, and taken to other domains.
-/
namespace TemporalAlgebra.Span

open SpanDomain

section

variable {α : Type} [SpanDomain α]

def shift (s : Span α) (d : Delta α) : Result (Span α) := do
  new (← addDelta s.lower d) (← addDelta s.upper d) s.lowerInc s.upperInc

/-- Whether a number may stretch a span. -/
def requireFactor (factor : Float) : Result Unit :=
  require (Binary64.isFinite factor && decide (0.0 < factor))
    (.invalidArgValue ("Scale factor must be positive, got " ++ Decimal.plain factor))

/-- Multiply the width; the lower bound stays. -/
def scale (s : Span α) (factor : Float) : Result (Span α) := do
  requireFactor factor
  let width := native s.upper - native s.lower
  let upper ← ofNative (native s.lower + width * factor)
  new s.lower upper s.lowerInc s.upperInc

/-- Move both bounds, then set the width. At least one of both is given. -/
def shiftScale (s : Span α) (shift width : Option (Delta α)) : Result (Span α) := do
  require (shift.isSome || width.isSome)
    (.invalidArg "At least one of shift or width must be given")
  let (lower, upper) ←
    match shift with
    | some d => pure (← addDelta s.lower d, ← addDelta s.upper d)
    | none => pure (s.lower, s.upper)
  let upper ←
    match width with
    | some w => do
      require (!decide (deltaNative w <= 0.0)) (.invalidArgValue "The width must be positive")
      addDelta lower w
    | none => pure upper
  new lower upper s.lowerInc s.upperInc

end

def toFloats (s : Span Integer) : FloatSpan :=
  ⟨Binary64.ofInt s.lower.val, Binary64.ofInt s.upper.val, s.lowerInc, s.upperInc⟩

/-- The smallest span of integers over a span of numbers. -/
def toIntegers (s : FloatSpan) : Result (Span Integer) := do
  let lower ← SpanDomain.ofNative (α := Integer) (Binary64.floor s.lower)
  let upper ← SpanDomain.ofNative (α := Integer) (Binary64.ceil s.upper)
  new lower upper (s.lowerInc || !Binary64.isIntegral s.lower)
    (s.upperInc || !Binary64.isIntegral s.upper)

/-- Round both bounds to a count of decimals, which may be negative. -/
def round (s : FloatSpan) (places : Int) : Result FloatSpan :=
  let factor := Binary64.power 10.0 places
  let toPlaces (x : Float) : Float :=
    if Binary64.isFinite x then Binary64.round (x * factor) / factor else x
  new (toPlaces s.lower) (toPlaces s.upper) s.lowerInc s.upperInc

/-- The period from midnight of the first day to midnight after the last one. -/
def toPeriod (s : Span Date) : Result Period :=
  return ⟨← s.lower.midnight, ← s.upper.midnight, s.lowerInc, s.upperInc⟩

end TemporalAlgebra.Span
