import TemporalAlgebra.Span.Basic

/-!
# Relations and distances of spans

How spans lie to each other and to values, and how far apart they are.
-/
namespace TemporalAlgebra.Span

variable {α : Type} [SpanDomain α]

def containsValue (s : Span α) (x : α) : Bool :=
  s.lowerBound.upTo (.point x) && (Bound.point x).upTo s.upperBound

def contains (a b : Span α) : Bool :=
  a.lowerBound.upTo b.lowerBound && b.upperBound.upTo a.upperBound

def overlaps (a b : Span α) : Bool :=
  a.lowerBound.upTo b.upperBound && b.lowerBound.upTo a.upperBound

/-- Whether `a` ends at the value at which `b` starts, and exactly one of them includes it. -/
def touches (a b : Span α) : Bool :=
  SpanDomain.order a.upper b.lower == .eq && a.upperInc != b.lowerInc

/-- Whether one span ends where the other starts, without gap or common part. -/
def adjacent (a b : Span α) : Bool := touches a b || touches b a

/-- Whether a value is an excluded bound. -/
def adjacentValue (s : Span α) (x : α) : Bool :=
  (SpanDomain.order s.upper x == .eq && !s.upperInc) ||
    (SpanDomain.order s.lower x == .eq && !s.lowerInc)

/-- Whether `a` ends before `b` starts; they may touch. -/
def left (a b : Span α) : Bool := a.upperBound.before b.lowerBound

/-- Whether `a` ends no later than `b`. -/
def overleft (a b : Span α) : Bool := a.upperBound.upTo b.upperBound

/-- Whether `a` starts after `b` ends; they may touch. -/
def right (a b : Span α) : Bool := b.left a

/-- Whether `a` starts no earlier than `b`. -/
def overright (a b : Span α) : Bool := b.lowerBound.upTo a.lowerBound

/-- Whether `a` ends before `b` starts, with a gap. -/
def before (a b : Span α) : Bool := a.left b && !a.adjacent b

/-- Whether `a` starts after `b` ends, with a gap. -/
def after (a b : Span α) : Bool := b.before a

def leftValue (s : Span α) (x : α) : Bool := s.upperBound.before (.point x)

def rightValue (s : Span α) (x : α) : Bool := (Bound.point x).before s.lowerBound

/-- Native position of the last value in the span. -/
def lastNative (s : Span α) : Float :=
  if SpanDomain.discrete α && !s.upperInc then SpanDomain.native s.upper - 1.0
  else SpanDomain.native s.upper

/-- Gap between two spans, zero when they overlap. Discrete spans are measured from their last
value, periods in seconds. -/
def distance (a b : Span α) : Float :=
  if a.overlaps b then 0.0
  else
    let (first, second) := if a.left b then (a, b) else (b, a)
    Binary64.max (SpanDomain.native second.lower - first.lastNative) 0.0 *
      SpanDomain.distanceUnit α

/-- Gap between a span and a value, zero when the value lies in the span. -/
def distanceValue (s : Span α) (x : α) : Float :=
  if s.containsValue x then 0.0
  else
    let v := SpanDomain.native x
    let gap := if s.rightValue x then SpanDomain.native s.lower - v else v - s.lastNative
    Binary64.max gap 0.0 * SpanDomain.distanceUnit α

def relations : List (String × (Span α → Span α → Bool)) :=
  [("contains", contains), ("contained", fun a b => b.contains a), ("overlaps", overlaps),
    ("adjacent", adjacent), ("left", left), ("overleft", overleft), ("right", right),
    ("overright", overright), ("before", before), ("after", after)]

end TemporalAlgebra.Span
