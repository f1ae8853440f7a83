import TemporalAlgebra.Span.Transform

/-!
# Span sets

A span set is an ordered union of spans that neither overlap nor touch. Building one sorts the
spans and joins those that overlap or touch; its hull is kept beside them.
-/
namespace TemporalAlgebra

/-- An ordered union of spans, at least one. -/
structure SpanSet (α : Type) where
  first : Span α
  rest : List (Span α)
  /-- Smallest span over all of them. -/
  hull : Span α
deriving BEq

abbrev PeriodSet := SpanSet Timestamp

namespace SpanSet

variable {α : Type} [SpanDomain α]

def spans (s : SpanSet α) : List (Span α) := s.first :: s.rest

def last (s : SpanSet α) : Span α := s.rest.getLastD s.first

/-- Wrap spans that are in order and apart. -/
def ofOrdered (first : Span α) (rest : List (Span α)) : SpanSet α :=
  ⟨first, rest, first.hull (rest.getLastD first)⟩

def ofSpan (s : Span α) : SpanSet α := ⟨s, [], s⟩

/-- Join spans in order: the current span takes in those that overlap or touch it. -/
def join (current : Span α) : List (Span α) → SpanSet α
  | [] => ofSpan current
  | s :: rest =>
    if current.overlaps s || current.adjacent s then join (current.hull s) rest
    else
      let joined := join s rest
      ofOrdered current joined.spans

/-- Spans sorted by their bounds; those with equal bounds stay in order. -/
def sort (spans : List (Span α)) : List (Span α) :=
  spans.mergeSort fun a b => a.order b != .gt

def ofSpans? (spans : List (Span α)) : Option (SpanSet α) :=
  match sort spans with
  | [] => none
  | first :: rest => some (join first rest)

/-- The union of spans, the first of which is given. -/
def ofSpans (first : Span α) (rest : List (Span α)) : SpanSet α :=
  (ofSpans? (first :: rest)).getD (ofSpan first)

/-- The union of spans; a refusal is reported. -/
def new (spans : List (Span α)) : Result (SpanSet α) :=
  reported (orRefuse (ofSpans? spans) (.invalidArgValue "A span set needs at least one span"))

def lower (s : SpanSet α) : α := s.hull.lower

def upper (s : SpanSet α) : α := s.hull.upper

/-- The spans that do not end before a position. -/
def reaching (s : SpanSet α) (b : Bound α) : List (Span α) :=
  s.spans.dropWhile fun x => x.upperBound.before b

/-- Whether a value lies in the set. Only the first span that reaches the value is looked at. -/
def containsValue (s : SpanSet α) (x : α) : Bool :=
  (s.reaching (.point x)).head?.any fun y => y.containsValue x

def containsSpan (s : SpanSet α) (x : Span α) : Bool :=
  (s.reaching x.lowerBound).head?.any fun y => y.contains x

def contains (a b : SpanSet α) : Bool := a.hull.contains b.hull && b.spans.all a.containsSpan

/-- Whether a span has a common part with the set. -/
def overlapsSpan (s : SpanSet α) (x : Span α) : Bool :=
  (s.reaching x.lowerBound).head?.any fun y => y.overlaps x

/-- Whether ordered spans have a common part. Of two spans apart the one that ends first is left
behind. -/
def sweepOverlaps : List (Span α) → List (Span α) → Bool
  | a :: as, b :: bs =>
    if a.overlaps b then true
    else if a.upperBound.before b.upperBound then sweepOverlaps as (b :: bs)
    else sweepOverlaps (a :: as) bs
  | _, _ => false
termination_by as bs => as.length + bs.length

/-- Whether two sets have a common part. -/
def overlaps (a b : SpanSet α) : Bool :=
  a.hull.overlaps b.hull && sweepOverlaps a.spans b.spans

def union (a b : SpanSet α) : SpanSet α := ofSpans a.first (a.rest ++ b.spans)

def unionSpan (s : SpanSet α) (x : Span α) : SpanSet α := ofSpans s.first (s.rest ++ [x])

/-- The common parts of ordered spans. Of two spans the one that ends first is left behind. -/
def sweepCommon : List (Span α) → List (Span α) → List (Span α)
  | a :: as, b :: bs =>
    let rest :=
      if a.upperBound.before b.upperBound then sweepCommon as (b :: bs)
      else sweepCommon (a :: as) bs
    match a.intersection b with
    | some common => common :: rest
    | none => rest
  | _, _ => []
termination_by as bs => as.length + bs.length

/-- The common part of two sets, if there is one. -/
def intersection (a b : SpanSet α) : Option (SpanSet α) :=
  if a.hull.overlaps b.hull then ofSpans? (sweepCommon a.spans b.spans) else none

def intersectionSpan (s : SpanSet α) (x : Span α) : Option (SpanSet α) :=
  s.intersection (ofSpan x)

end SpanSet

namespace Span

variable {α : Type} [SpanDomain α]

/-- What is left of `a` before and after `b`, in order. -/
def difference (a b : Span α) : List (Span α) :=
  if a.overlaps b then
    let before :=
      if a.lowerBound.before b.lowerBound then
        [ofBounds a.lowerBound (.upper b.lower (!b.lowerInc))]
      else []
    let after :=
      if b.upperBound.before a.upperBound then
        [ofBounds (.lower b.upper (!b.upperInc)) a.upperBound]
      else []
    before ++ after
  else [a]

/-- What is left of `a` without `b`, if anything is. -/
def minus (a b : Span α) : Option (SpanSet α) :=
  match a.difference b with
  | [] => none
  | first :: rest => some (.ofOrdered first rest)

def union (a b : Span α) : SpanSet α := .ofSpans a [b]

/-- What is left of a span without a value. A value that has no span of its own takes nothing
away. -/
def minusValue (s : Span α) (x : α) : Option (SpanSet α) :=
  match point x with
  | .ok p => s.minus p
  | .error _ => some (.ofSpan s)

end Span

namespace SpanSet

variable {α : Type} [SpanDomain α]

def subtract (s : Span α) (others : List (Span α)) : List (Span α) :=
  others.foldl (fun pieces o => pieces.flatMap fun p => p.difference o) [s]

/-- Take ordered spans away from ordered spans. Spans that end before the current one starts are
left behind for good. -/
def sweepMinus : List (Span α) → List (Span α) → List (Span α)
  | [], _ => []
  | s :: rest, others =>
    let others := others.dropWhile fun o => o.upperBound.before s.lowerBound
    let met := others.takeWhile fun o => !s.upperBound.before o.lowerBound
    subtract s met ++ sweepMinus rest others

/-- What is left of `a` without `b`, if anything is. -/
def minus (a b : SpanSet α) : Option (SpanSet α) := ofSpans? (sweepMinus a.spans b.spans)

/-- What is left of a set without a span, if anything is. -/
def minusSpan (s : SpanSet α) (x : Span α) : Option (SpanSet α) := s.minus (ofSpan x)

/-- What is left of a set without a value, if anything is. A value that has no span of its own
takes nothing away. -/
def minusValue (s : SpanSet α) (x : α) : Option (SpanSet α) :=
  match Span.point x with
  | .ok p => s.minusSpan p
  | .error _ => some s

/-- Text of a set, with at most `places` decimals. -/
def text (s : SpanSet α) (places : Nat) : String :=
  "\x7b" ++ String.intercalate ", " (s.spans.map fun x => x.text places) ++ "\x7d"

/-- Read a set: spans between braces. -/
def read (cs : List Char) : Result (SpanSet α) := do
  let inner ← Text.stripBraces "span set" cs
  let spans ← (← Text.splitTopLevel inner).mapM Span.read
  orRefuse (ofSpans? spans) (.internal "A text has no parts")

/-- Read a set from a string and report a refusal. -/
def parse (input : String) : Result (SpanSet α) := reported (read input.toList)

/-- Distance from the lower to the upper bound in native units. -/
def spanWidth (s : Span α) : Float := SpanDomain.native s.upper - SpanDomain.native s.lower

/-- The widths of the spans together, or that of the hull. -/
def width (s : SpanSet α) (ofHull : Bool) : Float :=
  if ofHull then spanWidth s.hull else Binary64.sum (s.spans.map spanWidth)

/-- Smallest gap between a span of `a` and one of `b`, zero when they overlap. -/
def distance (a b : SpanSet α) : Float :=
  if a.overlaps b then 0.0
  else
    (a.spans.flatMap fun x => b.spans.map x.distance).foldl Binary64.min Binary64.infinity

/-- Smallest gap between a span of the set and a value. -/
def distanceValue (s : SpanSet α) (x : α) : Float :=
  (s.spans.map fun y => y.distanceValue x).foldl Binary64.min Binary64.infinity

/-- All relations of span sets by name. How they lie to each other is up to their hulls. -/
def relations : List (String × (SpanSet α → SpanSet α → Bool)) :=
  (Span.relations.map fun (name, relation) => (name, fun a b => relation a.hull b.hull)) ++
    [("contains", contains), ("contained", fun a b => b.contains a), ("overlaps", overlaps)]

/-- Move every span. -/
def shift (s : SpanSet α) (d : SpanDomain.Delta α) : Result (SpanSet α) := do
  let first ← s.first.shift d
  let rest ← s.rest.mapM fun x => x.shift d
  return ofSpans first rest

/-- Stretch all bounds away from the lower bound of the set. -/
def scale (s : SpanSet α) (factor : Float) : Result (SpanSet α) := do
  Span.requireFactor factor
  let origin := SpanDomain.native s.lower
  let move (x : α) : Result α :=
    SpanDomain.ofNative (origin + (SpanDomain.native x - origin) * factor)
  let moveSpan (x : Span α) : Result (Span α) := do
    Span.new (← move x.lower) (← move x.upper) x.lowerInc x.upperInc
  let first ← moveSpan s.first
  let rest ← s.rest.mapM moveSpan
  return ofSpans first rest

end SpanSet

namespace PeriodSet

/-- Time covered by the periods, or by their hull. -/
def duration (s : PeriodSet) (ofHull : Bool) : Interval :=
  if ofHull then Period.duration s.hull
  else s.spans.foldl (fun sum p => sum.add (Period.duration p)) .zero

end PeriodSet

end TemporalAlgebra
