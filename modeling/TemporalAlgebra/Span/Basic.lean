import TemporalAlgebra.Span.Bound

/-!
# Spans

A span is the part of a domain between two bounds, each inclusive or exclusive. Spans of discrete
domains are brought to the form `[lower, upper)`. No span is empty.
-/
namespace TemporalAlgebra

open SpanDomain

/-- The part of a domain between two bounds. -/
structure Span (α : Type) where
  lower : α
  upper : α
  lowerInc : Bool
  upperInc : Bool
deriving BEq

/-- A period: a span of timestamps. -/
abbrev Period := Span Timestamp

abbrev FloatSpan := Span Float

namespace Span

variable {α : Type} [SpanDomain α]

/-- The span between two positions that are known to enclose something. -/
def ofBounds (lower upper : Bound α) : Span α :=
  ⟨lower.value, upper.value, lower.inclusive, upper.inclusive⟩

def lowerBound (s : Span α) : Bound α := .lower s.lower s.lowerInc

/-- Position of the upper bound. -/
def upperBound (s : Span α) : Bound α := .upper s.upper s.upperInc

def emptyError : Error := .invalidArgValue "Span cannot be empty"

/-- A span of a discrete domain in the form `[lower, upper)`. -/
def canonical (lower upper : α) (lowerInc upperInc : Bool) : Result (Span α) := do
  let lower ← if lowerInc then pure lower else successor lower
  let upper ← if upperInc then successor upper else pure upper
  require (SpanDomain.order lower upper == .lt) emptyError
  return ⟨lower, upper, true, false⟩

/-- Build a span. Refused are bounds that are NaN, bounds in falling order, and empty spans. -/
def make (lower upper : α) (lowerInc upperInc : Bool) : Result (Span α) := do
  require (isValid lower && isValid upper) (.invalidArgValue "Span bounds cannot be NaN")
  let order := SpanDomain.order lower upper
  require (order != .gt) (.invalidArgValue ("Span lower bound " ++ debug lower ++
    " must be less than or equal to the upper bound " ++ debug upper))
  require (order == .lt || (lowerInc && upperInc)) emptyError
  if discrete α then canonical lower upper lowerInc upperInc
  else return ⟨lower, upper, lowerInc, upperInc⟩

def new (lower upper : α) (lowerInc upperInc : Bool) : Result (Span α) :=
  reported (make lower upper lowerInc upperInc)

def make? (lower upper : α) (lowerInc upperInc : Bool) : Option (Span α) :=
  (make lower upper lowerInc upperInc).toOption

/-- The span of exactly one value. -/
def point (value : α) : Result (Span α) := new value value true true

/-- What taking a value away from spans reports: the refusal of a value that has no span of its
own. -/
def pointReports (value : α) : List Error := reportsOf (point value)

def width (s : Span α) : Result (Delta α) := SpanDomain.delta s.upper s.lower

def isInstant (s : Span α) : Bool := SpanDomain.order s.lower s.upper == .eq

/-- Order by lower bound, then by upper bound. -/
def order (a b : Span α) : Ordering :=
  (a.lowerBound.order b.lowerBound).then (a.upperBound.order b.upperBound)

def hull (a b : Span α) : Span α :=
  ofBounds (a.lowerBound.first b.lowerBound) (a.upperBound.last b.upperBound)

/-- The common part of two spans. -/
def intersection (a b : Span α) : Option (Span α) :=
  let lower := a.lowerBound.last b.lowerBound
  let upper := a.upperBound.first b.upperBound
  if upper.before lower then none else some (ofBounds lower upper)

/-- Text of a span, with at most `places` decimals. -/
def text (s : Span α) (places : Nat) : String :=
  (if s.lowerInc then "[" else "(") ++ SpanDomain.text s.lower places ++ ", " ++
    SpanDomain.text s.upper places ++ if s.upperInc then "]" else ")"

def textError (input : List Char) (what : String) : Error :=
  .textInput ("Could not parse span '" ++ String.ofList input ++ "': missing " ++ what)

/-- Read the bracket that opens a span: whether its value belongs to the span. -/
def openingInc? : Char → Option Bool
  | '[' => some true
  | '(' => some false
  | _ => none

def closingInc? : Char → Option Bool
  | ']' => some true
  | ')' => some false
  | _ => none

/-- Read a span: two values of the domain between brackets. -/
def read (input : List Char) : Result (Span α) := do
  let cs := Text.trim input
  let lowerInc ← orRefuse (cs.head?.bind openingInc?) (textError input "opening bracket")
  let upperInc ← orRefuse (cs.getLast?.bind closingInc?) (textError input "closing bracket")
  let inner := (cs.drop 1).dropLast
  let (lower, upper) ← orRefuse (Text.splitOnce ',' inner) (textError input "comma")
  let lower ← SpanDomain.read (Text.trim lower)
  let upper ← SpanDomain.read (Text.trim upper)
  make lower upper lowerInc upperInc

/-- Read a span from a string and report a refusal. -/
def parse (input : String) : Result (Span α) := reported (read input.toList)

end Span

/-- Decimals of a number in the usual text of a value. -/
def usualPlaces : Nat := 15

namespace Period

/-- The period of one instant. -/
def singleton (t : Timestamp) : Period := ⟨t, t, true, true⟩

/-- Time from the lower to the upper bound. -/
def duration (p : Period) : Interval := p.upper.since p.lower

end Period

end TemporalAlgebra
