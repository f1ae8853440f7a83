import TemporalAlgebra.Temporal.Basic
import TemporalAlgebra.Temporal.Filter
import TemporalAlgebra.ValueSet

/-!
# Restriction

A value is restricted to periods, to values or to boxes. Restriction to values is restriction to the
times at which a filter selects them; what is left without them is restriction to the other times,
so the two parts make up the whole.
-/
namespace TemporalAlgebra

namespace Sequence

variable {V : Type} [TemporalValue V]

def segments (s : Sequence V) : List (Instant V × Instant V) := s.instants.zip s.rest

/-- The value with which the part of a sequence up to `hi` ends: the one before an exclusive end of
steps. -/
def endValue (s : Sequence V) (hi : Timestamp) (upperInc : Bool) : Result V :=
  if s.interp == .step && !upperInc then s.leftLimit hi else s.valueNear hi

/-- The part of a continuous sequence within a period, if there is any. -/
def atPeriod (s : Sequence V) (p : Period) : Result (Option (Sequence V)) :=
  match s.period.intersection p with
  | none => .ok none
  | some common => do
    let lo := common.lower
    let hi := common.upper
    let first : Instant V := ⟨← s.valueNear lo, lo⟩
    if common.isInstant then return some (ofInstant first s.interp)
    else
      let stop ← s.endValue hi common.upperInc
      let inside := s.instants.filter fun i => decide (lo < i.time ∧ i.time < hi)
      return some (← makeRun first (inside ++ [⟨stop, hi⟩]) common.lowerInc common.upperInc
        s.interp true)

/-- The parts of a sequence within periods. -/
def atPeriods (s : Sequence V) (times : PeriodSet) : Result (List (Sequence V)) :=
  if s.isDiscrete then
    match s.instants.filter fun i => times.containsValue i.time with
    | [] => .ok []
    | first :: rest => return [← makeRun first rest true true .discrete false]
  else do
    let met := times.spans.filter fun p => p.overlaps s.period
    return (← met.mapM s.atPeriod).filterMap id

/-- Times within one segment at which a filter selects the value. -/
def segmentTimes (interp : Interpolation) (filter : ValueFilter V) (a b : Instant V) :
    Result (List Period) :=
  match interp with
  | .linear => do
    let found ← (filter.along a.value b.value).mapM fun r => do
      let lower ← a.time.lerp b.time r.lower
      let upper ← a.time.lerp b.time r.upper
      return Span.make? lower upper r.lowerInc r.upperInc
    return found.filterMap id
  | _ => return if filter.holds a.value then (Span.make? a.time b.time true false).toList else []

/-- Times at which a filter selects the value, if there are any. -/
def timesWhere (s : Sequence V) (filter : ValueFilter V) : Result (Option PeriodSet) := do
  let points (instants : List (Instant V)) : List Period :=
    (instants.filter fun i => filter.holds i.value).map fun i => Period.singleton i.time
  let found ←
    if s.isDiscrete || s.isInstantaneous then pure (points s.instants)
    else do
      let along ← s.segments.mapM fun ab => segmentTimes s.interp filter ab.1 ab.2
      pure (along.flatten ++ if s.interp == .step then points [s.last] else [])
  return (SpanSet.ofSpans? found).bind fun times => times.intersectionSpan s.period

/-- The same sequence with the exact forms of its values. -/
def snap (s : Sequence V) (filter : ValueFilter V) : Sequence V :=
  let exact (i : Instant V) : Instant V := i.withValue (filter.snap i.value)
  rebox { s with first := exact s.first, rest := s.rest.map exact }

/-- The parts of a sequence that a filter selects. -/
def atFilter (s : Sequence V) (filter : ValueFilter V) : Result (List (Sequence V)) := do
  match ← s.timesWhere filter with
  | none => return []
  | some times => return (← s.atPeriods times).map fun x => x.snap filter

/-- The parts of a sequence that a filter does not select. -/
def minusFilter (s : Sequence V) (filter : ValueFilter V) : Result (List (Sequence V)) := do
  let whole := SpanSet.ofSpan s.period
  let left :=
    match ← s.timesWhere filter with
    | none => some whole
    | some times => whole.minus times
  match left with
  | none => return []
  | some times => s.atPeriods times

end Sequence

namespace Temporal

section

variable {V : Type} [TemporalValue V]

/-- The part of a value that a filter selects. -/
def atFilter (v : Temporal V) (filter : ValueFilter V) : Result (Option (Temporal V)) :=
  match v with
  | instant i => .ok (if filter.holds i.value then some v else none)
  | _ => do ofPieces (← v.sequences.mapM fun s => s.atFilter filter).flatten

/-- The part of a value that a filter does not select. -/
def minusFilter (v : Temporal V) (filter : ValueFilter V) : Result (Option (Temporal V)) :=
  match v with
  | instant i => .ok (if filter.holds i.value then none else some v)
  | _ => do ofPieces (← v.sequences.mapM fun s => s.minusFilter filter).flatten

/-- The part of a value within periods, silently. -/
def withinPeriods (v : Temporal V) (times : PeriodSet) : Result (Option (Temporal V)) :=
  if !v.timespan.overlaps times.hull then .ok none
  else
    match v with
    | instant i => .ok (if times.containsValue i.time then some v else none)
    | _ => do ofPieces (← v.sequences.mapM fun s => s.atPeriods times).flatten

/-- The part of a value outside periods, silently. -/
def outsidePeriods (v : Temporal V) (times : PeriodSet) : Result (Option (Temporal V)) :=
  if !v.timespan.overlaps times.hull then .ok (some v)
  else
    match v.time.minus times with
    | none => .ok none
    | some left => v.withinPeriods left

/-- The part of a value within periods; a refusal is reported. -/
def atPeriods (v : Temporal V) (times : PeriodSet) : Result (Option (Temporal V)) :=
  reported (v.withinPeriods times)

/-- The part of a value outside periods; a refusal is reported. -/
def minusPeriods (v : Temporal V) (times : PeriodSet) : Result (Option (Temporal V)) :=
  reported (v.outsidePeriods times)

/-- The part of a value within one period. -/
def atPeriod (v : Temporal V) (p : Period) : Result (Option (Temporal V)) :=
  v.atPeriods (.ofSpan p)

/-- The part of a value outside one period. -/
def minusPeriod (v : Temporal V) (p : Period) : Result (Option (Temporal V)) :=
  v.minusPeriods (.ofSpan p)

def atTimestamp (v : Temporal V) (t : Timestamp) : Result (Option (Temporal V)) :=
  return (← v.lookup t).map fun x => instant ⟨x, t⟩

def minusTimestamp (v : Temporal V) (t : Timestamp) : Result (Option (Temporal V)) :=
  v.minusPeriods (.ofSpan (Period.singleton t))

/-- The values at timestamps, as an instant or a discrete sequence. -/
def atTimestamps (v : Temporal V) (times : ValueSet Timestamp) : Result (Option (Temporal V)) := do
  let found ← times.values.mapM fun t => do
    return (← v.lookup t).map fun x => (⟨x, t⟩ : Instant V)
  match found.filterMap id with
  | [] => return none
  | [i] => return some (instant i)
  | instants => return some (sequence (← Sequence.new instants true true .discrete false))

def timestampPeriods (times : ValueSet Timestamp) : PeriodSet :=
  pointPeriods times.first times.rest

def minusTimestamps (v : Temporal V) (times : ValueSet Timestamp) : Result (Option (Temporal V)) :=
  v.minusPeriods (timestampPeriods times)

/-- Values have to go together with those of `v`. -/
def checkValues (v : Temporal V) : List V → Result Unit
  | [] => .ok ()
  | x :: xs => do
    TemporalValue.compatible v.firstInstant.value x
    v.checkValues xs

def atValue (v : Temporal V) (x : V) : Result (Option (Temporal V)) := reported do
  v.checkValues [x]
  v.atFilter (.equalTo x)

def minusValue (v : Temporal V) (x : V) : Result (Option (Temporal V)) := reported do
  v.checkValues [x]
  v.minusFilter (.equalTo x)

def atValues (v : Temporal V) (xs : List V) : Result (Option (Temporal V)) := reported do
  v.checkValues xs
  v.atFilter (.oneOf xs)

/-- The part that has none of some values. -/
def minusValues (v : Temporal V) (xs : List V) : Result (Option (Temporal V)) := reported do
  v.checkValues xs
  v.minusFilter (.oneOf xs)

/-- The part that has the least value. -/
def atMin (v : Temporal V) : Result (Option (Temporal V)) := v.atValue v.minInstant.value

/-- The part that has not the least value. -/
def minusMin (v : Temporal V) : Result (Option (Temporal V)) := v.minusValue v.minInstant.value

/-- The part that has the greatest value. -/
def atMax (v : Temporal V) : Result (Option (Temporal V)) := v.atValue v.maxInstant.value

/-- The part that has not the greatest value. -/
def minusMax (v : Temporal V) : Result (Option (Temporal V)) := v.minusValue v.maxInstant.value

/-- What is left of a value without the time of a part of it. -/
def minusPart (v : Temporal V) (part : Option (Temporal V)) : Result (Option (Temporal V)) :=
  match part with
  | none => .ok (some v)
  | some found => v.outsidePeriods found.time

end

section

variable {V : Type} [NumericValue V]

def meetsBox (v : Temporal V) (b : TBox) : Bool :=
  TemporalBox.overlaps (NumericValue.numberBox v.box) b

def atSpans (v : Temporal V) (s : SpanSet Float) : Result (Option (Temporal V)) :=
  if !v.meetsBox (.ofSpan s.hull) then .ok none else reported (v.atFilter (.inSpans s))

def minusSpans (v : Temporal V) (s : SpanSet Float) : Result (Option (Temporal V)) :=
  if !v.meetsBox (.ofSpan s.hull) then .ok (some v) else reported (v.minusFilter (.inSpans s))

/-- The part that has numbers in a span. -/
def atSpan (v : Temporal V) (s : FloatSpan) : Result (Option (Temporal V)) := v.atSpans (.ofSpan s)

/-- The part that has numbers outside a span. -/
def minusSpan (v : Temporal V) (s : FloatSpan) : Result (Option (Temporal V)) :=
  v.minusSpans (.ofSpan s)

/-- The part within the extents of a box. -/
def atTBox (v : Temporal V) (b : TBox) : Result (Option (Temporal V)) :=
  if !v.meetsBox b then .ok none
  else do
    let timed ←
      match b.period with
      | some p => v.atPeriod p
      | none => pure (some v)
    match timed, b.span with
    | some x, some s => x.atSpan s
    | timed, _ => return timed

/-- The part outside the extents of a box. -/
def minusTBox (v : Temporal V) (b : TBox) : Result (Option (Temporal V)) := do
  let part ← v.atTBox b
  reported (v.minusPart part)

end

/-- The part of a moving point within a box. -/
def atSTBox (v : Temporal Point) (b : STBox) : Result (Option (Temporal Point)) := reported do
  let srid := v.firstInstant.value.srid
  require (!b.hasX || b.srid == srid) (Point.mixedSrid srid b.srid)
  if !TemporalBox.overlaps (β := STBox) v.box b then return none
  let timed ←
    match b.period with
    | some p => v.withinPeriods (.ofSpan p)
    | none => pure (some v)
  match timed with
  | some x => x.atFilter (.inBox b)
  | none => return none

/-- The part of a moving point outside a box. -/
def minusSTBox (v : Temporal Point) (b : STBox) : Result (Option (Temporal Point)) := do
  let part ← v.atSTBox b
  reported (v.minusPart part)

end Temporal

end TemporalAlgebra
