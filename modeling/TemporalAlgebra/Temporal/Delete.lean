import TemporalAlgebra.Temporal.Restrict

/-!
# Deletion

Values are taken away from given times. The gap is left open, or what remains on both sides of it is
joined.
-/
namespace TemporalAlgebra

variable {V : Type} [TemporalValue V]

namespace Sequence

/-- The instants after `a`, the last of which takes the value before it. -/
def repeatEnd (a : Instant V) : List (Instant V) → List (Instant V)
  | [] => []
  | [b] => [b.withValue a.value]
  | b :: c :: rest => b :: repeatEnd b (c :: rest)

/-- A sequence over some of the instants of `s`. An exclusive end of steps repeats the value before
it. -/
def withRun (s : Sequence V) (first : Instant V) (rest : List (Instant V))
    (lowerInc upperInc : Bool) (normalizing : Bool) : Result (Sequence V) :=
  let rest := if s.interp == .step && !upperInc then repeatEnd first rest else rest
  makeRun first rest lowerInc upperInc s.interp normalizing

/-- The sequence over the instants outside given times, if enough of them are left. A bound whose
instant is deleted becomes inclusive. -/
def withoutPeriods (s : Sequence V) (times : PeriodSet) : Result (Option (Sequence V)) :=
  let keeps (i : Instant V) : Bool := !times.containsValue i.time
  let lowerInc := s.lowerInc || !keeps s.first
  let upperInc := s.upperInc || !keeps s.last
  match s.instants.filter keeps with
  | [] => .ok none
  | first :: rest =>
    if rest.isEmpty && !(lowerInc && upperInc) then .ok none
    else return some (← s.withRun first rest lowerInc upperInc true)

end Sequence

namespace Temporal

/-- Delete the values at given times. If `connecting`, the instants left on both sides of a gap are
joined. A refusal is reported. -/
def deletePeriods (v : Temporal V) (times : PeriodSet) (connecting : Bool) :
    Result (Option (Temporal V)) :=
  if !connecting || v.isDiscrete then v.minusPeriods times
  else reported do
    ofPieces ((← v.sequences.mapM fun s => s.withoutPeriods times).filterMap id)

def deletePeriod (v : Temporal V) (p : Period) (connecting : Bool) :
    Result (Option (Temporal V)) :=
  v.deletePeriods (.ofSpan p) connecting

def deleteTimestamp (v : Temporal V) (t : Timestamp) (connecting : Bool) :
    Result (Option (Temporal V)) :=
  v.deletePeriods (.ofSpan (Period.singleton t)) connecting

def deleteTimestamps (v : Temporal V) (times : ValueSet Timestamp) (connecting : Bool) :
    Result (Option (Temporal V)) :=
  v.deletePeriods (timestampPeriods times) connecting

end Temporal

end TemporalAlgebra
