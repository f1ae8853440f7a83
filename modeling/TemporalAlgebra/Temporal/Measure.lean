import TemporalAlgebra.Temporal.Constant
import TemporalAlgebra.Temporal.Restrict

/-!
# Measures

Areas, averages over time, lengths of paths and rates of change.
-/
namespace TemporalAlgebra

/-- Sum of the numbers of a list and their count. -/
def mean (xs : List Float) : Float :=
  xs.foldl (· + ·) 0.0 / Binary64.ofInt xs.length

namespace Instant

/-- Seconds between two instants. -/
def secondsTo {V : Type} (a b : Instant V) : Result Float :=
  return (← a.time.distanceTo b.time) / 1000000.0

end Instant

namespace Sequence

section

variable {V : Type} [NumericValue V]

/-- Area under a segment, in microseconds times the value. -/
def segmentArea (interp : Interpolation) (a b : Instant V) : Result Float := do
  let dt ← a.time.distanceTo b.time
  let x := NumericValue.toFloat a.value
  match interp with
  | .linear => return (x + NumericValue.toFloat b.value) / 2.0 * dt
  | _ => return x * dt

/-- Area under a sequence; a discrete one has none. -/
def integral (s : Sequence V) : Result Float :=
  if s.isDiscrete then return 0.0
  else return Binary64.sum (← s.segments.mapM fun ab => segmentArea s.interp ab.1 ab.2)

end

section

variable {V : Type} [TemporalValue V]

/-- The rate of every segment from its start, by steps; the last rate is repeated at the end. A
single instant has none. -/
def rates (s : Sequence V) (rate : Instant V → Instant V → Result Float) :
    Result (Option (Sequence Float)) := do
  match ← s.segments.mapM fun ab => return ab.1.withValue (← rate ab.1 ab.2) with
  | [] => return none
  | first :: rest =>
    let stop := s.last.withValue (rest.getLastD first).value
    return some (← makeRun first (rest ++ [stop]) s.lowerInc s.upperInc .step true)

end

/-- Length of a path; points move only along linear segments. -/
def length (s : Sequence Point) : Float :=
  if s.interp == .linear then
    Binary64.sum (s.segments.map fun ab => ab.1.value.distance ab.2.value)
  else 0.0

/-- Length of the path up to each instant from `a` on, of which `total` lies before `a`. -/
def lengthsFrom (total : Float) (a : Instant Point) : List (Instant Point) → List (Instant Float)
  | [] => [a.withValue total]
  | b :: rest =>
    a.withValue total :: lengthsFrom (total + a.value.distance b.value) b rest

/-- Length of a path over time, of which `total` lies before the sequence. -/
def cumulative (total : Float) (s : Sequence Point) : Result (Sequence Float) :=
  make (lengthsFrom total s.first s.rest) s.lowerInc s.upperInc s.interp true

/-- Lengths of paths one after the other. -/
def cumulativeAll (total : Float) : List (Sequence Point) → Result (List (Sequence Float))
  | [] => .ok []
  | s :: rest => do
    let lengths ← cumulative total s
    return lengths :: (← cumulativeAll lengths.last.value rest)

end Sequence

namespace Temporal

section

variable {V : Type} [NumericValue V]

/-- Area under a number, in microseconds times the value. -/
def integral (v : Temporal V) : Result Float :=
  return Binary64.sum (← v.sequences.mapM Sequence.integral)

/-- Microseconds from the starts to the ends of the continuous sequences together. -/
def continuousMicros (v : Temporal V) : Result Bigint :=
  v.continuousSequences.foldlM (fun total s => do
    orAbort (total.add? (← s.first.time.microsTo s.last.time))) ⟨0, by decide, by decide⟩

/-- Average over time; the average of the instants when the value takes no time. -/
def average (v : Temporal V) : Result Float := do
  let micros := (← v.continuousMicros).val
  if micros = 0 then return mean (v.instants.map fun i => NumericValue.toFloat i.value)
  else return (← v.integral) / Binary64.ofInt micros

end

section

variable {V : Type} [TemporalValue V]

/-- The rates of linear segments, by steps. -/
def rates (v : Temporal V) (rate : Instant V → Instant V → Result Float) :
    Result (Option (Temporal Float)) := do
  require (v.interp == .linear)
    (.invalidArg "The temporal value must have linear interpolation")
  ofPieces ((← v.sequences.mapM fun s => s.rates rate).filterMap id)

end

/-- Slope of every linear segment per second; none when all sequences are single instants. A
refusal is reported. -/
def derivative {V : Type} [NumericValue V] (v : Temporal V) : Result (Option (Temporal Float)) :=
  reported (v.rates fun a b => do
    return (NumericValue.toFloat b.value - NumericValue.toFloat a.value) / (← a.secondsTo b))

/-- Length of the path of a moving point. -/
def length (v : Temporal Point) : Float := Binary64.sum (v.sequences.map Sequence.length)

/-- Length of the path since the start, which does not grow in gaps. A refusal is reported. -/
def cumulativeLength (v : Temporal Point) : Result (Temporal Float) := reported do
  if v.interp != .linear then constantLike (0.0 : Float) v
  else
    match v with
    | sequenceSet s =>
      return sequenceSet (← SequenceSet.make (← Sequence.cumulativeAll 0.0 s.sequences) true)
    | sequence s => return sequence (← Sequence.cumulative 0.0 s)
    | instant i => return instant (i.withValue 0.0)

/-- Speed along every linear segment, per second. A refusal is reported. -/
def speed (v : Temporal Point) : Result (Option (Temporal Float)) :=
  reported (v.rates fun a b => return a.value.distance b.value / (← a.secondsTo b))

end Temporal

end TemporalAlgebra
