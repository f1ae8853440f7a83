import TemporalAlgebra.Temporal.Measure

/-!
# Bins

Time and values are divided into bins of one width, aligned on an origin. A value is split by the
bins, sampled at their boundaries, or averaged over each of them.
-/
namespace TemporalAlgebra

/-- Width of bins in microseconds, which has to be positive. -/
def binMicros (d : Interval) : Result Int :=
  match d.micros? with
  | some n =>
    if 0 < n.val then .ok n.val
    else refuse (.invalidArgValue ("The duration must be positive: " ++ d.text))
  | none => refuse (.invalidArgValue ("The duration must be positive: " ++ d.text))

/-- Start of the bin that holds a timestamp. -/
def binStart (t : Timestamp) (size : Int) (origin : Timestamp) : Result Timestamp := do
  let way ← origin.microsTo t
  let offset : Bigint ← orAbort (Signed.ofInt? (way.val / size * size))
  orRefuse (Timestamp.ofMicros? (origin.micros + offset.val))
    (.outOfRange "Timestamp out of range")

/-- Timestamps a width apart, from `first` up to `last`. -/
def binStarts (first : Timestamp) (size : Int) (last : Timestamp) : List Timestamp :=
  (List.range ((last.micros - first.micros) / size + 1).toNat).map fun (k : Nat) =>
    .nearest (first.micros + k * size)

/-- What `part` finds in the bins of a width from number `k` on, up to a greatest lower bound. When
counting on does not lead further, the bins never end, and the search gives up. -/
def binsFrom {α : Type} (width origin greatest : Float) (part : Float → Result (List α))
    (k : Float) : Result (List α) :=
  let lower := origin + k * width
  if greatest < lower then .ok []
  else do
    let here ← part lower
    if _rises : Binary64.orderKey k < Binary64.orderKey (k + 1.0) then
      return here ++ (← binsFrom width origin greatest part (k + 1.0))
    else throw .aborted
termination_by Binary64.positionsAbove k
decreasing_by exact Binary64.positionsAbove_lt ‹_›

namespace Sequence

variable {V : Type} [TemporalValue V]

/-- The instants at boundaries of bins. A discrete sequence has none but its own. -/
def samples (s : Sequence V) (size : Int) (origin : Timestamp) : Result (List (Instant V)) :=
  if s.isDiscrete then do
    let found ← s.instants.mapM fun i => do
      return if (← origin.microsTo i.time).val % size = 0 then some i else none
    return found.filterMap id
  else do
    let first ← binStart s.period.lower size origin
    let times := (binStarts first size s.period.upper).filter s.period.containsValue
    times.mapM fun t => return ⟨← s.valueNear t, t⟩

/-- Samples as sequences: one for all of them, or discrete ones for each. -/
def ofSamples (interp : Interpolation) (samples : List (Instant V)) :
    Result (List (Sequence V)) :=
  if samples.isEmpty then .ok []
  else if interp == .discrete then .ok (samples.map fun i => ofInstant i .discrete)
  else return [← make samples true true interp true]

end Sequence

namespace Temporal

section

variable {V : Type} [TemporalValue V]

/-- The part of a value in the bin that starts at `lower`, if it has any there. -/
def inBin (v : Temporal V) (d : Interval) (lower : Timestamp) :
    Result (Option (Timestamp × Temporal V)) := do
  let upper ← lower.shift d
  let bin ← Span.new lower upper true false
  return (← v.atPeriod bin).map fun part => (lower, part)

/-- The parts of a value in bins of time, each with the start of its bin. A refusal is reported. -/
def timeSplit (v : Temporal V) (d : Interval) (origin : Timestamp) :
    Result (List (Timestamp × Temporal V)) := reported do
  let size ← binMicros d
  let first ← binStart v.timespan.lower size origin
  let parts ← (binStarts first size v.timespan.upper).mapM (v.inBin d)
  return parts.filterMap id

/-- A value sampled at every boundary of bins. A discrete value keeps the instants there. A refusal
is reported. -/
def sample (v : Temporal V) (d : Interval) (origin : Timestamp) (interp : Interpolation) :
    Result (Option (Temporal V)) := reported do
  let size ← binMicros d
  let pieces ← v.sequences.mapM fun s => do
    Sequence.ofSamples interp (← s.samples size origin)
  ofPieces pieces.flatten

end

section

variable {V : Type} [NumericValue V]

/-- The part of a number in the bin from `lower` on, with the bin. -/
def inValueBin (v : Temporal V) (width lower : Float) : Result (List (V × Temporal V)) := do
  let bin ← Span.new lower (lower + width) true false
  match ← v.atSpan bin with
  | some part => return [(← NumericValue.ofFloat lower, part)]
  | none => return []

/-- The parts of a number in bins of values, each with the lower bound of its bin. A refusal is
reported. -/
def valueSplit (v : Temporal V) (size origin : V) : Result (List (V × Temporal V)) :=
  reported do
    let width := NumericValue.toFloat size
    require (decide (0.0 < width))
      (.invalidArgValue ("The bin size must be positive: " ++ NumericValue.debug size))
    let least := NumericValue.toFloat v.minInstant.value
    let greatest := NumericValue.toFloat v.maxInstant.value
    let origin := NumericValue.toFloat origin
    binsFrom width origin greatest (v.inValueBin width)
      (Binary64.floor ((least - origin) / width))

/-- The average over one bin, and how the part there lies to the ends of the bin. -/
structure BinAverage (V : Type) where
  instant : Instant V
  upper : Timestamp
  fromLower : Bool
  toUpper : Bool

/-- The average of a part over its bin. -/
def binAverage (d : Interval) (lower : Timestamp) (part : Temporal V) : Result (BinAverage V) := do
  let upper ← lower.shift d
  let x ← NumericValue.ofFloat (← part.average)
  return ⟨⟨x, lower⟩, upper, part.firstInstant.time == lower, part.lastInstant.time == upper⟩

/-- Whether the value goes on from one bin into the next. -/
def BinAverage.goesOn (a b : BinAverage V) : Bool :=
  a.toUpper && a.upper == b.instant.time && b.fromLower

/-- The average over every bin of time, at the start of the bin. Bins over which the value goes on
form one sequence. A refusal is reported. -/
def precision (v : Temporal V) (d : Interval) (origin : Timestamp) :
    Result (Option (Temporal V)) := reported do
  let interp := v.interp
  let averages ← (← v.timeSplit d origin).mapM fun part => binAverage d part.1 part.2
  let runs := averages.splitBy fun a b => interp != .discrete && a.goesOn b
  let pieces ← runs.mapM fun run =>
    Sequence.make (run.map BinAverage.instant) true true interp true
  ofPieces pieces

end

end Temporal

end TemporalAlgebra
