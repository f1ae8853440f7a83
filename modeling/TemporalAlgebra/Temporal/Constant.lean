import TemporalAlgebra.Temporal.Basic
import TemporalAlgebra.ValueSet

/-!
# Constants and pointwise changes

Values that are constant over given times or over the time of another value, and changes of every
recorded value that keep the time.
-/
namespace TemporalAlgebra

namespace Sequence

variable {V : Type} [TemporalValue V]

/-- One value over a period. -/
def constant (x : V) (p : Period) (interp : Interpolation) : Result (Sequence V) := do
  require (interp != .discrete)
    (.invalidArgValue "A constant over a time span cannot be discrete")
  let stop : List (Instant V) := if p.upper == p.lower then [] else [⟨x, p.upper⟩]
  makeRun ⟨x, p.lower⟩ stop p.lowerInc p.upperInc interp false

end Sequence

namespace Temporal

section

variable {V : Type} [TemporalValue V]

def ofTimestamp (x : V) (t : Timestamp) : Temporal V := instant ⟨x, t⟩

/-- One value at every timestamp of a set. -/
def ofTimestamps (x : V) (times : ValueSet Timestamp) : Result (Temporal V) := do
  let instants := times.values.map fun t => (⟨x, t⟩ : Instant V)
  return sequence (← Sequence.new instants true true .discrete false)

/-- One value over a period; a refusal is reported. -/
def ofPeriod (x : V) (p : Period) (interp : Interpolation) : Result (Temporal V) := reported do
  return sequence (← Sequence.constant x p interp)

/-- One value over periods; a refusal is reported. -/
def ofPeriods (x : V) (times : PeriodSet) (interp : Interpolation) : Result (Temporal V) :=
  reported do
    let sequences ← times.spans.mapM fun p => Sequence.constant x p interp
    return sequenceSet (← SequenceSet.make sequences false)

end

variable {V W : Type} [TemporalValue V] [TemporalValue W]

/-- Change every recorded value; the sequences of a set are joined where they can be if `joining`.
The change has to keep the shape of segments. -/
def mapWith (joining : Bool) (v : Temporal V) (change : V → Result W) : Result (Temporal W) :=
  match v with
  | instant i => return instant (i.withValue (← change i.value))
  | sequence s => return sequence (← s.mapValues change)
  | sequenceSet s => do
    let sequences ← s.sequences.mapM fun x => x.mapValues change
    return sequenceSet (← SequenceSet.make sequences joining)

def mapValues (v : Temporal V) (change : V → Result W) : Result (Temporal W) :=
  v.mapWith true change

/-- One value over the time of another; a refusal is reported. -/
def constantLike (x : W) (frame : Temporal V) : Result (Temporal W) :=
  reported (frame.mapWith false fun _ => .ok x)

end Temporal

end TemporalAlgebra
