import TemporalAlgebra.Temporal.Restrict

/-!
# Merging

The union of values that agree wherever they meet, insertion of one value into another, and
replacement of a part.
-/
namespace TemporalAlgebra

/-- The refusal of values that differ at a common timestamp. -/
def conflictError (t : Timestamp) : Error :=
  .invalidArg ("The temporal values have different values at their common timestamp " ++ t.text)

variable {V : Type} [TemporalValue V]

namespace Sequence

/-- The instants from `a` on, one for each timestamp. Values at one timestamp have to be equal. -/
def unite (a : Instant V) : List (Instant V) → Result (List (Instant V))
  | [] => .ok [a]
  | b :: rest =>
    if a.time == b.time then do
      require (a.value == b.value) (conflictError b.time)
      unite a rest
    else return a :: (← unite b rest)

/-- The sequences from `a` on, which may meet only where they are equal. An instant in common
stays with the earlier sequence. -/
def settle (a : Sequence V) : List (Sequence V) → Result (List (Sequence V))
  | [] => .ok [a]
  | b :: rest => do
    let stop := a.last.time
    let start := b.first.time
    require (!decide (start < stop))
      (.invalidArg ("The temporal values overlap on time at " ++ start.text))
    if stop == start && a.upperInc && b.lowerInc then
      require (a.last.value == b.first.value) (conflictError start)
      if b.isInstantaneous then settle a rest
      else return a :: (← settle (rebox { b with lowerInc := false }) rest)
    else return a :: (← settle b rest)

/-- Sequences in order of their periods. -/
def sort (sequences : List (Sequence V)) : List (Sequence V) :=
  sequences.mergeSort fun a b => a.period.order b.period != .gt

/-- A sequence and whether it is inserted. -/
structure Tagged (V : Type) [TemporalValue V] where
  sequence : Sequence V
  inserted : Bool

/-- Join sequences across the gaps between inserted ones and others. -/
def bridge (interp : Interpolation) (a : Tagged V) :
    List (Tagged V) → Result (List (Sequence V))
  | [] => .ok [a.sequence]
  | b :: rest =>
    let prev := a.sequence
    let next := b.sequence
    if a.inserted != b.inserted && decide (prev.last.time < next.first.time) then do
      let run ← normalize interp prev.first (prev.rest ++ next.instants)
      let joined ← makeRun prev.first run prev.lowerInc next.upperInc interp false
      bridge interp ⟨joined, b.inserted⟩ rest
    else return prev :: (← bridge interp b rest)

/-- The same sequence in another interpolation. -/
def adopt (interp : Interpolation) (s : Sequence V) : Result (Sequence V) :=
  if s.interp == interp then .ok s else makeRun s.first s.rest true true interp false

end Sequence

namespace Temporal

/-- Merge discrete values: one instant for each timestamp. -/
def mergeDiscrete (values : List (Temporal V)) : Result (Temporal V) :=
  match (values.flatMap instants).mergeSort fun a b => a.time ≤ b.time with
  | [] => refuse (.invalidArg "A temporal sequence needs at least one instant")
  | first :: rest => do
    match ← Sequence.unite first rest with
    | [i] => return instant i
    | found => return sequence (← Sequence.make found true true .discrete false)

/-- Merge continuous sequences of the given interpolation. -/
def mergeSequences (interp : Interpolation) (sequences : List (Sequence V)) :
    Result (Temporal V) := do
  require (sequences.all fun s => s.interp == interp)
    (.invalidArg "The temporal values must have the same interpolation")
  match Sequence.sort sequences with
  | [] => ofSequences []
  | first :: rest => ofSequences (← Sequence.settle first rest)

/-- The sequences of a value that is merged with continuous ones. -/
def sequencesToMerge (interp : Interpolation) (v : Temporal V) : Result (List (Sequence V)) :=
  match v with
  | instant i => .ok [.ofInstant i interp]
  | _ => do
    require (!v.isDiscrete)
      (.invalidArg "Cannot merge discrete and continuous temporal values")
    return v.sequences

/-- Merge values silently. Their values have to go together. -/
def mergeAll (values : List (Temporal V)) : Result (Temporal V) :=
  match values with
  | [] => refuse (.invalidArg "Cannot merge an empty list of temporal values")
  | first :: rest => do
    rest.forM fun v => TemporalValue.compatible first.firstInstant.value v.firstInstant.value
    match values.find? fun v => !v.isDiscrete with
    | none => mergeDiscrete values
    | some continuous =>
      let interp := continuous.interp
      mergeSequences interp (← values.mapM (sequencesToMerge interp)).flatten

/-- The union of values, at least one; a refusal is reported. -/
def mergeArray (values : List (Temporal V)) : Result (Temporal V) := reported (mergeAll values)

/-- The union of two values; a refusal is reported. -/
def merge (a b : Temporal V) : Result (Temporal V) := reported (mergeAll [a, b])

/-- Insert `b` into `a`, which may meet it only where they are equal. If `connecting`, every
inserted sequence is joined to those right before and after it. A refusal is reported. -/
def insert (a b : Temporal V) (connecting : Bool) : Result (Temporal V) := reported do
  let merged ← mergeAll [a, b]
  if !connecting || merged.isDiscrete then return merged
  else
    let tagged := (a.sequences.map fun s => (⟨s, false⟩ : Sequence.Tagged V)) ++
      b.sequences.map fun s => ⟨s, true⟩
    let ordered := tagged.mergeSort fun s t =>
      s.sequence.period.order t.sequence.period != .gt
    let interp := merged.interp
    let adopted ← ordered.mapM fun s => do
      return { s with sequence := ← s.sequence.adopt interp }
    match adopted with
    | [] => return merged
    | first :: rest => mergeAll ((← Sequence.bridge interp first rest).map sequence)

/-- Replace the values of `a` on the time of `b` by those of `b`. -/
def update (a b : Temporal V) (connecting : Bool) : Result (Temporal V) := do
  match ← a.minusPeriods b.time with
  | some left => left.insert b connecting
  | none => return b

end Temporal

end TemporalAlgebra
