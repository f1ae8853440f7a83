import TemporalAlgebra.Config.Basic
import TemporalAlgebra.Temporal.Merge

/-!
# Appending

Instants and sequences are put behind the end of a value. An instant that is too far from the last
one, in time or in value, starts a new sequence.
-/
namespace TemporalAlgebra

/-- Limits of what counts as one sequence. -/
structure GapLimits where
  distance : Option Float
  time : Option Interval

variable {V : Type} [TemporalValue V]

/-- Whether two instants are further apart than the limits allow. -/
def GapLimits.exceeded (limits : GapLimits) (a b : Instant V) : Bool :=
  (limits.time.any fun d => decide (d < b.time.since a.time)) ||
    limits.distance.any fun d =>
      (TemporalValue.gap a.value b.value).any fun x => decide (d < x)

namespace Sequence

/-- The instants after `a` with one more, which takes the place of the last one if that adds
nothing then. -/
def extend (interp : Interpolation) (a : Instant V) (i : Instant V) :
    List (Instant V) → Result (List (Instant V))
  | [] => return [i]
  | [m] => return if ← redundant interp a m i then [i] else [m, i]
  | m :: n :: rest => return m :: (← extend interp m i (n :: rest))

/-- The sequence with one more instant behind its end. -/
def push (s : Sequence V) (i : Instant V) (config : AppendConfig) : Result (Sequence V) := do
  let count := s.instants.length
  let capacity :=
    if s.capacity ≤ count then max (config.grow s.capacity) count else s.capacity
  let rest ← extend s.interp s.first i s.rest
  let box := TemporalBox.setPeriod (TemporalBox.hull s.box i.box)
    ⟨s.first.time, i.time, s.lowerInc, true⟩
  return { s with rest, upperInc := true, box, capacity }

/-- Append an instant at the timestamp of the last one. It has to repeat its value, unless the
sequence ends there exclusively: then it ends the sequence, or starts a new one when the value
jumps. -/
def appendAtEnd (s : Sequence V) (i : Instant V) : Result (Option (Sequence V)) :=
  if s.upperInc || s.isDiscrete then do
    require (i.value == s.last.value) (conflictError i.time)
    return some s
  else if i.value == s.last.value then return some (rebox { s with upperInc := true })
  else if s.interp == .step then
    return some (rebox { s with rest := s.rest.dropLast ++ [i], upperInc := true })
  else return none

/-- Append an instant; nothing when it starts a new sequence. -/
def append? (s : Sequence V) (i : Instant V) (limits : GapLimits) (config : AppendConfig) :
    Result (Option (Sequence V)) :=
  if i.time < s.last.time then refuse (risingError s.last.time i.time)
  else if i.time = s.last.time then s.appendAtEnd i
  else if !s.isDiscrete && limits.exceeded s.last i then .ok none
  else return some (← s.push i config)

end Sequence

namespace SequenceSet

/-- The set with the last sequence changed to the given ones; the box only grows. -/
def replaceLast (s : SequenceSet V) (last : Sequence V) (more : Option (Sequence V)) :
    SequenceSet V :=
  let box := TemporalBox.hull s.box (more.getD last).box
  match s.rest with
  | [] => ⟨last, more.toList, box⟩
  | rest => ⟨s.first, rest.dropLast ++ last :: more.toList, box⟩

/-- Append an instant to the last sequence, or as a new one. -/
def append (s : SequenceSet V) (i : Instant V) (limits : GapLimits) (config : AppendConfig) :
    Result (SequenceSet V) := do
  match ← s.last.append? i limits config with
  | some last => return s.replaceLast last none
  | none => return s.replaceLast s.last (some (.ofInstant i s.last.interp))

end SequenceSet

namespace Temporal

def appendToInstant (first i : Instant V) (interp : Interpolation) (limits : GapLimits)
    (config : AppendConfig) : Result (Temporal V) :=
  if i.time < first.time then refuse (risingError first.time i.time)
  else if i.time = first.time then do
    require (i.value == first.value) (conflictError i.time)
    return instant first
  else if interp != .discrete && limits.exceeded first i then do
    let start ← Sequence.makeRun first [] true true interp false
    return sequenceSet (← SequenceSet.make [start, .ofInstant i interp] false)
  else do
    let s ← Sequence.makeRun first [i] true true interp false
    return sequence (s.reserve config.initialMaxcount)

/-- Append an instant. The interpolation is used when the value is a single instant so far. A
refusal is reported. -/
def appendInstant (v : Temporal V) (i : Instant V) (interp : Interpolation) (limits : GapLimits)
    (config : AppendConfig) : Result (Temporal V) := reported do
  TemporalValue.compatible v.firstInstant.value i.value
  match v with
  | instant first => appendToInstant first i interp limits config
  | sequence s =>
    match ← s.append? i limits config with
    | some longer => return sequence longer
    | none => return sequenceSet (← SequenceSet.make [s, .ofInstant i s.interp] false)
  | sequenceSet s => return sequenceSet (← s.append i limits config)

/-- Append a sequence behind the end of a value, joined to its last sequence where they touch. A
refusal is reported. -/
def appendSequence (v : Temporal V) (s : Sequence V) : Result (Temporal V) := reported do
  TemporalValue.compatible v.firstInstant.value s.first.value
  require (v.isInstant || v.isDiscrete == s.isDiscrete)
    (.invalidArg "Cannot append a sequence with a different interpolation")
  require (!decide (s.first.time < v.lastInstant.time))
    (risingError v.lastInstant.time s.first.time)
  mergeAll [v, sequence s]

/-- Build a value from instants, with a new sequence wherever they are further apart than the
limits allow. A refusal is reported. -/
def ofInstants (instants : List (Instant V)) (interp : Interpolation) (limits : GapLimits) :
    Result (Temporal V) := reported do
  if interp == .discrete || decide (instants.length < 2) then
    return sequence (← Sequence.make instants true true interp true)
  else
    let runs := instants.splitBy fun a b => !limits.exceeded a b
    ofSequences (← runs.mapM fun run => Sequence.make run true true interp true)

end Temporal

end TemporalAlgebra
