import TemporalAlgebra.Temporal.Sequence

/-!
# Sequence sets

A sequence set holds sequences of one interpolation that follow each other in time, with gaps or
jumps between them. Those that touch without a jump are joined when the set is normalised.
-/
namespace TemporalAlgebra

/-- Sequences that follow each other in time, at least one. -/
structure SequenceSet (V : Type) [TemporalValue V] where
  first : Sequence V
  rest : List (Sequence V)
  box : TemporalValue.Box V

namespace SequenceSet

variable {V : Type} [TemporalValue V]

def sequences (s : SequenceSet V) : List (Sequence V) := s.first :: s.rest

def last (s : SequenceSet V) : Sequence V := s.rest.getLastD s.first

instance : BEq (SequenceSet V) := ⟨fun a b => a.sequences == b.sequences⟩

def interp (s : SequenceSet V) : Interpolation := s.first.interp

/-- Check that sequences are continuous and have one interpolation. -/
def checkKinds (interp : Interpolation) : List (Sequence V) → Result Unit
  | [] => .ok ()
  | s :: rest => do
    require (!s.isDiscrete)
      (.invalidArg "A temporal sequence set cannot hold discrete sequences")
    require (s.interp == interp)
      (.invalidArg "The sequences of a sequence set must have the same interpolation")
    checkKinds interp rest

/-- Check that sequences follow each other in time and that their values go together. -/
def checkRising (a : Sequence V) : List (Sequence V) → Result Unit
  | [] => .ok ()
  | b :: rest => do
    let stop := a.last.time
    let start := b.first.time
    require (decide (stop < start) || stop == start && !(a.upperInc && b.lowerInc))
      (risingError stop start)
    TemporalValue.compatible a.last.value b.first.value
    checkRising b rest

/-- The instants of two sequences as one run, when they touch and the value does not jump. The
exclusive end of steps only repeats a value and gives way to what follows. -/
def joined (a b : Sequence V) : Option (Instant V × List (Instant V)) :=
  if a.last.time == b.first.time && a.upperInc != b.lowerInc then
    if a.interp == .step && !a.upperInc then some (a.first, a.rest.dropLast ++ b.instants)
    else if a.last.value == b.first.value then some (a.first, a.rest ++ b.rest)
    else none
  else none

/-- Join sequences that touch without a jump, from the first one on. -/
def join (a : Sequence V) : List (Sequence V) → Result (Sequence V × List (Sequence V))
  | [] => .ok (a, [])
  | b :: rest =>
    match joined a b with
    | some (first, run) => do
      let kept ← Sequence.normalize a.interp first run
      let s ← Sequence.makeRun first kept a.lowerInc b.upperInc a.interp false
      join s rest
    | none => do
      let (next, more) ← join b rest
      return (a, next :: more)

/-- A set with its bounding box computed. -/
def ofRun (first : Sequence V) (rest : List (Sequence V)) : SequenceSet V :=
  ⟨first, rest, rest.foldl (fun b s => TemporalBox.hull b s.box) first.box⟩

/-- Build a set from sequences, which are joined where they can be if `normalizing`. -/
def make (sequences : List (Sequence V)) (normalizing : Bool) : Result (SequenceSet V) :=
  match sequences with
  | [] => refuse (.invalidArg "A temporal sequence set needs at least one sequence")
  | first :: rest => do
    checkKinds first.interp sequences
    checkRising first rest
    if normalizing then
      let (first, rest) ← join first rest
      return ofRun first rest
    else return ofRun first rest

def new (sequences : List (Sequence V)) (normalizing : Bool) : Result (SequenceSet V) :=
  reported (make sequences normalizing)

/-- Period from the start of the first to the end of the last sequence. -/
def period (s : SequenceSet V) : Period :=
  Span.ofBounds s.first.period.lowerBound s.last.period.upperBound

/-- Value at `t`, if it lies in the time of a sequence. Two sequences may share a timestamp that
only one of them includes. -/
def lookup (s : SequenceSet V) (t : Timestamp) : Result (Option V) :=
  ((s.sequences.dropWhile fun x => decide (x.last.time < t)).take 2).findSomeM? fun x => x.lookup t

/-- Order of lists of sequences; of two that agree the shorter is first. -/
def orderRuns : List (Sequence V) → List (Sequence V) → Ordering
  | a :: as, b :: bs => (a.order b).then (orderRuns as bs)
  | [], [] => .eq
  | [], _ :: _ => .lt
  | _ :: _, [] => .gt

def order (a b : SequenceSet V) : Ordering :=
  (TemporalBox.order a.box b.box).then (orderRuns a.sequences b.sequences)

end SequenceSet

end TemporalAlgebra
