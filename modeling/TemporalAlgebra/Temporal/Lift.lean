import TemporalAlgebra.Temporal.Constant

/-!
# Lifting

A function of two values is lifted to temporal values over the time that both have. Over every pair
of sequences that meet, the result is computed at the instants of either one, at the ends of the
common period and at the turning points between them.
-/
namespace TemporalAlgebra

/-- A function of two values that is to be lifted. -/
structure Lifting (V R : Type) where
  apply : V → V → Result R
  /-- Fraction strictly inside two segments, of which starts and ends are given, at which the
  result has to be computed too. -/
  turning : V → V → V → V → Option Float := fun _ _ _ _ => none

def Timestamp.distinct (times : List Timestamp) : List Timestamp :=
  Temporal.distinctBy (· == ·) (times.mergeSort fun t u => t ≤ u)

namespace Sequence

variable {V R : Type} [TemporalValue V] [TemporalValue R]

/-- Value strictly inside a stretch from `t0` to `t1` without instants between them. -/
def inside (s : Sequence V) (t0 t1 : Timestamp) : Result V := do
  let start ← s.valueNear t0
  match s.interp with
  | .linear => return TemporalValue.interpolate start (← s.leftLimit t1) 0.5
  | _ => return start

/-- One value from `t0` up to but not including `t1`. -/
def stepPiece (x : R) (t0 t1 : Timestamp) (lowerInc : Bool) : Result (Sequence R) :=
  makeRun ⟨x, t0⟩ [⟨x, t1⟩] lowerInc false .step false

/-- Timestamps within a period at which two sequences have an instant, and its ends. -/
def commonTimes (a b : Sequence V) (p : Period) : List Timestamp :=
  let inner := ((a.instants ++ b.instants).map Instant.time).filter fun t =>
    decide (p.lower < t ∧ t < p.upper)
  Timestamp.distinct (inner ++ [p.lower, p.upper])

/-- Turning point between two timestamps, if it lies strictly between them. -/
def turningTime (g : Lifting V R) (a b : Sequence V) (t0 t1 : Timestamp) :
    Result (Option Timestamp) := do
  match g.turning (← a.valueNear t0) (← a.leftLimit t1) (← b.valueNear t0) (← b.leftLimit t1) with
  | none => return none
  | some r =>
    let t ← t0.lerp t1 r
    return if t0 < t ∧ t < t1 then some t else none

/-- Add the turning points to the times of two sequences. -/
def withTurnings (g : Lifting V R) (a b : Sequence V) (times : List Timestamp) :
    Result (List Timestamp) := do
  let turnings ← (times.zip times.tail).mapM fun t => turningTime g a b t.1 t.2
  return Timestamp.distinct (times ++ turnings.filterMap id)

def liftAt (g : Lifting V R) (a b : Sequence V) (t : Timestamp) : Result (Instant R) :=
  return ⟨← g.apply (← a.valueNear t) (← b.valueNear t), t⟩

/-- The result from `t0` up to but not including `t1`. A result by steps may differ at `t0`. -/
def liftStretch (g : Lifting V R) (a b : Sequence V) (interp : Interpolation) (lowerInc : Bool)
    (t0 t1 : Timestamp) : Result (List (Sequence R)) := do
  let start ← liftAt g a b t0
  if interp == .linear then
    let stop ← g.apply (← a.leftLimit t1) (← b.leftLimit t1)
    return [← makeRun start [⟨stop, t1⟩] lowerInc false interp false]
  else
    let mid ← g.apply (← a.inside t0 t1) (← b.inside t0 t1)
    if start.value == mid then return [← stepPiece start.value t0 t1 lowerInc]
    else
      let piece ← stepPiece mid t0 t1 false
      return (if lowerInc then [ofInstant start interp] else []) ++ [piece]

/-- The result over all stretches between rising timestamps, the last of which counts if it is
inclusive. -/
def liftStretches (g : Lifting V R) (a b : Sequence V) (interp : Interpolation) (upperInc : Bool)
    (lowerInc : Bool) : List Timestamp → Result (List (Sequence R))
  | [] => .ok []
  | [t] => if upperInc then return [ofInstant (← liftAt g a b t) interp] else .ok []
  | t0 :: t1 :: rest => do
    let pieces ← liftStretch g a b interp lowerInc t0 t1
    let more ← liftStretches g a b interp upperInc true (t1 :: rest)
    return pieces ++ more

/-- The result over a period within the time of two continuous sequences. -/
def lift (g : Lifting V R) (a b : Sequence V) (p : Period) : Result (List (Sequence R)) :=
  let linear := a.interp == .linear || b.interp == .linear
  let interp := if TemporalValue.continuous R && linear then .linear else .step
  if p.isInstant then return [ofInstant (← liftAt g a b p.lower) interp]
  else do
    let times := commonTimes a b p
    let times ← if linear then withTurnings g a b times else pure times
    liftStretches g a b interp p.upperInc p.lowerInc times

/-- The result over the common period of two continuous sequences, if they have one. -/
def liftCommon (g : Lifting V R) (a b : Sequence V) : Result (List (Sequence R)) :=
  match a.period.intersection b.period with
  | none => .ok []
  | some p => lift g a b p

end Sequence

namespace Temporal

variable {V R : Type} [TemporalValue V] [TemporalValue R]

/-- The results at timestamps at which both values are defined. -/
def liftInstants (g : Lifting V R) (a b : Temporal V) :
    List Timestamp → Result (List (Instant R))
  | [] => .ok []
  | t :: rest => do
    match ← a.lookup t, ← b.lookup t with
    | some x, some y =>
      let z ← g.apply x y
      let more ← liftInstants g a b rest
      return ⟨z, t⟩ :: more
    | _, _ => liftInstants g a b rest

/-- Lift a function when one of the values is discrete: the results at its timestamps. -/
def liftDiscrete (g : Lifting V R) (a b : Temporal V) : Result (Option (Temporal R)) := do
  let times := if a.isDiscrete then a.timestamps else b.timestamps
  match ← liftInstants g a b times with
  | [] => return none
  | first :: rest =>
    if a.isInstant || b.isInstant then return some (instant (rest.getLastD first))
    else return some (sequence (← Sequence.makeRun first rest true true .discrete false))

/-- Lift a function over the time that two values share, if they share any. -/
def lift (g : Lifting V R) (a b : Temporal V) : Result (Option (Temporal R)) :=
  if !a.timespan.overlaps b.timespan then .ok none
  else if a.isDiscrete || b.isDiscrete then liftDiscrete g a b
  else do
    let pairs := a.sequences.flatMap fun s => b.sequences.map fun t => (s, t)
    ofPieces (← pairs.mapM fun st => Sequence.liftCommon g st.1 st.2).flatten

/-- Lift a function over two values that have to go together. -/
def liftWith (g : Lifting V R) (a b : Temporal V) : Result (Option (Temporal R)) := do
  TemporalValue.compatible a.firstInstant.value b.firstInstant.value
  lift g a b

/-- Lift a function over a value and a constant. -/
def liftValue (g : Lifting V R) (a : Temporal V) (x : V) : Result (Temporal R) := do
  TemporalValue.compatible a.firstInstant.value x
  let constant ← constantLike x a
  let found ← lift g a constant
  orRefuse found (.internal "Lifting against a constant lost the time frame")

end Temporal

end TemporalAlgebra
