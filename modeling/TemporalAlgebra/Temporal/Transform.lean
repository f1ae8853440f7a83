import TemporalAlgebra.Temporal.Text

/-!
# Transformations

Changes of interpolation, of form and of the time frame of a value.
-/
namespace TemporalAlgebra

namespace Sequence

variable {V : Type} [TemporalValue V]

/-- Linear pieces of a run of steps, cut where the value jumps. The current piece starts at `start`
and has reached `stop` without a jump. -/
def linearRuns (upperInc : Bool) (start : Instant V) (stop : Option (Instant V))
    (lowerInc : Bool) : List (Instant V) → Result (List (Sequence V))
  | [] =>
    match stop with
    | some last => return [← makeRun start [last] lowerInc upperInc .linear false]
    | none => if upperInc then return [← makeRun start [] lowerInc true .linear false] else .ok []
  | b :: rest =>
    let held := (stop.getD start).value
    if held == b.value then linearRuns upperInc start (some b) lowerInc rest
    else do
      let piece ← makeRun start [⟨held, b.time⟩] lowerInc false .linear false
      let more ← linearRuns upperInc b none true rest
      return piece :: more

/-- Linear pieces of a sequence of steps. -/
def linearPieces (s : Sequence V) : Result (List (Sequence V)) :=
  linearRuns s.upperInc s.first none s.lowerInc s.rest

/-- Whether all instants after `a` repeat the value before them. -/
def isConstant (a : Instant V) : List (Instant V) → Bool
  | [] => true
  | b :: rest => a.value == b.value && isConstant b rest

/-- A constant linear sequence as one of steps. -/
def toSteps (s : Sequence V) (interp : Interpolation) : Result (Sequence V) := do
  require (isConstant s.first s.rest)
    (.invalidArgValue "Cannot transform a non-constant linear segment to step interpolation")
  makeRun s.first s.rest s.lowerInc s.upperInc interp true

end Sequence

namespace Temporal

variable {V : Type} [TemporalValue V]

/-- The instants of sequences of one instant as a discrete sequence. -/
def toDiscrete (v : Temporal V) : Result (Temporal V) := do
  require (v.sequences.all Sequence.isInstantaneous)
    (.invalidArgValue
      "Cannot transform a non-instantaneous value to discrete interpolation")
  let instants := v.sequences.map Sequence.first
  return sequence (← Sequence.make instants true true .discrete false)

/-- Change the interpolation, silently. -/
def withInterp (v : Temporal V) (interp : Interpolation) : Result (Temporal V) :=
  match v with
  | instant i =>
    if interp == .discrete then .ok v
    else return sequence (← Sequence.makeRun i [] true true interp false)
  | _ =>
    if v.interp == interp then .ok v
    else
      match v.interp, interp with
      | _, .discrete => v.toDiscrete
      | .discrete, _ => return sequence (← Sequence.make v.instants true true interp true)
      | .step, .linear => do ofSequences (← v.sequences.mapM Sequence.linearPieces).flatten
      | _, _ => do ofSequences (← v.sequences.mapM fun s => s.toSteps interp)

/-- Change the interpolation. A discrete value becomes one sequence; steps become linear pieces cut
at jumps; linear sequences become steps only where they are constant, and any value becomes
discrete only when its sequences are single instants. A refusal is reported. -/
def setInterp (v : Temporal V) (interp : Interpolation) : Result (Temporal V) :=
  reported (v.withInterp interp)

/-- The instant of a value that has only one. -/
def toInstant (v : Temporal V) : Result (Instant V) :=
  if v.instants.length = 1 then .ok v.firstInstant
  else
    reported (refuse
      (.invalidArgValue "Cannot transform a value with several instants to an instant"))

/-- The sequence of a value that has only one. -/
def toSequence (v : Temporal V) : Result (Sequence V) :=
  match v with
  | instant i => .ok (.ofInstant i (usualInterp V))
  | sequence s => .ok s
  | sequenceSet s =>
    if s.rest.isEmpty then .ok s.first
    else
      reported (refuse (.invalidArgValue
        "Cannot transform a sequence set with several sequences to a sequence"))

/-- A value as a set of sequences; every instant of a discrete one becomes a sequence. -/
def toSequenceSet (v : Temporal V) : Result (SequenceSet V) :=
  let points (instants : List (Instant V)) : Result (SequenceSet V) :=
    SequenceSet.new (instants.map fun i => .ofInstant i (usualInterp V)) false
  match v with
  | sequenceSet s => .ok s
  | sequence s => if s.isDiscrete then points s.instants else SequenceSet.new [s] false
  | instant i => points [i]

/-- Move every timestamp. -/
def mapTimes (v : Temporal V) (move : Timestamp → Result Timestamp) : Result (Temporal V) :=
  match v with
  | instant i => return instant ⟨i.value, ← move i.time⟩
  | sequence s => return sequence (← s.mapTimes move)
  | sequenceSet s => do
    let sequences ← s.sequences.mapM fun x => x.mapTimes move
    return sequenceSet (← SequenceSet.make sequences false)

/-- Factor that makes a stretch of time of `old` microseconds last for `duration`. -/
def timeFactor (old : Bigint) (duration : Option Interval) : Float :=
  match duration.bind Interval.micros? with
  | some new => if 0 < old.val then Binary64.ofInt new.val / Binary64.ofInt old.val else 1.0
  | none => 1.0

/-- Move a value by `shift` and stretch it so that it lasts for `duration`. At least one of both is
given; a refusal is reported. -/
def shiftScaleTime (v : Temporal V) (shift duration : Option Interval) : Result (Temporal V) :=
  reported do
    require (shift.isSome || duration.isSome)
      (.invalidArg "A shift or a duration must be given")
    require (duration.all fun d => decide (Interval.zero < d))
      (.invalidArgValue "The duration must be positive")
    let start := v.firstInstant.time
    let newStart ← match shift with
      | some d => start.shift d
      | none => pure start
    let factor := timeFactor (← start.microsTo v.lastInstant.time) duration
    v.mapTimes fun t => do
      let offset : Bigint := Binary64.toSigned ((← start.distanceTo t) * factor)
      newStart.shift (.ofMicros offset.val)

def shiftTime (v : Temporal V) (d : Interval) : Result (Temporal V) :=
  v.shiftScaleTime (some d) none

/-- Stretch a value in time; its start stays. -/
def scaleTime (v : Temporal V) (d : Interval) : Result (Temporal V) :=
  v.shiftScaleTime none (some d)

end Temporal

end TemporalAlgebra
