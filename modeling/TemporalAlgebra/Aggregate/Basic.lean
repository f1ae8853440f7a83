import TemporalAlgebra.SkipList
import TemporalAlgebra.Temporal.Lift
import TemporalAlgebra.Temporal.Restrict

/-!
# Aggregation

An aggregator folds temporal values into a state of sequences that do not overlap, kept in a skip
list. Where only one of the state and a new value is defined it is kept, where both are they are
combined. A window aggregator first stretches every piece of a value by the window.
-/
namespace TemporalAlgebra

/-- How a window stretches a linear segment. -/
inductive Stretch where
  /-- The least value within the window is kept. -/
  | least
  /-- The greatest value within the window is kept. -/
  | greatest
  /-- Only steps are stretched. -/
  | steps
deriving DecidableEq, Repr

/-- A trailing window of time. -/
structure Window where
  size : Interval
  stretch : Stretch

/-- The state of an aggregate. -/
structure Aggregator (V : Type) [TemporalValue V] where
  list : SkipList (Sequence V)
  /-- The value where two values are defined. -/
  combine : V → V → Result V
  /-- Whether linear segments are cut where they cross. -/
  crossings : Bool
  /-- Interpolation of what was added so far. -/
  interp : Option Interpolation
  window : Option Window

/-- Steps that change the state of an aggregate. After a refusal the state is as the step left
it. -/
abbrev Aggregation (V : Type) [TemporalValue V] (α : Type) :=
  ExceptT Failure (StateM (Aggregator V)) α

namespace Aggregator

variable {V : Type} [TemporalValue V]

/-- Order of sequences by period; those that overlap are equal. -/
def orderPieces (a b : Sequence V) : Ordering :=
  if a.period.overlaps b.period then .eq else a.period.order b.period

/-- Merge single instants by timestamp. -/
def mergeInstants (combine : V → V → Result V) :
    List (Sequence V) → List (Sequence V) → Result (List (Sequence V))
  | [], new => .ok new
  | a :: old, [] => .ok (a :: old)
  | a :: old, b :: new =>
    match compare a.first.time b.first.time with
    | .lt => return a :: (← mergeInstants combine old (b :: new))
    | .gt => return b :: (← mergeInstants combine (a :: old) new)
    | .eq => do
      let x ← combine a.first.value b.first.value
      let rest ← mergeInstants combine old new
      return .ofInstant (a.first.withValue x) .discrete :: rest
termination_by old new => old.length + new.length

/-- The sequences of an optional value. -/
def piecesOf (v : Option (Temporal V)) : List (Sequence V) :=
  match v with
  | some v => v.sequences
  | none => []

/-- Merge continuous sequences: what only one side has is kept, what both have is combined. -/
def mergeSequences (combine : V → V → Result V) (crossings : Bool)
    (old new : List (Sequence V)) : Result (List (Sequence V)) := do
  let a ← Temporal.ofSequences old
  let b ← Temporal.ofSequences new
  let onlyA ← a.outsidePeriods b.time
  let onlyB ← b.outsidePeriods a.time
  let lifting : Lifting V V :=
    if crossings then { apply := combine, turning := TemporalValue.crossing }
    else { apply := combine }
  let both ← Temporal.lift lifting a b
  return piecesOf (← Temporal.ofPieces (piecesOf onlyA ++ piecesOf onlyB ++ piecesOf both))

def ofCombine (combine : V → V → Result V) (crossings : Bool) : Aggregator V :=
  ⟨.ofConfig orderPieces {}, combine, crossings, none, none⟩

def withSkipList (a : Aggregator V) (config : SkipListConfig) : Aggregator V :=
  { a with list := .ofConfig orderPieces config, interp := none }

/-- The aggregate over a trailing window, which has to be positive; a refusal is reported. -/
def windowed (a : Aggregator V) (size : Interval) (stretch : Stretch) : Result (Aggregator V) :=
  reported do
    require (decide (Interval.zero < size))
      (.invalidArgValue ("The window must be positive: " ++ size.text))
    return { a with window := some ⟨size, stretch⟩ }

/-- Count of the pieces of the state. -/
def size (a : Aggregator V) : Nat := a.list.size

/-- The pieces of the state in order of time. -/
def pieces (a : Aggregator V) : List (Sequence V) := a.list.toList

def periods (a : Aggregator V) : List Period := a.pieces.map Sequence.period

/-- The value aggregated so far, if there is any; a refusal is reported. -/
def finish (a : Aggregator V) : Result (Option (Temporal V)) :=
  reported (Temporal.ofPieces a.pieces)

/-- What is added has to have the interpolation of what was added so far. -/
def checkInterp (a : Aggregator V) (interp : Interpolation) : Result Unit :=
  match a.interp with
  | none => .ok ()
  | some current => do
    require ((current == .discrete) == (interp == .discrete))
      (.aggregation
        "Cannot aggregate temporal values of discrete and continuous interpolation")
    require (current == interp)
      (.aggregation ("Cannot aggregate temporal values of " ++ current.name ++ " and " ++
        interp.name ++ " interpolation"))

/-- The state with pieces spliced in. -/
def spliced (a : Aggregator V) (interp : Interpolation) (pieces : List (Sequence V)) :
    Result (Aggregator V) := do
  a.checkInterp interp
  let merge :=
    if interp == .discrete then mergeInstants a.combine
    else mergeSequences a.combine a.crossings
  let list ← a.list.splice pieces merge
  return { a with list, interp := some interp }

/-- Sequence of an instant and what follows it, stretched by a window. -/
def stretchInstant (i : Instant V) (size : Interval) (interp : Interpolation) :
    Result (Sequence V) := do
  Sequence.makeRun i [⟨i.value, ← i.time.shift size⟩] true true interp false

/-- Instants after the start of a linear segment that is stretched by a window. -/
def stretchLinear (start stop : Instant V) (w : Window) : Result (List (Instant V)) := do
  let shifted : Instant V := ⟨stop.value, ← stop.time.shift w.size⟩
  let held : Result (List (Instant V)) := do
    return [⟨start.value, ← start.time.shift w.size⟩, shifted]
  match w.stretch, BaseValue.order stop.value start.value with
  | _, .eq => return [⟨start.value, shifted.time⟩]
  | .least, .gt => held
  | .greatest, .lt => held
  | _, _ => return [stop, shifted]

/-- Pieces of the segments from `a` on, stretched by a window. Steps that keep their value up to an
inclusive end cover it too; otherwise the end is a piece of its own. -/
def stretchFrom (s : Sequence V) (w : Window) (lowerInc : Bool) (a : Instant V) :
    List (Instant V) → Result (List (Sequence V))
  | [] => .ok []
  | b :: rest => do
    let stretched ←
      if s.interp == .linear then stretchLinear a b w
      else pure [⟨a.value, ← b.time.shift w.size⟩]
    let covered := rest.isEmpty && s.upperInc && s.interp == .step && a.value == b.value
    let piece ← Sequence.makeRun a stretched lowerInc covered s.interp false
    if rest.isEmpty && s.upperInc && !covered then
      return [piece, ← stretchInstant b w.size s.interp]
    else return piece :: (← stretchFrom s w true b rest)

/-- Pieces of a sequence stretched by a window; discrete ones take `interp`. -/
def stretchSequence (w : Window) (interp : Interpolation) (s : Sequence V) :
    Result (List (Sequence V)) := do
  if s.isDiscrete then s.instants.mapM fun i => stretchInstant i w.size interp
  else if s.isInstantaneous then return [← stretchInstant s.first w.size s.interp]
  else
    require (!(s.interp == .linear && w.stretch == .steps))
      (.featureNotSupported "Window sum, count and average need step interpolation")
    stretchFrom s w s.lowerInc s.first s.rest

/-- Add a value to the state after stretching it. Its pieces overlap each other, so they are spliced
in one by one; a refusal brings the state before the value back. -/
def addStretched (v : Temporal V) (w : Window) : Aggregation V Unit := do
  let saved ← get
  let interp := if saved.interp = some .linear then .linear else .step
  let pieces ← (v.sequences.mapM (stretchSequence w interp) : Result _)
  try
    pieces.flatten.forM fun piece => do
      set (← (← get).spliced piece.interp [piece])
  catch f =>
    modify fun a => { a with list := saved.list, interp := saved.interp }
    throw f

/-- Add a value to the state without stretching it. -/
def addWhole (v : Temporal V) : Aggregation V Unit := do
  let pieces :=
    if v.isDiscrete then v.instants.map fun i => Sequence.ofInstant i .discrete else v.sequences
  set (← (← get).spliced v.interp pieces)

def reporting (step : Aggregation V Unit) : Aggregation V Unit :=
  tryCatch step fun f => throw f.again

/-- Add a value to the state; a refusal is reported. -/
def add (v : Temporal V) : Aggregation V Unit := reporting do
  match (← get).window with
  | some w => addStretched v w
  | none => addWhole v

/-- Add the state of another aggregate, which is stretched already; a refusal is reported. -/
def merge (other : Aggregator V) : Aggregation V Unit := reporting do
  match other.interp with
  | none => return
  | some interp => set (← (← get).spliced interp other.pieces)

end Aggregator

end TemporalAlgebra
