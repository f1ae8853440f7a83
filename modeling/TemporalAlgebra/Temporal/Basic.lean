import TemporalAlgebra.SpanSet.Form
import TemporalAlgebra.Temporal.SequenceSet

/-!
# Temporal values

A temporal value is a single instant, a sequence, or a set of sequences. This module views it as
instants, as sequences and as a partial function of time, and assembles it from pieces.
-/
namespace TemporalAlgebra

/-- A value that varies over time. -/
inductive Temporal (V : Type) [TemporalValue V] where
  | instant (i : Instant V)
  | sequence (s : Sequence V)
  | sequenceSet (s : SequenceSet V)

/-- The forms of temporal values. -/
inductive Subtype where
  | instant
  | sequence
  | sequenceSet
deriving DecidableEq, Repr

namespace Subtype

/-- Code in the binary form, which is also the rank in the order of forms. -/
def code : Subtype → Nat
  | instant => 1
  | sequence => 2
  | sequenceSet => 3

def ofCode? : Nat → Option Subtype
  | 1 => some instant
  | 2 => some sequence
  | 3 => some sequenceSet
  | _ => none

def name : Subtype → String
  | instant => "Instant"
  | sequence => "Sequence"
  | sequenceSet => "SequenceSet"

end Subtype

namespace Temporal

variable {V : Type} [TemporalValue V]

instance : BEq (Temporal V) where
  beq
    | instant a, instant b => a == b
    | sequence a, sequence b => a == b
    | sequenceSet a, sequenceSet b => a == b
    | _, _ => false

/-- The form of a value. -/
def subtype : Temporal V → Subtype
  | instant _ => .instant
  | sequence _ => .sequence
  | sequenceSet _ => .sequenceSet

def isInstant : Temporal V → Bool
  | instant _ => true
  | _ => false

/-- Interpolation; a single instant is discrete. -/
def interp : Temporal V → Interpolation
  | instant _ => .discrete
  | sequence s => s.interp
  | sequenceSet s => s.interp

/-- Whether only instants have a value. -/
def isDiscrete (v : Temporal V) : Bool := v.interp == .discrete

def box : Temporal V → TemporalValue.Box V
  | instant i => i.box
  | sequence s => s.box
  | sequenceSet s => s.box

/-- The value as sequences; a single instant is a discrete sequence. -/
def sequences : Temporal V → List (Sequence V)
  | instant i => [.ofInstant i .discrete]
  | sequence s => [s]
  | sequenceSet s => s.sequences

def firstInstant : Temporal V → Instant V
  | instant i => i
  | sequence s => s.first
  | sequenceSet s => s.first.first

def lastInstant : Temporal V → Instant V
  | instant i => i
  | sequence s => s.last
  | sequenceSet s => s.last.last

def instants : Temporal V → List (Instant V)
  | instant i => [i]
  | sequence s => s.instants
  | sequenceSet s => s.sequences.flatMap Sequence.instants

/-- Smallest period over the value. -/
def timespan : Temporal V → Period
  | instant i => Period.singleton i.time
  | sequence s => s.period
  | sequenceSet s => s.period

/-- One period for each timestamp, in order. -/
def pointPeriods (first : Timestamp) (rest : List Timestamp) : PeriodSet :=
  .ofOrdered (Period.singleton first) (rest.map Period.singleton)

/-- Time at which the value is defined. -/
def time : Temporal V → PeriodSet
  | instant i => .ofSpan (Period.singleton i.time)
  | sequence s =>
    if s.isDiscrete then pointPeriods s.first.time (s.rest.map Instant.time) else .ofSpan s.period
  | sequenceSet s => .ofSpans s.first.period (s.rest.map Sequence.period)

/-- Length of the time at which the value is defined, or of its period. -/
def duration (v : Temporal V) (ofPeriod : Bool) : Interval :=
  if v.isDiscrete then .zero
  else if ofPeriod then Period.duration v.timespan
  else PeriodSet.duration v.time false

/-- The elements of a list that differ from the one kept before them. -/
def distinctBy {α : Type} (same : α → α → Bool) : List α → List α
  | [] => []
  | [a] => [a]
  | a :: b :: rest =>
    if same a b then distinctBy same (a :: rest) else a :: distinctBy same (b :: rest)
termination_by as => as.length

def timestamps (v : Temporal V) : List Timestamp :=
  distinctBy (· == ·) (v.instants.map Instant.time)

def values (v : Temporal V) : List V :=
  distinctBy (fun a b => BaseValue.order b a == .eq)
    ((v.instants.map Instant.value).mergeSort fun a b => BaseValue.order a b != .gt)

/-- The first instant of least value. -/
def minInstant (v : Temporal V) : Instant V :=
  v.instants.foldl
    (fun best i => if BaseValue.order i.value best.value == .lt then i else best) v.firstInstant

/-- The first instant of greatest value. -/
def maxInstant (v : Temporal V) : Instant V :=
  v.instants.foldl
    (fun best i => if BaseValue.order i.value best.value == .gt then i else best) v.firstInstant

/-- The continuous sequences. -/
def continuousSequences : Temporal V → List (Sequence V)
  | instant _ => []
  | sequence s => if s.isDiscrete then [] else [s]
  | sequenceSet s => s.sequences

/-- Count of sequences; a single instant counts as one. -/
def sequenceCount : Temporal V → Nat
  | sequenceSet s => s.sequences.length
  | _ => 1

/-- Value at a timestamp, if it is defined there. -/
def lookup (v : Temporal V) (t : Timestamp) : Result (Option V) :=
  match v with
  | instant i => return if i.time == t then some i.value else none
  | sequence s => s.lookup t
  | sequenceSet s => s.lookup t

/-- Whether the first timestamp belongs to the value. -/
def lowerInc : Temporal V → Bool
  | instant _ => true
  | sequence s => s.lowerInc
  | sequenceSet s => s.first.lowerInc

/-- Whether the last timestamp belongs to the value. -/
def upperInc : Temporal V → Bool
  | instant _ => true
  | sequence s => s.upperInc
  | sequenceSet s => s.last.upperInc

/-- Order of values of one form by what they consist of, of others by box and then by form. -/
def order (a b : Temporal V) : Ordering :=
  match a, b with
  | instant i, instant j => i.order j
  | sequence s, sequence t => s.order t
  | sequenceSet s, sequenceSet t => s.order t
  | _, _ =>
    (TemporalBox.order a.box b.box).then (compare a.subtype.code b.subtype.code)

/-- Sequences that follow each other as one value: a sequence if one is left after joining. -/
def ofSequences (pieces : List (Sequence V)) : Result (Temporal V) :=
  match pieces with
  | [s] => .ok (sequence s)
  | _ => do
    let set ← SequenceSet.make pieces true
    return if set.rest.isEmpty then sequence set.first else sequenceSet set

/-- Pieces of a value as one value, if there are any. Discrete ones become one discrete sequence,
in which the first of instants at one timestamp stays. -/
def ofPieces (pieces : List (Sequence V)) : Result (Option (Temporal V)) :=
  match pieces with
  | [] => .ok none
  | first :: more =>
    if pieces.all Sequence.isDiscrete then
      if more.isEmpty then .ok (some (sequence first))
      else do
        let ordered := (pieces.flatMap Sequence.instants).mergeSort fun a b => a.time ≤ b.time
        let distinct := distinctBy (fun a b => a.time == b.time) ordered
        return some (sequence (← Sequence.make distinct true true .discrete false))
    else do
      let ordered := pieces.mergeSort fun a b => a.period.order b.period != .gt
      return some (← ofSequences ordered)

end Temporal

end TemporalAlgebra
