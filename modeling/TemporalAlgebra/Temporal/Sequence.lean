import TemporalAlgebra.Temporal.Interpolation
import TemporalAlgebra.Value.Basic

/-!
# Instants and sequences

An instant is a value at one timestamp. A sequence joins instants in rising order of time by an
interpolation, over the period from the first to the last one. It keeps its bounding box, and the
count of instants that it has room for.
-/
namespace TemporalAlgebra

/-- A value at one timestamp. -/
structure Instant (V : Type) where
  value : V
  time : Timestamp
deriving BEq

namespace Instant

def withValue {V W : Type} (i : Instant V) (value : W) : Instant W := ⟨value, i.time⟩

variable {V : Type} [TemporalValue V]

def box (i : Instant V) : TemporalValue.Box V := TemporalValue.instantBox i.value i.time

def order (a b : Instant V) : Ordering :=
  (compare a.time b.time).then (BaseValue.order a.value b.value)

end Instant

/-- The refusal of timestamps that do not rise. -/
def risingError (earlier later : Timestamp) : Error :=
  .invalidArg ("Timestamps for temporal value must be increasing: " ++ earlier.text ++ ", " ++
    later.text)

/-- Instants joined by an interpolation, at least one. -/
structure Sequence (V : Type) [TemporalValue V] where
  first : Instant V
  rest : List (Instant V)
  lowerInc : Bool
  upperInc : Bool
  interp : Interpolation
  box : TemporalValue.Box V
  /-- Count of instants that there is room for. -/
  capacity : Nat

namespace Sequence

section

variable {V : Type} [TemporalValue V]

def instants (s : Sequence V) : List (Instant V) := s.first :: s.rest

def last (s : Sequence V) : Instant V := s.rest.getLastD s.first

/-- Equal in instants, bounds and interpolation. -/
instance : BEq (Sequence V) where
  beq a b := a.interp == b.interp && a.lowerInc == b.lowerInc && a.upperInc == b.upperInc &&
    a.instants == b.instants

/-- Whether only the instants have a value. -/
def isDiscrete (s : Sequence V) : Bool := s.interp == .discrete

/-- Whether there is only one instant. -/
def isInstantaneous (s : Sequence V) : Bool := s.rest.isEmpty

/-- Period from the first to the last instant. -/
def period (s : Sequence V) : Period := ⟨s.first.time, s.last.time, s.lowerInc, s.upperInc⟩

/-- Check that timestamps rise and that neighbouring values go together. -/
def checkRising (a : Instant V) : List (Instant V) → Result Unit
  | [] => .ok ()
  | b :: rest => do
    require (decide (a.time < b.time)) (risingError a.time b.time)
    TemporalValue.compatible a.value b.value
    checkRising b rest

/-- Whether the last value of a run that starts at `a` repeats the one before it. -/
def endsRepeated (a : Instant V) : List (Instant V) → Bool
  | [] => true
  | [b] => b.value == a.value
  | b :: c :: rest => endsRepeated b (c :: rest)

/-- Check what every sequence satisfies: an interpolation that the values have, rising timestamps,
inclusive bounds of a discrete or instantaneous sequence, and a repeated value at an exclusive end
of steps. -/
def check (first : Instant V) (rest : List (Instant V)) (lowerInc upperInc : Bool)
    (interp : Interpolation) : Result Unit := do
  require (interp != .linear || TemporalValue.continuous V)
    (.featureNotSupported ("Linear interpolation is not supported for " ++
      (BaseValue.baseType V).name))
  checkRising first rest
  require (!(rest.isEmpty || interp == .discrete) || (lowerInc && upperInc))
    (.invalidArg "Instantaneous and discrete sequences must have inclusive bounds")
  require (interp != .step || upperInc || endsRepeated first rest)
    (.invalidArg "Invalid end value for temporal sequence with step interpolation")

/-- Whether the middle one of three instants adds nothing: a repeated step, or a point on the line
between its neighbours. -/
def redundant (interp : Interpolation) (a m b : Instant V) : Result Bool :=
  match interp with
  | .discrete => return false
  | .step => return a.value == m.value
  | .linear =>
    return TemporalValue.collinear a.value m.value b.value (← m.time.ratio a.time b.time)

/-- The instants after `a` without those that add nothing. The last one is kept. -/
def normalize (interp : Interpolation) (a : Instant V) :
    List (Instant V) → Result (List (Instant V))
  | [] => return []
  | [m] => return [m]
  | m :: b :: rest => do
    if ← redundant interp a m b then normalize interp a (b :: rest)
    else return m :: (← normalize interp m (b :: rest))

/-- Bounding box of a run of instants with given bounds. -/
def boxOf (first : Instant V) (rest : List (Instant V)) (lowerInc upperInc : Bool) :
    TemporalValue.Box V :=
  TemporalBox.setPeriod (rest.foldl (fun b i => TemporalBox.hull b i.box) first.box)
    ⟨first.time, (rest.getLastD first).time, lowerInc, upperInc⟩

/-- A sequence with its bounding box computed. -/
def ofRun (first : Instant V) (rest : List (Instant V)) (lowerInc upperInc : Bool)
    (interp : Interpolation) : Sequence V :=
  ⟨first, rest, lowerInc, upperInc, interp, boxOf first rest lowerInc upperInc,
    rest.length + 1⟩

/-- Build a sequence from a run of instants, without those that add nothing if `normalizing`. -/
def makeRun (first : Instant V) (rest : List (Instant V)) (lowerInc upperInc : Bool)
    (interp : Interpolation) (normalizing : Bool) : Result (Sequence V) := do
  check first rest lowerInc upperInc interp
  let kept ← if normalizing then normalize interp first rest else pure rest
  return ofRun first kept lowerInc upperInc interp

/-- Build a sequence from instants, without those that add nothing if `normalizing`. -/
def make (instants : List (Instant V)) (lowerInc upperInc : Bool) (interp : Interpolation)
    (normalizing : Bool) : Result (Sequence V) :=
  match instants with
  | [] => refuse (.invalidArg "A temporal sequence needs at least one instant")
  | first :: rest => makeRun first rest lowerInc upperInc interp normalizing

def new (instants : List (Instant V)) (lowerInc upperInc : Bool) (interp : Interpolation)
    (normalizing : Bool) : Result (Sequence V) :=
  reported (make instants lowerInc upperInc interp normalizing)

/-- The same sequence with room for at least `capacity` instants. -/
def reserve (s : Sequence V) (capacity : Nat) : Sequence V :=
  { s with capacity := max capacity s.instants.length }

/-- Build a sequence with room for at least `capacity` instants. -/
def newWithCapacity (instants : List (Instant V)) (lowerInc upperInc : Bool)
    (interp : Interpolation) (normalizing : Bool) (capacity : Nat) : Result (Sequence V) := do
  let s ← new instants lowerInc upperInc interp normalizing
  return s.reserve capacity

def ofInstant (i : Instant V) (interp : Interpolation) : Sequence V :=
  ⟨i, [], true, true, interp, i.box, 1⟩

/-- The same sequence with its bounding box computed anew. -/
def rebox (s : Sequence V) : Sequence V :=
  { s with box := boxOf s.first s.rest s.lowerInc s.upperInc }

/-- Value at `t` between two neighbouring instants. -/
def between (interp : Interpolation) (a b : Instant V) (t : Timestamp) : Result V :=
  match interp with
  | .linear => return TemporalValue.interpolate a.value b.value (← t.ratio a.time b.time)
  | _ => return a.value

/-- Value at `t` of a run that starts at `a`; outside the run it is that of the nearest end. -/
def valueFrom (interp : Interpolation) (t : Timestamp) (a : Instant V) :
    List (Instant V) → Result V
  | [] => return a.value
  | b :: rest =>
    if b.time ≤ t then valueFrom interp t b rest
    else if t ≤ a.time then return a.value
    else between interp a b t

/-- Value that a run starting at `a` approaches from the left of `t`; outside the run it is that of
the nearest end. -/
def limitFrom (interp : Interpolation) (t : Timestamp) (a : Instant V) :
    List (Instant V) → Result V
  | [] => return a.value
  | b :: rest =>
    if b.time < t then limitFrom interp t b rest
    else if t ≤ a.time then return a.value
    else if b.time = t ∧ interp = .linear then return b.value
    else between interp a b t

/-- Value at `t` without regard to the bounds. -/
def valueNear (s : Sequence V) (t : Timestamp) : Result V := valueFrom s.interp t s.first s.rest

/-- Value approached from the left of `t`, without regard to the bounds. -/
def leftLimit (s : Sequence V) (t : Timestamp) : Result V := limitFrom s.interp t s.first s.rest

/-- Value at `t`, if it lies in the time of the sequence. -/
def lookup (s : Sequence V) (t : Timestamp) : Result (Option V) :=
  if s.isDiscrete then return (s.instants.find? fun i => i.time == t).map Instant.value
  else if s.period.containsValue t then return some (← s.valueNear t)
  else return none

/-- Order of runs of instants, instant by instant; of two runs that agree the shorter is first. -/
def orderRuns : List (Instant V) → List (Instant V) → Ordering
  | a :: as, b :: bs => (a.order b).then (orderRuns as bs)
  | [], [] => .eq
  | [], _ :: _ => .lt
  | _ :: _, [] => .gt

/-- Order by instants, then by bounds and interpolation. An inclusive lower bound is first. -/
def order (a b : Sequence V) : Ordering :=
  (orderRuns a.instants b.instants).then <|
  (compare b.lowerInc a.lowerInc).then <|
  (compare a.upperInc b.upperInc).then <|
  compare a.interp.code b.interp.code

def mapTimes (s : Sequence V) (move : Timestamp → Result Timestamp) : Result (Sequence V) := do
  let instants ← s.instants.mapM fun i => return ⟨i.value, ← move i.time⟩
  make instants s.lowerInc s.upperInc s.interp false

end

/-- Change every value; step interpolation replaces a linear one that the new values do not
have. -/
def mapValues {V W : Type} [TemporalValue V] [TemporalValue W] (s : Sequence V)
    (change : V → Result W) : Result (Sequence W) := do
  let instants ← s.instants.mapM fun i => return i.withValue (← change i.value)
  let interp :=
    if s.interp == .linear && !TemporalValue.continuous W then .step else s.interp
  make instants s.lowerInc s.upperInc interp true

end Sequence

end TemporalAlgebra
