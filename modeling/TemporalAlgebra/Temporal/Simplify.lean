import TemporalAlgebra.Temporal.Delete

/-!
# Simplification

Instants are dropped that are close to the one kept before them, or close to the line between those
that are kept around them. The first and the last instant of a sequence always stay.
-/
namespace TemporalAlgebra

variable {V : Type} [MetricValue V]

namespace Instant

/-- Distance of `p` from the segment from `a` to `b`: from the place on it at the time of `p` if
`synchronized`, else from the closest one. -/
def distanceFrom (synchronized : Bool) (a b p : Instant V) : Result Float :=
  if synchronized then
    return MetricValue.distance p.value
      (TemporalValue.interpolate a.value b.value (← p.time.ratio a.time b.time))
  else
    match MetricValue.closest a.value b.value p.value p.value with
    | some r => return MetricValue.distance p.value (TemporalValue.interpolate a.value b.value r)
    | none =>
      return Binary64.min (MetricValue.distance p.value a.value)
        (MetricValue.distance p.value b.value)

end Instant

/-- The place with the greatest distance among some places and the `best` one before them, the first
one among equals, and that distance. -/
def farthest (distance : Nat → Result Float) (best : Nat × Float) :
    List Nat → Result (Nat × Float)
  | [] => return best
  | k :: rest => do
    let d ← distance k
    farthest distance (if best.2 < d then (k, d) else best) rest

/-- The place strictly between `i` and `j` with the greatest distance, and that distance. -/
def farthestBetween (distance : Nat → Result Float) (i j : Nat) : Result (Nat × Float) :=
  farthest distance (i + 1, -Binary64.infinity) (List.range' (i + 1) (j - (i + 1)))

theorem farthest_mem {distance : Nat → Result Float} {best found : Nat × Float}
    {places : List Nat} (h : farthest distance best places = .ok found) :
    found.1 ∈ best.1 :: places := by
  induction places generalizing best with
  | nil =>
    obtain rfl := Except.ok.inj h
    exact List.mem_cons_self ..
  | cons k rest ih =>
    unfold farthest at h
    cases hd : distance k with
    | error e =>
      rw [hd] at h
      cases h
    | ok d =>
      rw [hd] at h
      rcases List.mem_cons.mp (ih h) with heq | hmem
      · rw [heq]
        split
        · exact List.mem_cons_of_mem _ (List.mem_cons_self ..)
        · exact List.mem_cons_self ..
      · exact List.mem_cons_of_mem _ (List.mem_cons_of_mem _ hmem)

theorem farthestBetween_bounds {distance : Nat → Result Float} {i j : Nat} {found : Nat × Float}
    (h : i + 1 < j) (hfound : farthestBetween distance i j = .ok found) :
    i < found.1 ∧ found.1 < j := by
  rcases List.mem_cons.mp (farthest_mem hfound) with heq | hmem
  · omega
  · rw [List.mem_range'_1] at hmem
    omega

/-- A run of instants that is being simplified: the segments that have still to be looked at, each
with the places of its ends and the next one first, and marks of the instants that stay. -/
structure Refinement where
  pending : List (Nat × Nat)
  keep : List Bool

namespace Refinement

/-- How often the pending segments can be looked at, at the most. -/
def size (r : Refinement) : Nat := r.pending.foldr (fun p n => 2 * (p.2 - p.1 - 1) + 1 + n) 0

/-- Look at the next segment. If the instant farthest from it is farther than `eps`, that one stays,
and the segments on both sides of it are pending. -/
def step (eps : Float) (distance : Nat → Nat → Nat → Result Float) (r : Refinement) :
    Result (Option Refinement) :=
  match r.pending with
  | [] => return none
  | (i, j) :: pending =>
    if j ≤ i + 1 then return some ⟨pending, r.keep⟩
    else do
      let (k, d) ← farthestBetween (distance i j) i j
      if eps < d then return some ⟨(k, j) :: (i, k) :: pending, r.keep.set k true⟩
      else return some ⟨pending, r.keep⟩

variable {eps : Float} {distance : Nat → Nat → Nat → Result Float} {r t : Refinement}

theorem size_lt_of_step (h : r.step eps distance = .ok (some t)) : t.size < r.size := by
  obtain ⟨pending, keep⟩ := r
  unfold step at h
  unfold size
  match pending with
  | [] => cases h
  | (i, j) :: pending =>
    dsimp only at h
    split at h
    · obtain rfl := Option.some.inj (Except.ok.inj h)
      simp only [List.foldr_cons]
      omega
    · cases hfound : farthestBetween (distance i j) i j with
      | error e =>
        rw [hfound] at h
        cases h
      | ok found =>
        have := farthestBetween_bounds (by omega) hfound
        rw [hfound] at h
        change (if eps < found.2 then _ else _) = _ at h
        split at h
        · obtain rfl := Option.some.inj (Except.ok.inj h)
          simp only [List.foldr_cons]
          omega
        · obtain rfl := Option.some.inj (Except.ok.inj h)
          simp only [List.foldr_cons]
          omega

/-- Look at segments until none is pending. -/
def run (eps : Float) (distance : Nat → Nat → Nat → Result Float) (r : Refinement) :
    Result (List Bool) :=
  match _h : r.step eps distance with
  | .error f => .error f
  | .ok none => return r.keep
  | .ok (some t) => t.run eps distance
termination_by r.size
decreasing_by exact size_lt_of_step _h

end Refinement

namespace Sequence

def marked (instants : List (Instant V)) (marks : List Bool) : List (Instant V) :=
  ((instants.zip marks).filter Prod.snd).map Prod.fst

/-- The instants of a run that stay: the first and the last one, and of all that lie between two of
them the farthest one from their segment, as long as it is farther than `eps`. -/
def douglasPeucker (eps : Float) (synchronized : Bool) (instants : List (Instant V)) :
    Result (List (Instant V)) :=
  match instants with
  | first :: _ :: _ :: _ => do
    let points := instants.toArray
    let point (k : Nat) : Instant V := points[k]?.getD first
    let last := points.size - 1
    let ends := ((List.replicate points.size false).set 0 true).set last true
    let marks ← Refinement.run eps
      (fun i j k => Instant.distanceFrom synchronized (point i) (point j) (point k))
      ⟨[(0, last)], ends⟩
    return marked instants marks
  | _ => return instants

/-- The instants after the last kept one that stay: those that `keeps` keeps next to the one kept
before them, and the last one. -/
def greedy (keeps : Instant V → Instant V → Bool) (kept : Instant V) :
    List (Instant V) → List (Instant V)
  | [] => []
  | [last] => [last]
  | m :: n :: rest =>
    if keeps kept m then m :: greedy keeps m (n :: rest) else greedy keeps kept (n :: rest)

/-- A sequence over some of its own instants, with its first and last one. -/
def rebuild (s : Sequence V) (instants : List (Instant V)) : Result (Sequence V) :=
  match instants with
  | [] => make [] s.lowerInc s.upperInc s.interp false
  | first :: rest => s.withRun first rest s.lowerInc s.upperInc false

/-- A sequence without the instants that are not kept next to the one kept before them. -/
def simplifyGreedy (s : Sequence V) (keeps : Instant V → Instant V → Bool) :
    Result (Sequence V) :=
  if s.rest.length < 2 then .ok s else s.rebuild (s.first :: greedy keeps s.first s.rest)

/-- A linear sequence without the instants that are close to the line between those kept. -/
def simplifyLines (s : Sequence V) (eps : Float) (synchronized : Bool) : Result (Sequence V) :=
  if s.interp != .linear then .ok s
  else do s.rebuild (← douglasPeucker eps synchronized s.instants)

end Sequence

namespace Temporal

/-- Change every sequence; those of a set are joined where they can be. -/
def mapSequences (v : Temporal V) (change : Sequence V → Result (Sequence V)) :
    Result (Temporal V) :=
  match v with
  | instant _ => .ok v
  | sequence s => return sequence (← change s)
  | sequenceSet s => return sequenceSet (← SequenceSet.make (← s.sequences.mapM change) true)

/-- Drop instants whose value is not farther than `x` from the one kept before. A refusal is
reported. -/
def simplifyDistance (v : Temporal V) (x : Float) : Result (Temporal V) := reported do
  require (decide (0.0 < x))
    (.invalidArgValue ("The distance must be positive: " ++ Decimal.plain x))
  v.mapSequences fun s => s.simplifyGreedy fun a b =>
    decide (x < MetricValue.distance a.value b.value)

/-- Drop instants that are not later than `d` after the one kept before. A refusal is reported. -/
def simplifyInterval (v : Temporal V) (d : Interval) : Result (Temporal V) := reported do
  require (decide (Interval.zero < d))
    (.invalidArgValue ("The duration must be positive: " ++ d.text))
  v.mapSequences fun s => s.simplifyGreedy fun a b => decide (d < b.time.since a.time)

/-- Drop instants of linear sequences that are not farther than `eps` from the line between those
kept, by the rule of Douglas and Peucker. A refusal is reported. -/
def simplifyLines (v : Temporal V) (eps : Float) (synchronized : Bool) : Result (Temporal V) :=
  reported do
    require (decide (0.0 <= eps))
      (.invalidArgValue ("The tolerance must be non-negative: " ++ Decimal.plain eps))
    v.mapSequences fun s => s.simplifyLines eps synchronized

end Temporal

end TemporalAlgebra
