import TemporalAlgebra.Proofs.Temporal.Soundness
import TemporalAlgebra.Proofs.Temporal.ValueRestriction
import TemporalAlgebra.Temporal.Transform

/-!
# What is derived from sound values

Parts of sound values, and values that are computed from them instant by instant, are sound: each of
their sequences is built from instants, or has its values exchanged and its box computed anew.
-/
namespace TemporalAlgebra

variable {V : Type} [TemporalValue V]

lemma forall_mem_parts {α : Type} {q : α → Prop} {parts : List (Option α)}
    (h : ∀ part ∈ parts, ∀ x ∈ part, q x) : ∀ x ∈ parts.filterMap id, q x := by
  intro x hx
  obtain ⟨part, hpart, hx⟩ := List.mem_filterMap.mp hx
  exact h part hpart x hx

namespace Sequence

section

variable [LawfulValue V] [BoundedValue V] {s : Sequence V}

lemma returns_atPeriod (h : s.WellFormed) (p : Period) :
    Returns (∀ x ∈ ·, x.Sound) (s.atPeriod p) := by
  unfold atPeriod
  split
  · exact Returns.nothing
  · dsimp only
    split
    · exact Returns.after fun x =>
        Returns.found (sound_ofInstant ⟨x, _⟩ (wellFormed_iff.mp h).linear)
    · exact Returns.after fun start => Returns.after fun stop =>
        Returns.asFound (f := id) (returns_makeRun _ _ _ _ _ _)

lemma returns_atPeriods (h : s.WellFormed) (times : PeriodSet) :
    Returns (∀ x ∈ ·, x.Sound) (s.atPeriods times) := by
  unfold atPeriods
  split
  · split
    · exact Returns.ok (by simp)
    · exact returns_singleton (returns_makeRun _ _ _ _ _ _)
  · refine Returns.bind (Returns.mapM fun p _ => returns_atPeriod h p) fun found hfound => ?_
    exact Returns.ok (forall_mem_parts hfound)

lemma returns_minusFilter (h : s.WellFormed) (filter : ValueFilter V) :
    Returns (∀ x ∈ ·, x.Sound) (s.minusFilter filter) := by
  refine Returns.after fun found => ?_
  cases found with
  | none => exact returns_atPeriods h (SpanSet.ofSpan s.period)
  | some times =>
    dsimp only
    split
    · exact Returns.ok (by simp)
    · exact returns_atPeriods h _

end

lemma sound_snap [StepValue V] {s : Sequence V} (h : s.Sound) (filter : ValueFilter V) :
    (s.snap filter).Sound := by
  refine ⟨wellFormed_snap (c := s.first.value) h.wellFormed (fun i _ => ?_)
    fun _ i _ j hij => ?_, rfl⟩
  · exact StepValue.compatible_eq_ok _ _
  · rw [eq_of_beq hij]
    exact BEq.rfl

lemma returns_atFilter [StepValue V] [BoundedValue V] {s : Sequence V} (h : s.WellFormed)
    (filter : ValueFilter V) : Returns (∀ x ∈ ·, x.Sound) (s.atFilter filter) := by
  refine Returns.after fun selected => ?_
  cases selected with
  | none => exact Returns.ok (by simp)
  | some times =>
    refine Returns.bind (returns_atPeriods h times) fun found hfound => Returns.ok fun x hx => ?_
    obtain ⟨y, hy, rfl⟩ := List.mem_map.mp hx
    exact sound_snap (hfound y hy) filter

lemma returns_linearRuns [LawfulValue V] (upperInc : Bool) (start : Instant V)
    (stop : Option (Instant V)) (lowerInc : Bool) (rest : List (Instant V)) :
    Returns (∀ x ∈ ·, x.Sound) (linearRuns upperInc start stop lowerInc rest) := by
  induction rest generalizing start stop lowerInc with
  | nil =>
    unfold linearRuns
    split
    · exact returns_singleton (returns_makeRun _ _ _ _ _ _)
    · split
      · exact returns_singleton (returns_makeRun _ _ _ _ _ _)
      · exact Returns.ok (by simp)
  | cons b rest ih =>
    unfold linearRuns
    dsimp only
    split
    · exact ih start (some b) lowerInc
    · refine Returns.bind (returns_makeRun _ _ _ _ _ _) fun piece hpiece => ?_
      refine Returns.bind (ih b none true) fun more hmore => Returns.ok ?_
      exact List.forall_mem_cons.mpr ⟨hpiece, hmore⟩

lemma returns_toSteps [LawfulValue V] (s : Sequence V) (interp : Interpolation) :
    Returns Sound (s.toSteps interp) := Returns.after fun _ => returns_makeRun _ _ _ _ _ _

lemma returns_mapValues {W : Type} [TemporalValue W] [LawfulValue W] (s : Sequence V)
    (change : V → Result W) : Returns Sound (s.mapValues change) :=
  Returns.after fun _ => returns_make _ _ _ _ _

section

variable {R : Type} [TemporalValue R] [LawfulValue R] [BoundedValue R] {g : Lifting V R}
  {a b : Sequence V} {interp : Interpolation}
  (hl : interp = .linear → TemporalValue.continuous R = true)

include hl

lemma returns_liftStretch (lowerInc : Bool) (t0 t1 : Timestamp) :
    Returns (∀ x ∈ ·, x.Sound) (liftStretch g a b interp lowerInc t0 t1) := by
  refine Returns.after fun start => ?_
  split
  · exact Returns.after fun x => Returns.after fun y => Returns.after fun stop =>
      returns_singleton (returns_makeRun _ _ _ _ _ _)
  · refine Returns.after fun x => Returns.after fun y => Returns.after fun mid => ?_
    split
    · exact returns_singleton (returns_makeRun _ _ _ _ _ _)
    · refine Returns.bind (returns_makeRun _ _ _ _ _ _) fun x hx => Returns.ok ?_
      rw [List.forall_mem_append, List.forall_mem_singleton]
      refine ⟨?_, hx⟩
      split
      · exact List.forall_mem_singleton.mpr (sound_ofInstant start hl)
      · simp

lemma returns_liftStretches (upperInc lowerInc : Bool) (times : List Timestamp) :
    Returns (∀ x ∈ ·, x.Sound) (liftStretches g a b interp upperInc lowerInc times) := by
  induction times generalizing lowerInc with
  | nil => exact Returns.ok (by simp)
  | cons t0 rest ih =>
    cases rest with
    | nil =>
      unfold liftStretches
      split
      · refine Returns.after fun i => Returns.ok ?_
        exact List.forall_mem_singleton.mpr (sound_ofInstant i hl)
      · exact Returns.ok (by simp)
    | cons t1 rest =>
      unfold liftStretches
      refine Returns.bind (returns_liftStretch hl lowerInc t0 t1) fun pieces hpieces => ?_
      refine Returns.bind (ih true) fun more hmore => Returns.ok ?_
      exact List.forall_mem_append.mpr ⟨hpieces, hmore⟩

end

lemma returns_liftCommon {R : Type} [TemporalValue R] [LawfulValue R] [BoundedValue R]
    (g : Lifting V R) (a b : Sequence V) : Returns (∀ x ∈ ·, x.Sound) (liftCommon g a b) := by
  have hl : (if TemporalValue.continuous R && (a.interp == .linear || b.interp == .linear) then
      Interpolation.linear else .step) = .linear → TemporalValue.continuous R = true := by
    split
    · rename_i h
      exact fun _ => (Bool.and_eq_true_iff.mp h).1
    · simp
  unfold liftCommon
  split
  · exact Returns.ok (by simp)
  · unfold lift
    dsimp only
    split
    · refine Returns.after fun i => Returns.ok ?_
      exact List.forall_mem_singleton.mpr (sound_ofInstant i hl)
    · split
      · exact Returns.after fun times => returns_liftStretches hl _ _ _
      · exact returns_liftStretches hl _ _ _

end Sequence

namespace Temporal

open Sequence

section

variable [LawfulValue V] [BoundedValue V] {v : Temporal V} (h : v.Sound)

include h

lemma returns_withinPeriods (times : PeriodSet) :
    Returns (∀ w ∈ ·, w.Sound) (v.withinPeriods times) := by
  have hpieces : Returns (∀ w ∈ ·, w.Sound)
      (do ofPieces (← v.sequences.mapM fun s => s.atPeriods times).flatten) :=
    returns_ofPieces_mapM fun s hs => returns_atPeriods (h.wellFormed.sequences s hs) times
  unfold withinPeriods
  split
  · exact Returns.nothing
  · cases v with
    | instant i =>
      dsimp only
      split
      · exact Returns.found (p := Sound) h
      · exact Returns.nothing
    | sequence s => exact hpieces
    | sequenceSet s => exact hpieces

lemma returns_outsidePeriods (times : PeriodSet) :
    Returns (∀ w ∈ ·, w.Sound) (v.outsidePeriods times) := by
  unfold outsidePeriods
  split
  · exact Returns.found (p := Sound) h
  · split
    · exact Returns.nothing
    · exact returns_withinPeriods h _

lemma returns_minusFilter (filter : ValueFilter V) :
    Returns (∀ w ∈ ·, w.Sound) (v.minusFilter filter) := by
  have hpieces : Returns (∀ w ∈ ·, w.Sound)
      (do ofPieces (← v.sequences.mapM fun s => s.minusFilter filter).flatten) :=
    returns_ofPieces_mapM fun s hs =>
      Sequence.returns_minusFilter (h.wellFormed.sequences s hs) filter
  cases v with
  | instant i =>
    rw [Temporal.minusFilter]
    split
    · exact Returns.nothing
    · exact Returns.found (p := Sound) h
  | sequence s => exact hpieces
  | sequenceSet s => exact hpieces

omit [BoundedValue V] in
/-- A value in another interpolation. -/
theorem returns_setInterp (interp : Interpolation) : Returns Sound (v.setInterp interp) := by
  have hsteps : Returns Sound
      (do ofSequences (← v.sequences.mapM fun s => s.toSteps interp)) :=
    Returns.bind (Returns.mapM fun s _ => returns_toSteps s interp) fun _ hs =>
      returns_ofSequences hs
  have hlinear : Returns Sound
      (do ofSequences (← v.sequences.mapM Sequence.linearPieces).flatten) := by
    refine Returns.bind (Returns.mapM fun s _ => returns_linearRuns _ _ _ _ _) fun found hf => ?_
    refine returns_ofSequences fun s hs => ?_
    obtain ⟨pieces, hpieces, hs⟩ := List.mem_flatten.mp hs
    exact hf pieces hpieces s hs
  refine Returns.reported ?_
  unfold withInterp
  split
  · split
    · exact Returns.ok h
    · exact returns_sequence (returns_makeRun _ _ _ _ _ _)
  · split
    · exact Returns.ok h
    · split
      · exact Returns.after fun _ => returns_sequence (returns_make _ _ _ _ _)
      · exact returns_sequence (returns_make _ _ _ _ _)
      · exact hlinear
      · exact hsteps

omit h [BoundedValue V] in
/-- The values at timestamps. -/
theorem returns_atTimestamps (v : Temporal V) (times : ValueSet Timestamp) :
    Returns (∀ w ∈ ·, w.Sound) (v.atTimestamps times) := by
  refine Returns.after fun found => ?_
  split
  · exact Returns.nothing
  · exact Returns.found (p := Sound) trivial
  · exact Returns.asFound (Returns.reported (returns_make _ _ _ _ _))

end

lemma returns_atFilter [StepValue V] [BoundedValue V] {v : Temporal V} (h : v.Sound)
    (filter : ValueFilter V) : Returns (∀ w ∈ ·, w.Sound) (v.atFilter filter) := by
  have hpieces : Returns (∀ w ∈ ·, w.Sound)
      (do ofPieces (← v.sequences.mapM fun s => s.atFilter filter).flatten) :=
    returns_ofPieces_mapM fun s hs =>
      Sequence.returns_atFilter (h.wellFormed.sequences s hs) filter
  cases v with
  | instant i =>
    rw [Temporal.atFilter]
    split
    · exact Returns.found (p := Sound) h
    · exact Returns.nothing
  | sequence s => exact hpieces
  | sequenceSet s => exact hpieces

/-- A change of every recorded value. -/
theorem returns_mapWith {W : Type} [TemporalValue W] [LawfulValue W] (joining : Bool)
    (v : Temporal V) (change : V → Result W) : Returns Sound (v.mapWith joining change) := by
  cases v with
  | instant i => exact Returns.after fun _ => Returns.ok (p := Sound) trivial
  | sequence s => exact returns_sequence (returns_mapValues s change)
  | sequenceSet s =>
    exact Returns.bind (Returns.mapM fun x _ => returns_mapValues x change) fun pieces hpieces =>
      returns_sequenceSet (SequenceSet.returns_make hpieces joining)

lemma returns_mapValues {W : Type} [TemporalValue W] [LawfulValue W] (v : Temporal V)
    (change : V → Result W) : Returns Sound (v.mapValues change) := returns_mapWith true v change

lemma returns_lift {R : Type} [TemporalValue R] [LawfulValue R] [BoundedValue R]
    (g : Lifting V R) (a b : Temporal V) : Returns (∀ r ∈ ·, r.Sound) (lift g a b) := by
  unfold lift
  split
  · exact Returns.nothing
  · split
    · unfold liftDiscrete
      refine Returns.after fun found => ?_
      split
      · exact Returns.nothing
      · split
        · exact Returns.found (p := Sound) trivial
        · exact Returns.asFound (returns_makeRun _ _ _ _ _ _)
    · exact returns_ofPieces_mapM fun st _ => returns_liftCommon g st.1 st.2

lemma returns_liftWith {R : Type} [TemporalValue R] [LawfulValue R] [BoundedValue R]
    (g : Lifting V R) (a b : Temporal V) : Returns (∀ r ∈ ·, r.Sound) (liftWith g a b) :=
  Returns.after fun _ => returns_lift g a b

lemma returns_liftValue {R : Type} [TemporalValue R] [LawfulValue R] [BoundedValue R]
    (g : Lifting V R) (a : Temporal V) (x : V) : Returns Sound (liftValue g a x) := by
  intro r hr
  obtain ⟨-, hr⟩ := check_bind_eq_ok.mp hr
  obtain ⟨constant, -, hr⟩ := bind_eq_ok.mp hr
  obtain ⟨found, hlift, hr⟩ := bind_eq_ok.mp hr
  have hwith : Returns (∀ r ∈ ·, r.Sound) (lift g a constant) := returns_lift g a constant
  exact hwith found hlift r (orRefuse_eq_ok.mp hr)

end Temporal

end TemporalAlgebra
