import TemporalAlgebra.Proofs.Temporal.Assembly
import TemporalAlgebra.Temporal.Constant

/-!
# Constants over the time of a value

A value that is constant over the time of another one is defined where that one is.
-/
namespace TemporalAlgebra

variable {V W : Type} [TemporalValue V] [TemporalValue W] {x : W}

namespace Sequence

lemma kept_discrete (a : Instant V) (rest : List (Instant V)) : kept .discrete a rest = rest := by
  induction rest generalizing a with
  | nil => rfl
  | cons b rest ih =>
    cases rest with
    | nil => rfl
    | cons c rest =>
      have hstays : drops .discrete a b c = false := rfl
      rw [kept, hstays, if_neg Bool.false_ne_true, ih]

/-- Interpolation of values that replace others. -/
def replacedInterp (W : Type) [TemporalValue W] (interp : Interpolation) : Interpolation :=
  if interp == .linear && !TemporalValue.continuous W then .step else interp

lemma mapValues_const_eq (s : Sequence V) (x : W) : s.mapValues (fun _ => .ok x) =
    makeRun (s.first.withValue x) (s.rest.map fun i => i.withValue x) s.lowerInc s.upperInc
      (replacedInterp W s.interp) true := by
  have hmap : (s.instants.mapM fun i => do return i.withValue (← (.ok x : Result W))) =
      (.ok (s.instants.map fun i => i.withValue x) : Result _) := List.mapM_pure
  unfold mapValues
  rw [hmap]
  rfl

/-- A sequence whose values are all replaced by one is defined where it was. -/
lemma mapValues_const [LawfulValue W] {s : Sequence V} {found : Sequence W}
    (h : s.mapValues (fun _ => .ok x) = .ok found) :
    found.WellFormed ∧ (∀ n, found.Covers n ↔ s.Covers n) ∧ ∀ n y, found.Takes n y → y = x := by
  have hmake := (mapValues_const_eq s x).symm.trans h
  have hbuilt := builtFrom_of_makeRun hmake
  have hdiscrete : found.isDiscrete = s.isDiscrete := by
    unfold isDiscrete
    rw [hbuilt.interp_eq, replacedInterp]
    cases s.interp <;> cases TemporalValue.continuous W <;> rfl
  refine ⟨hbuilt.wellFormed, fun n => ?_, fun n y hy => ?_⟩
  · cases hd : s.isDiscrete with
    | true =>
      have hinterp : replacedInterp W s.interp = .discrete := hbuilt.interp_eq.symm.trans
        (isDiscrete_iff.mp (hdiscrete.trans hd))
      have hinstants : found.instants = s.instants.map fun i => i.withValue x := by
        obtain ⟨-, -, rfl⟩ := makeRun_eq_ok_iff.mp hmake
        rw [if_pos rfl, hinterp, kept_discrete]
        rfl
      rw [covers_of_discrete hd, covers_of_discrete (hdiscrete.trans hd), hinstants]
      simp only [List.mem_map, exists_exists_and_eq_and]
      rfl
    | false =>
      rw [covers_of_continuous hd, covers_of_continuous (hdiscrete.trans hd), hbuilt.lo_eq,
        hbuilt.hi_eq, List.getLastD_map (f := fun i : Instant V => i.withValue x), lo_eq, hi_eq]
      rfl
  · obtain ⟨i, hi, hheld⟩ := heldFrom_mem n found.first found.rest
    rcases List.mem_cons.mp (hbuilt.instants_subset i hi) with rfl | hmem
    · exact hy.2.symm.trans hheld
    · obtain ⟨j, -, rfl⟩ := List.mem_map.mp hmem
      exact hy.2.symm.trans hheld

end Sequence

namespace Temporal

lemma mapSet_const [LawfulValue W] {pieces : List (Sequence V)} {others : List (Sequence W)}
    (h : pieces.mapM (fun s => s.mapValues fun _ => .ok x) = .ok others) :
    (∀ t ∈ others, t.WellFormed) ∧
      (∀ n, (∃ t ∈ others, t.Covers n) ↔ ∃ p ∈ pieces, p.Covers n) ∧
      ∀ n y, (∃ t ∈ others, t.Takes n y) → y = x := by
  have hof : ∀ t ∈ others, ∃ p ∈ pieces, p.mapValues (fun _ => .ok x) = .ok t :=
    fun t ht => mem_of_mapM_eq_ok h ht
  refine ⟨fun t ht => ?_, fun n => ⟨?_, ?_⟩, ?_⟩
  · obtain ⟨p, -, hp⟩ := hof t ht
    exact (Sequence.mapValues_const hp).1
  · rintro ⟨t, ht, hn⟩
    obtain ⟨p, hp, ht⟩ := hof t ht
    exact ⟨p, hp, ((Sequence.mapValues_const ht).2.1 n).mp hn⟩
  · rintro ⟨p, hp, hn⟩
    obtain ⟨t, ht, hpt⟩ := mem_mapM_of_mem h hp
    exact ⟨t, ht, ((Sequence.mapValues_const hpt).2.1 n).mpr hn⟩
  · rintro n y ⟨t, ht, hy⟩
    obtain ⟨p, -, hp⟩ := hof t ht
    exact (Sequence.mapValues_const hp).2.2 n y hy

/-- One value over the time of another one is defined where that one is. -/
theorem constantLike_spec [LawfulValue W] {frame : Temporal V} {found : Temporal W}
    (h : constantLike x frame = .ok found) :
    found.WellFormed ∧ (∀ n, found.Covers n ↔ frame.Covers n) ∧ ∀ n y, found.Takes n y → y = x := by
  unfold constantLike at h
  rw [reported_eq_ok] at h
  cases frame with
  | instant i =>
    obtain rfl := Except.ok.inj h
    refine ⟨wellFormed_instant _, fun n => ?_, fun n y => ?_⟩
    · unfold Covers
      simp only [sequences, List.mem_singleton, exists_eq_left, Sequence.covers_ofInstant]
      rfl
    · rintro ⟨s, hs, -, rfl⟩
      obtain rfl := List.mem_singleton.mp hs
      rfl
  | sequence s =>
    simp only [mapWith, bind_eq_ok, pure_eq_ok] at h
    obtain ⟨t, ht, rfl⟩ := h
    obtain ⟨hwf, hcov, htakes⟩ := Sequence.mapValues_const ht
    refine ⟨hwf, fun n => ?_, fun n y => ?_⟩
    · unfold Covers
      simp only [sequences, List.mem_singleton, exists_eq_left, hcov]
    · rintro ⟨s, hs, hy⟩
      obtain rfl := List.mem_singleton.mp hs
      exact htakes n y hy
  | sequenceSet s =>
    simp only [mapWith, bind_eq_ok, pure_eq_ok] at h
    obtain ⟨pieces, hpieces, set, hset, rfl⟩ := h
    obtain ⟨hwf, hcovers, htakes⟩ := mapSet_const hpieces
    obtain rfl : set.sequences = pieces := SequenceSet.sequences_of_make hset
    exact ⟨SequenceSet.wellFormed_of_make hwf hset, hcovers, htakes⟩

end Temporal

end TemporalAlgebra
