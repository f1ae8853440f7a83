import TemporalAlgebra.Proofs.Temporal.Applying
import TemporalAlgebra.Proofs.Temporal.Constant

/-!
# Constants broadcast over time

A constant can be given the time of any value. A function that has a result for any two values can
be lifted to values that change by steps, so that a value and a constant can always be compared,
over all of the time of the value.
-/
namespace TemporalAlgebra

def Lifting.Total {V R : Type} (g : Lifting V R) : Prop := ∀ x y, ∃ z, g.apply x y = .ok z

namespace Sequence

section

variable {V W : Type} [TemporalValue V] [TemporalValue W] [LawfulValue V] [StepValue W]

omit [TemporalValue V] [LawfulValue V] in
lemma endsRepeated_const (x : W) (a : Instant V) (rest : List (Instant V)) :
    endsRepeated (a.withValue x) (rest.map fun i => i.withValue x) = true := by
  induction rest generalizing a with
  | nil => rfl
  | cons b rest ih =>
    cases rest with
    | nil => exact BEq.rfl
    | cons c rest => exact ih b

/-- The values of a sequence can all be replaced by one that changes by steps. -/
lemma exists_mapValues_const {s : Sequence V} (h : s.WellFormed) (x : W) :
    ∃ found, s.mapValues (fun _ => .ok x) = .ok found ∧
      found.interp = replacedInterp W s.interp ∧ found.lo = s.lo ∧ found.hi = s.hi := by
  have hc := wellFormed_iff.mp h
  have hinterp : replacedInterp W s.interp = .discrete → s.interp = .discrete := by
    unfold replacedInterp
    split
    · simp
    · exact id
  have hlinear : replacedInterp W s.interp ≠ .linear := fun hl => by
    unfold replacedInterp at hl
    rw [StepValue.continuous_eq_false] at hl
    split at hl
    · cases hl
    · rename_i hno
      simp [hl] at hno
  have hchecked : Checked (s.first.withValue x) (s.rest.map fun i => i.withValue x) s.lowerInc
      s.upperInc (replacedInterp W s.interp) := by
    refine ⟨fun hl => absurd hl hlinear, ?_, ?_,
      fun _ _ => endsRepeated_const x s.first s.rest⟩
    · change (s.instants.map fun i => i.withValue x).Pairwise Instant.Precedes
      rw [List.pairwise_map]
      exact hc.rising.imp fun hij => ⟨hij.1, StepValue.compatible_eq_ok _ _⟩
    · rintro (hn | hd)
      · exact hc.closed (Or.inl (List.map_eq_nil_iff.mp hn))
      · exact hc.closed (Or.inr (hinterp hd))
  obtain ⟨found, hmake⟩ : ∃ found, makeRun (s.first.withValue x)
      (s.rest.map fun i => i.withValue x) s.lowerInc s.upperInc (replacedInterp W s.interp) true =
        .ok found := exists_makeRun_of_ne_linear hlinear hchecked
  have hbuilt := builtFrom_of_makeRun hmake
  refine ⟨_, (mapValues_const_eq s x).trans hmake, hbuilt.interp_eq, ?_, ?_⟩
  · rw [hbuilt.lo_eq, lo_eq]
    rfl
  · rw [hbuilt.hi_eq, List.getLastD_map (f := fun i : Instant V => i.withValue x), hi_eq]
    rfl

end

end Sequence

namespace Temporal

open Sequence

section

variable {V W : Type} [TemporalValue V] [TemporalValue W] [LawfulValue V] [StepValue W]

/-- A constant can be given the time of any value. -/
lemma exists_constantLike {frame : Temporal V} (h : frame.WellFormed) (x : W) :
    ∃ found, constantLike x frame = .ok found := by
  unfold constantLike
  simp only [reported_eq_ok]
  cases frame with
  | instant i => exact ⟨_, rfl⟩
  | sequence s =>
    obtain ⟨t, ht, -⟩ := Sequence.exists_mapValues_const h x
    exact ⟨sequence t, bind_eq_ok.mpr ⟨t, ht, rfl⟩⟩
  | sequenceSet s =>
    have htrain := SequenceSet.WellFormed.isTrain h
    have hall : ∀ p ∈ s.sequences, ∃ t, p.mapValues (fun _ => .ok x) = .ok t ∧
        t.interp = replacedInterp W p.interp ∧ t.lo = p.lo ∧ t.hi = p.hi :=
      fun p hp => Sequence.exists_mapValues_const (htrain.wellFormed p hp) x
    obtain ⟨pieces, hpieces⟩ := exists_forall₂_iff.mpr hall
    have hmap : (s.sequences.mapM fun p => p.mapValues fun _ => .ok x) = .ok pieces :=
      mapM_eq_ok.mpr (hpieces.imp fun _ _ hp => hp.1)
    have htrain' : Train (replacedInterp W s.interp) pieces := by
      refine ⟨fun t ht => ?_, fun t ht => ?_, ?_, ?_⟩
      · obtain ⟨p, -, hp, -⟩ := exists_of_mem_right hpieces ht
        exact (mapValues_const hp).1
      · obtain ⟨p, hp, -, hi, -⟩ := exists_of_mem_right hpieces ht
        rw [hi, htrain.interp_eq p hp]
      · have hd := htrain.continuous
        unfold replacedInterp
        split <;> simp_all
      · refine pairwise_of_forall₂ hpieces htrain.rising fun p t p' t' hp hp' hbefore => ?_
        unfold Before at hbefore ⊢
        rwa [hp.2.2.2, hp'.2.2.1]
    obtain ⟨first, rest, rfl⟩ : ∃ first rest, pieces = first :: rest := by
      obtain ⟨t, ht, -⟩ := exists_of_mem_left hpieces (List.mem_cons_self ..)
      exact List.exists_cons_of_ne_nil (List.ne_nil_of_mem ht)
    have hset := SequenceSet.make_eq_ofRun htrain' (c := x) fun _ _ _ _ =>
      StepValue.compatible_eq_ok _ _
    exact ⟨_, bind_eq_ok.mpr ⟨_, hmap, bind_eq_ok.mpr ⟨_, hset, rfl⟩⟩⟩

end

lemma exists_lift {V R : Type} [TemporalValue V] [TemporalValue R] [StepValue V] [StepValue R]
    {g : Lifting V R} {a b : Temporal V} (hg : g.Total) (ha : a.WellFormed) (hb : b.WellFormed) :
    ∃ found, lift g a b = .ok found :=
  (exists_lift_iff ha hb).mpr fun _ x y _ _ => hg x y

section

variable {V : Type} [TemporalValue V]

lemma total_comparing (c : Comparison) : (comparing (V := V) c).Total := fun _ _ => ⟨_, rfl⟩

variable [StepValue V]

lemma WellFormed.constantLike_eq {W : Type} [TemporalValue W] [LawfulValue W] {frame : Temporal W}
    (h : frame.WellFormed) (x : V) : ∃ r, constantLike x frame = .ok r ∧ r.WellFormed ∧
      r.time = frame.time ∧
        ∀ t, r.lookup t = .ok (if frame.time.containsValue t then some x else none) := by
  obtain ⟨r, hr⟩ := exists_constantLike h x
  obtain ⟨hwf, hcov, htakes⟩ := constantLike_spec hr
  refine ⟨r, hr, hwf, hwf.time_eq h hcov, fun t => ?_⟩
  have hdefined := (h.containsValue_time t).trans (hcov _).symm
  by_cases hc : r.Covers t.place
  · obtain ⟨z, hz⟩ := (hwf.exists_valueAt_iff t).mpr hc
    rw [if_pos (hdefined.mpr hc), hwf.lookup_eq_valueAt, hz,
      htakes _ z ((hwf.valueAt_eq_some_iff t z).mp hz)]
  · rw [if_neg (mt hdefined.mp hc)]
    exact lookup_of_not_covers hc

/-- A comparison with a constant has a result over all of the time of the value. -/
lemma WellFormed.compareValue_takes {v : Temporal V} (h : v.WellFormed) (c : Comparison) (x : V) :
    ∃ r, v.compareValue c x = .ok r ∧ r.WellFormed ∧ (∀ n, r.Covers n ↔ v.Covers n) ∧
      ∀ n b, r.Takes n b ↔ ∃ y, v.Takes n y ∧ c.holds y x = b := by
  obtain ⟨k, hk⟩ := exists_constantLike h x
  obtain ⟨hkwf, hkcov, hktakes⟩ := constantLike_spec hk
  obtain ⟨found, hfound⟩ := exists_lift (total_comparing c) h hkwf
  have hlifts := lift_spec h hkwf hfound
  have hcov : ∀ n, SomeCovers found n ↔ v.Covers n := by
    intro n
    rw [hlifts.covers_iff, hkcov, and_self]
  cases found with
  | none =>
    obtain ⟨s, hs⟩ := exists_mem_sequences v
    have hlo := (hcov s.lo).mpr ⟨s, hs, (h.sequences s hs).covers_lo⟩
    exact absurd hlo (not_someCovers_none _)
  | some r =>
    refine ⟨r, ?_, hlifts.wellFormed r rfl, hcov, fun n b => ?_⟩
    · refine reported_eq_ok.mpr (check_bind_eq_ok.mpr ⟨StepValue.compatible_eq_ok _ _, ?_⟩)
      exact bind_eq_ok.mpr ⟨k, hk, bind_eq_ok.mpr ⟨some r, hfound, rfl⟩⟩
    · refine (hlifts.takes_iff inferInstance inferInstance n b).trans ⟨?_, ?_⟩
      · rintro ⟨y, z, hy, hz, hb⟩
        obtain rfl := hktakes n z hz
        exact ⟨y, hy, Except.ok.inj hb⟩
      · rintro ⟨y, hy, rfl⟩
        obtain ⟨z, hz⟩ := covers_iff_exists_takes.mp
          ((hkcov n).mpr (covers_iff_exists_takes.mpr ⟨y, hy⟩))
        obtain rfl := hktakes n z hz
        exact ⟨y, z, hy, hz, rfl⟩

/-- Operators against a constant have a result over all of the time of a value: comparisons the
truth value of each value that is compared, and a constant that is broadcast the constant. -/
theorem constant_operators_spec (x : V) :
    (∀ v : Temporal V, v.WellFormed → ∀ c : Comparison, ∃ r, v.compareValue c x = .ok r ∧
      r.WellFormed ∧ r.time = v.time ∧
        ∀ t, r.valueAt t = (v.valueAt t).map fun y => c.holds y x) ∧
    ∀ {W : Type} [TemporalValue W] [LawfulValue W] (frame : Temporal W), frame.WellFormed →
      ∃ r, constantLike x frame = .ok r ∧ r.WellFormed ∧ r.time = frame.time ∧
        ∀ t, r.lookup t = .ok (if frame.time.containsValue t then some x else none) := by
  refine ⟨fun v h c => ?_, fun frame h => h.constantLike_eq x⟩
  obtain ⟨r, hr, hwf, hcov, htakes⟩ := h.compareValue_takes c x
  refine ⟨r, hr, hwf, ?_, fun t => Option.ext fun b => ?_⟩
  · refine hwf.time_spec.1.eq_of_covers h.time_spec.1 fun n => ?_
    rw [hwf.time_spec.2, h.time_spec.2, hcov]
  · rw [hwf.valueAt_eq_some_iff, htakes, Option.map_eq_some_iff]
    simp only [h.valueAt_eq_some_iff]

/-- What goes up by steps is compared with its greatest value over all of its time. -/
theorem stairs_compared :
    stairs.WellFormed ∧ StepValue Integer ∧
      (∃ r, stairs.compareValue (.inequality .lt) (.clamp 2) = .ok r ∧ r.time = stairs.time ∧
        r.valueAt (.nearest 5) = some true ∧ r.valueAt (.nearest 20) = none) ∧
      ∃ r, constantLike (.clamp 7 : Integer) stairs = .ok r ∧ r.time = stairs.time := by
  obtain ⟨r, hr, -, htime, hvalue⟩ :=
    (constant_operators_spec (.clamp 2 : Integer)).1 stairs stairs_wellFormed (.inequality .lt)
  obtain ⟨k, hk, -, hktime, -⟩ :=
    (constant_operators_spec (.clamp 7 : Integer)).2 stairs stairs_wellFormed
  exact ⟨stairs_wellFormed, inferInstance, ⟨r, hr, htime, hvalue _, hvalue _⟩, k, hk, hktime⟩

end

end Temporal

end TemporalAlgebra
