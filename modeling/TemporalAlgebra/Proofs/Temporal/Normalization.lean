import TemporalAlgebra.Proofs.Temporal.Canonical
import TemporalAlgebra.Proofs.Temporal.TimeRestriction

/-!
# Normalised steps

Normalising leaves out the steps that repeat a value, but for the last instant, and joins sequences
that touch. What comes out has the same time, values and left limits. It is without repeated steps
and without neighbours that one sequence could stand for, and so normalising it again changes
nothing.
-/
namespace TemporalAlgebra

variable {V : Type} [TemporalValue V] [StepValue V]

namespace Sequence

/-- Of the instants that are kept, only the last one may repeat the value before it. -/
lemma isChain_dropLast_kept (a : Instant V) (rest : List (Instant V)) :
    (a :: kept .step a rest).dropLast.IsChain fun i j => i.value ≠ j.value := by
  fun_induction kept .step a rest with
  | case1 a => exact List.isChain_nil
  | case2 a m => exact List.isChain_singleton a
  | case3 a m b rest hr ih => exact ih
  | case4 a m b rest hr ih =>
    obtain ⟨n, found, hfound⟩ := List.exists_cons_of_ne_nil
      (kept_ne_nil .step m (List.cons_ne_nil b rest))
    rw [hfound, List.dropLast_cons_cons] at ih
    rw [hfound, List.dropLast_cons_cons, List.dropLast_cons_cons, List.isChain_cons_cons]
    exact ⟨fun heq => hr (beq_iff_eq.mpr heq), ih⟩

lemma ofRun_kept {first : Instant V} {rest : List (Instant V)}
    (h : (first :: rest).Pairwise Instant.Precedes) (lowerInc upperInc : Bool) :
    (ofRun first (kept .step first rest) lowerInc upperInc .step).period =
        (ofRun first rest lowerInc upperInc .step).period ∧
      ∀ n, (ofRun first (kept .step first rest) lowerInc upperInc .step).held n =
        (ofRun first rest lowerInc upperInc .step).held n := by
  refine ⟨?_, fun n => heldFrom_kept (by simp) n h⟩
  unfold period last
  exact congrArg (fun i : Instant V => (⟨first.time, i.time, lowerInc, upperInc⟩ : Period))
    (getLastD_kept .step first rest)

omit [StepValue V] in
lemma lookup_congr {s s' : Sequence V} (hs : s.interp = .step) (hs' : s'.interp = .step)
    (hperiod : s.period = s'.period) (hheld : ∀ n, s.held n = s'.held n) (t : Timestamp) :
    s.lookup t = s'.lookup t := by
  have hd : ∀ {x : Sequence V}, x.interp = .step → x.isDiscrete = false := by
    intro x hx
    rw [isDiscrete_eq_false_iff, hx]
    simp
  unfold lookup
  rw [hd hs, hd hs', hperiod, valueNear_eq (by simp [hs]), valueNear_eq (by simp [hs']), hheld]
  rfl

lemma held_add_one {s : Sequence V} (h : s.WellFormed) {t : Timestamp}
    (ht : s.first.time.place ≤ t.place) : s.held (t.place + 1) = s.held t.place := by
  obtain ⟨i, hi, hv⟩ := exists_latest h.rising ht
  refine (heldFrom_of_latest h.rising ⟨hi.mem, by have := hi.place_le; omega, ?_⟩).trans hv.symm
  intro j hj hjn
  refine hi.le_place j hj ?_
  have := j.time.place_emod
  have := t.place_emod
  omega

/-- A sequence by steps that takes the values of two others, and no other values. -/
structure Unites (s a b : Sequence V) : Prop where
  wellFormed : s.WellFormed
  interp_eq : s.interp = .step
  takes_iff : ∀ n x, s.Takes n x ↔ a.Takes n x ∨ b.Takes n x

namespace Unites

variable {s a b : Sequence V}

omit [StepValue V] in
lemma mem_period_iff (h : s.Unites a b) (ht : Train .step [a, b]) (n : Int) :
    s.lo ≤ n ∧ n ≤ s.hi ↔ (a.lo ≤ n ∧ n ≤ a.hi) ∨ (b.lo ≤ n ∧ n ≤ b.hi) := by
  have hd : s.isDiscrete = false := isDiscrete_eq_false_iff.mpr (by simp [h.interp_eq])
  rw [← ht.covers_iff (List.mem_cons_self ..) n, ← ht.covers_iff (s := b) (by simp) n,
    ← covers_of_continuous hd n]
  constructor
  · exact fun hn => ((h.takes_iff n _).mp ⟨hn, rfl⟩).imp And.left And.left
  · rintro (hn | hn)
    · exact ((h.takes_iff n _).mpr (Or.inl ⟨hn, rfl⟩)).1
    · exact ((h.takes_iff n _).mpr (Or.inr ⟨hn, rfl⟩)).1

lemma touching (h : s.Unites a b) (ht : Train .step [a, b]) : a.hi + 1 = b.lo := by
  have hab : a.Before b := List.rel_of_pairwise_cons ht.rising (by simp)
  unfold Before at hab
  have halo := (ht.wellFormed a (by simp)).lo_le_hi
  have hblo := (ht.wellFormed b (by simp)).lo_le_hi
  have hmem := h.mem_period_iff ht
  have := (hmem a.lo).mpr (Or.inl ⟨le_refl _, halo⟩)
  have := (hmem b.hi).mpr (Or.inr ⟨hblo, le_refl _⟩)
  have := (hmem (a.hi + 1)).mp (by omega)
  omega

/-- The value of an instant goes on behind it: it is that of the sequence that begins there. -/
lemma value_eq (h : s.Unites a b) (ht : Train .step [a, b]) (hu : a.upperInc = true) :
    a.last.value = b.first.value := by
  have ha := ht.wellFormed a (by simp)
  have hb := ht.wellFormed b (by simp)
  have halo := ha.lo_le_hi
  have hblo := hb.lo_le_hi
  have htouch := h.touching ht
  obtain ⟨htime, hinc⟩ := hi_add_one_eq_lo_iff.mp htouch
  have hl : b.lowerInc = false := by
    rw [hu] at hinc
    simpa using hinc
  have hahi := hi_eq a
  have hbfirst := lo_eq b
  rw [hu, if_pos rfl] at hahi
  rw [hl, if_neg Bool.false_ne_true] at hbfirst
  have hleft : s.held a.last.time.place = a.last.value := by
    refine ((h.takes_iff a.last.time.place a.last.value).mpr (Or.inl ⟨?_, ?_⟩)).2
    · rw [ht.covers_iff (by simp)]
      omega
    · exact held_place ha.rising a.last_mem
  have hright : s.held (a.last.time.place + 1) = b.first.value := by
    refine ((h.takes_iff _ b.first.value).mpr (Or.inr ⟨?_, ?_⟩)).2
    · rw [ht.covers_iff (by simp)]
      omega
    · rw [htime, held_add_one hb (le_refl _)]
      exact held_place hb.rising (List.mem_cons_self ..)
  have hbegun : s.first.time.place ≤ a.last.time.place := by
    have := (h.mem_period_iff ht a.hi).mpr (Or.inl ⟨halo, le_refl _⟩)
    have hslo := lo_eq s
    split at hslo <;> omega
  rw [← hleft, ← hright, held_add_one h.wellFormed hbegun]

end Unites

end Sequence

namespace SequenceSet

open Sequence

/-- Sequences by steps are joined where they touch; what the first one ends with must go on if it
holds its end. -/
lemma joined_isSome_iff {a b : Sequence V} (ha : a.interp = .step) :
    (joined a b).isSome = true ↔
      a.hi + 1 = b.lo ∧ (a.upperInc = true → a.last.value = b.first.value) := by
  have htouch : (a.last.time == b.first.time && a.upperInc != b.lowerInc) = true ↔
      a.hi + 1 = b.lo := by
    rw [Bool.and_eq_true, Timestamp.beq_iff, bne_iff_ne, hi_add_one_eq_lo_iff]
  unfold joined
  by_cases h : a.hi + 1 = b.lo
  · rw [if_pos (htouch.mpr h), ha]
    cases a.upperInc with
    | false => simp [h]
    | true => by_cases hv : a.last.value = b.first.value <;> simp [h, hv]
  · rw [if_neg (mt htouch.mp h)]
    simp [h]

lemma joined_isSome_iff_exists {a b : Sequence V} (h : Train .step [a, b]) :
    (joined a b).isSome = true ↔ ∃ s : Sequence V, s.Unites a b := by
  constructor
  · intro hsome
    obtain ⟨⟨first, run⟩, hj⟩ := Option.isSome_iff_exists.mp hsome
    have hcompat : Compatible a.first.value [a, b] := fun _ _ _ _ =>
      StepValue.compatible_eq_ok _ _
    obtain ⟨s, -, -, htrain, hgathers⟩ := joined_spec h hcompat hj
    refine ⟨s, htrain.wellFormed s (by simp), htrain.interp_eq s (by simp), fun n x => ?_⟩
    simpa using hgathers.takes_iff inferInstance n x
  · rintro ⟨s, hs⟩
    exact (joined_isSome_iff (h.interp_eq a (by simp))).mpr ⟨hs.touching h, hs.value_eq h⟩

lemma isChain_not_unites {pieces : List (Sequence V)} {set : SequenceSet V}
    (hwf : ∀ s ∈ pieces, s.WellFormed) (h : make pieces true = .ok set) :
    set.sequences.IsChain fun a b => joined a b = none ∧ ¬∃ s : Sequence V, s.Unites a b := by
  have htrain := (wellFormed_of_make hwf h).isTrain
  have hstep : set.interp = .step := by
    have hlinear := (htrain.wellFormed _ (List.mem_cons_self ..)).interp_ne_linear
    rw [htrain.interp_eq _ (List.mem_cons_self ..)] at hlinear
    cases hi : set.interp with
    | discrete => exact absurd hi htrain.continuous
    | step => rfl
    | linear => exact absurd hi hlinear
  rw [hstep] at htrain
  refine List.isChain_iff_getElem.mpr fun i hi => ?_
  have hnone := List.isChain_iff_getElem.mp (isChain_of_make h).2 i hi
  have hpair : Train .step [set.sequences[i], set.sequences[i + 1]] := by
    have hbefore := List.pairwise_iff_getElem.mp htrain.rising i (i + 1) (by omega) hi (by omega)
    refine ⟨?_, ?_, htrain.continuous, List.pairwise_pair.mpr hbefore⟩
    · simp [htrain.wellFormed]
    · simp [htrain.interp_eq]
  refine ⟨hnone, ?_⟩
  rw [← joined_isSome_iff_exists hpair, hnone]
  simp

lemma exists_make {pieces : List (Sequence V)} {normalizing : Bool} {given : SequenceSet V}
    (hwf : ∀ s ∈ pieces, s.WellFormed) (h : make pieces normalizing = .ok given) :
    ∃ plain set, make pieces false = .ok plain ∧ make pieces true = .ok set ∧
      Gathers pieces set.sequences := by
  obtain ⟨first, rest, rfl⟩ := exists_cons_of_make h
  obtain ⟨htrain, hcompat⟩ := train_of_make_eq_ok hwf h
  obtain ⟨set, hset, -, hgathers⟩ := make_spec htrain hcompat
    (completes_make_of_confined htrain hcompat
      (confined_of_ne_linear fun s hs => (hwf s hs).interp_ne_linear))
  exact ⟨_, set, make_eq_ofRun htrain hcompat, hset, hgathers⟩

end SequenceSet

namespace Temporal

open Sequence

/-- Normalising steps changes neither time nor values nor left limits; it leaves no repeated step
before the last instant and no neighbours that can be joined, and nothing to normalise. -/
theorem normalizing_steps_spec :
    (∀ (instants : List (Instant V)) (lowerInc upperInc normalizing : Bool) (given : Sequence V),
      Sequence.new instants lowerInc upperInc .step normalizing = .ok given →
        ∃ plain s, Sequence.new instants lowerInc upperInc .step false = .ok plain ∧
          Sequence.new instants lowerInc upperInc .step true = .ok s ∧
          s.period = plain.period ∧ (∀ t, s.lookup t = plain.lookup t) ∧
          (∀ t, s.leftLimit t = plain.leftLimit t) ∧
          (s.instants.dropLast.IsChain fun i j => i.value ≠ j.value) ∧
          Sequence.new s.instants s.lowerInc s.upperInc s.interp true = .ok s) ∧
    ∀ (pieces : List (Sequence V)) (normalizing : Bool) (given : SequenceSet V),
      (∀ s ∈ pieces, s.WellFormed) → SequenceSet.new pieces normalizing = .ok given →
        ∃ plain set, SequenceSet.new pieces false = .ok plain ∧
          SequenceSet.new pieces true = .ok set ∧
          (sequenceSet set).time = (sequenceSet plain).time ∧
          (∀ t, set.lookup t = plain.lookup t) ∧
          (set.sequences.IsChain fun a b =>
            SequenceSet.joined a b = none ∧ ¬∃ s : Sequence V, s.Unites a b) ∧
          SequenceSet.new set.sequences true = .ok set := by
  refine ⟨fun instants lowerInc upperInc normalizing given h => ?_,
    fun pieces normalizing given hwf h => ?_⟩
  · cases instants with
    | nil => simp [Sequence.new, make] at h
    | cons first rest =>
      obtain ⟨hc, -⟩ := makeRun_eq_ok_iff.mp (reported_eq_ok.mp h)
      have hmake : Sequence.make (first :: rest) lowerInc upperInc .step true =
          .ok (ofRun first (kept .step first rest) lowerInc upperInc .step) :=
        makeRun_eq_ok_iff.mpr ⟨hc, fun _ => completes_normalize hc.rising (fun hl => by cases hl), rfl⟩
      obtain ⟨hperiod, hheld⟩ := ofRun_kept hc.rising lowerInc upperInc
      refine ⟨_, _, reported_eq_ok.mpr (makeRun_eq_ok hc), reported_eq_ok.mpr hmake, hperiod,
        lookup_congr rfl rfl hperiod hheld, fun t => ?_, isChain_dropLast_kept first rest,
        reported_eq_ok.mpr (canonical_of_make hmake).make_eq⟩
      rw [leftLimit_eq (by simp [ofRun]), leftLimit_eq (by simp [ofRun])]
      exact congrArg _ (hheld _)
  · obtain ⟨plain, set, hplain, hset, hgathers⟩ := SequenceSet.exists_make hwf
      (reported_eq_ok.mp h)
    have hpwf := SequenceSet.wellFormed_of_make hwf hplain
    have hswf := SequenceSet.wellFormed_of_make hwf hset
    obtain ⟨hrun, hchain⟩ := SequenceSet.isChain_of_make hset
    rw [← SequenceSet.sequences_of_make hplain] at hgathers
    have hp : (sequenceSet plain).WellFormed := hpwf
    have hs : (sequenceSet set).WellFormed := hswf
    refine ⟨plain, set, reported_eq_ok.mpr hplain, reported_eq_ok.mpr hset, ?_,
      fun t => ?_, SequenceSet.isChain_not_unites hwf hset,
      reported_eq_ok.mpr (hswf.make_eq hrun (SequenceSet.join_eq_self hchain))⟩
    · refine hs.time_spec.1.eq_of_covers hp.time_spec.1 fun n => ?_
      rw [hs.time_spec.2, hp.time_spec.2]
      exact hgathers.covers_iff n
    · change (sequenceSet set).lookup t = (sequenceSet plain).lookup t
      rw [hs.lookup_eq_valueAt, hp.lookup_eq_valueAt]
      refine congrArg _ (Option.ext fun x => ?_)
      rw [hs.valueAt_eq_some_iff, hp.valueAt_eq_some_iff]
      exact hgathers.takes_iff inferInstance t.place x

def landings : List (Sequence Integer) :=
  [.ofRun ⟨.clamp 1, .nearest 0⟩ [⟨.clamp 1, .nearest 5⟩, ⟨.clamp 1, .nearest 10⟩] true false .step,
    .ofRun ⟨.clamp 2, .nearest 10⟩ [⟨.clamp 2, .nearest 20⟩] true true .step]

/-- Of a count that repeats its values the repeated steps are left out, and counts that touch become
one. -/
theorem landings_normalized :
    StepValue Integer ∧ (∀ s ∈ landings, s.WellFormed) ∧
      (∃ plain s,
        Sequence.new (landings.flatMap fun s => s.instants.dropLast) true true .step false =
            .ok plain ∧
          Sequence.new (landings.flatMap fun s => s.instants.dropLast) true true .step true =
            .ok s ∧
          s.lookup (.nearest 5) = plain.lookup (.nearest 5) ∧
          Sequence.new s.instants s.lowerInc s.upperInc s.interp true = .ok s) ∧
      ∃ plain set, SequenceSet.new landings false = .ok plain ∧
        SequenceSet.new landings true = .ok set ∧
        set.lookup (.nearest 10) = plain.lookup (.nearest 10) ∧
        SequenceSet.new set.sequences true = .ok set := by
  have hwf : ∀ s ∈ landings, s.WellFormed := by
    intro s hs
    rcases List.mem_cons.mp hs with rfl | hs
    · rfl
    · obtain rfl := List.mem_singleton.mp hs
      rfl
  obtain ⟨hsequence, hset⟩ := normalizing_steps_spec (V := Integer)
  refine ⟨inferInstance, hwf, ?_, ?_⟩
  · obtain ⟨plain, s, hplain, hs, -, hvalue, -, -, hagain⟩ :=
      hsequence (landings.flatMap fun s => s.instants.dropLast) true true false _ rfl
    exact ⟨plain, s, hplain, hs, hvalue _, hagain⟩
  · obtain ⟨plain, set, hplain, hset, -, hvalue, -, hagain⟩ := hset landings false _ hwf rfl
    exact ⟨plain, set, hplain, hset, hvalue _, hagain⟩

end Temporal

end TemporalAlgebra
