import TemporalAlgebra.Proofs.Temporal.Lifting

/-!
# Where a lifted function is applied

A function lifted to values that change by steps is applied only to values that both have at one
place. No check fails on the way, as the pieces of different pairs of sequences share no place. So a
lifted function ends as the function does at some common place, or it has a result; and it has one
if and only if the function has one at every common place.
-/
namespace TemporalAlgebra

namespace Sequence

variable {V R : Type} [TemporalValue V] [TemporalValue R]

/-- How a function lifted over the places from `lo` to `hi` ends: with pieces that share no place,
or as the function fails at one of the places. -/
inductive Ends (g : Lifting V R) (a b : Sequence V) (lo hi : Int) :
    Result (List (Sequence R)) → Prop where
  | computed {pieces : List (Sequence R)} (apart : pieces.Pairwise Apart) :
      Ends g a b lo hi (.ok pieces)
  | failed {n : Int} {f : Failure} (lower : lo ≤ n) (upper : n ≤ hi)
      (apply_eq : g.apply (a.held n) (b.held n) = .error f) : Ends g a b lo hi (.error f)

section

variable {g : Lifting V R} {a b : Sequence V}

lemma Spreads.apart {c d : Sequence V} {interp interp' : Interpolation} {lo hi lo' hi' : Int}
    {pieces more : List (Sequence R)} (h : Spreads g a b interp lo hi pieces)
    (h' : Spreads g c d interp' lo' hi' more) (hlt : hi < lo' ∨ hi' < lo) :
    ∀ x ∈ pieces, ∀ y ∈ more, x.Apart y := by
  rintro x hx y hy n ⟨hxn, hyn⟩
  have := (h.covers_iff n).mp ⟨x, hx, hxn⟩
  have := (h'.covers_iff n).mp ⟨y, hy, hyn⟩
  omega

lemma Ends.mono {lo hi lo' hi' : Int} {r : Result (List (Sequence R))} (h : Ends g a b lo hi r)
    (hlo : lo' ≤ lo) (hhi : hi ≤ hi') : Ends g a b lo' hi' r := by
  cases h with
  | computed apart => exact .computed apart
  | failed lower upper apply_eq => exact .failed (hlo.trans lower) (upper.trans hhi) apply_eq

/-- Computations one of which goes on where the other ends. -/
lemma Ends.append {lo mid hi : Int} {r r' : Result (List (Sequence R))}
    (h : Ends g a b lo (mid - 1) r) (h' : Ends g a b mid hi r') (hlo : lo ≤ mid)
    (hhi : mid - 1 ≤ hi)
    (hapart : ∀ pieces more, r = .ok pieces → r' = .ok more →
      ∀ x ∈ pieces, ∀ y ∈ more, x.Apart y) :
    Ends g a b lo hi (do
      let pieces ← r
      let more ← r'
      return pieces ++ more) := by
  cases h with
  | failed lower upper apply_eq => exact .failed lower (upper.trans hhi) apply_eq
  | computed apart =>
    cases h' with
    | failed lower upper apply_eq => exact .failed (hlo.trans lower) upper apply_eq
    | computed apart' =>
      exact .computed (List.pairwise_append.mpr ⟨apart, apart', hapart _ _ rfl rfl⟩)

variable [StepValue V] [StepValue R]

lemma exists_stepPiece (z : R) {t0 t1 : Timestamp} (h : t0.place < t1.place) (lowerInc : Bool) :
    ∃ x, stepPiece z t0 t1 lowerInc = .ok x := by
  refine ⟨_, makeRun_eq_ok ⟨by simp, ?_, by simp, fun _ _ => BEq.rfl⟩⟩
  exact List.pairwise_pair.mpr ⟨h, StepValue.compatible_eq_ok _ _⟩

omit [TemporalValue R] [StepValue R] in
lemma liftAt_eq (ha : a.WellFormed) (hb : b.WellFormed) (t : Timestamp) :
    liftAt g a b t = (return ⟨← g.apply (a.held t.place) (b.held t.place), t⟩) := by
  unfold liftAt
  rw [bind_of_ok (valueNear_eq ha.interp_ne_linear t),
    bind_of_ok (valueNear_eq hb.interp_ne_linear t)]

omit [StepValue R] in
lemma ends_liftAt (ha : a.WellFormed) (hb : b.WellFormed) (interp : Interpolation)
    (t : Timestamp) : Ends g a b t.place t.place
      (do return [ofInstant (← liftAt g a b t) interp]) := by
  rw [liftAt_eq ha hb]
  cases hz : g.apply (a.held t.place) (b.held t.place) with
  | ok z => exact .computed (List.pairwise_singleton _ _)
  | error f => exact .failed (le_refl _) (le_refl _) hz

lemma exists_liftStretch (ha : a.WellFormed) (hb : b.WellFormed) {t0 t1 : Timestamp}
    (hlt : t0.place < t1.place) (lowerInc : Bool) {z : R}
    (hz : g.apply (a.held t0.place) (b.held t0.place) = .ok z) :
    ∃ x, liftStretch g a b .step lowerInc t0 t1 = .ok [x] := by
  obtain ⟨x, hx⟩ := exists_stepPiece z hlt lowerInc
  refine ⟨x, ?_⟩
  unfold liftStretch
  rw [liftAt_eq ha hb, hz]
  change (do
    let x ← a.inside t0 t1
    let y ← b.inside t0 t1
    let mid ← g.apply x y
    if z == mid then return [← stepPiece z t0 t1 lowerInc]
    else
      let piece ← stepPiece mid t0 t1 false
      return (if lowerInc then [ofInstant ⟨z, t0⟩ .step] else []) ++ [piece]) = _
  rw [bind_of_ok (inside_eq ha.interp_ne_linear t0 t1),
    bind_of_ok (inside_eq hb.interp_ne_linear t0 t1), bind_of_ok hz, if_pos BEq.rfl, bind_of_ok hx]
  rfl

lemma ends_liftStretch (ha : a.WellFormed) (hb : b.WellFormed) {t0 t1 : Timestamp}
    (hta : a.Steady t0 t1) (htb : b.Steady t0 t1) (hlt : t0.place < t1.place) (lowerInc : Bool) :
    Ends g a b (t0.place + if lowerInc then 0 else 1) (t1.place - 1)
      (liftStretch g a b .step lowerInc t0 t1) := by
  have := t0.place_emod
  have := t1.place_emod
  cases hz : g.apply (a.held t0.place) (b.held t0.place) with
  | ok z =>
    obtain ⟨x, hx⟩ := exists_liftStretch ha hb hlt lowerInc hz
    rw [hx]
    exact .computed (List.pairwise_singleton _ x)
  | error f =>
    unfold liftStretch
    rw [liftAt_eq ha hb, hz]
    -- the value at an excluded start is held behind it as well
    refine .failed (n := t0.place + 1) (by split <;> omega) (by omega) ?_
    rw [hta.held_eq ha.rising (by omega) (by omega), htb.held_eq hb.rising (by omega) (by omega),
      hz]

/-- The pieces of stretches that follow each other lie apart. -/
lemma ends_liftStretches (lowerInc upperInc : Bool) (ha : a.WellFormed) (hb : b.WellFormed)
    {t : Timestamp} {rest : List Timestamp}
    (hchain : (t :: rest).IsChain fun t0 t1 =>
      t0.place < t1.place ∧ a.Steady t0 t1 ∧ b.Steady t0 t1)
    (hinc : lowerInc = true ∨ rest ≠ []) :
    t.place ≤ (rest.getLastD t).place ∧
      Ends g a b (t.place + if lowerInc then 0 else 1)
        ((rest.getLastD t).place - if upperInc then 0 else 1)
        (liftStretches g a b .step upperInc lowerInc (t :: rest)) := by
  induction rest generalizing t lowerInc with
  | nil =>
    obtain rfl : lowerInc = true := hinc.resolve_right (by simp)
    refine ⟨le_refl _, ?_⟩
    rw [liftStretches]
    cases upperInc with
    | false => exact .computed List.Pairwise.nil
    | true => exact (ends_liftAt ha hb .step t).mono (by simp) (by simp)
  | cons t1 rest ih =>
    obtain ⟨⟨hlt, hta, htb⟩, hchain⟩ := List.isChain_cons_cons.mp hchain
    obtain ⟨hle, hrest⟩ := ih true hchain (Or.inl rfl)
    rw [if_pos rfl, Int.add_zero] at hrest
    rw [liftStretches, List.getLastD_cons]
    refine ⟨by omega, (ends_liftStretch ha hb hta htb hlt lowerInc).append hrest ?_ ?_ ?_⟩
    · split <;> omega
    · split <;> omega
    · intro pieces more hpieces hmore
      have hspreads := liftStretch_spec ha hb hta htb (by simp) (by simp) hlt hpieces
      have hspreads' := (liftStretches_spec ha hb (by simp) (by simp) hchain (Or.inl rfl) hmore).2
      rw [if_pos rfl, Int.add_zero] at hspreads'
      exact hspreads.apart hspreads' (Or.inl (by omega))

lemma ends_lift (ha : a.WellFormed) (hb : b.WellFormed) {p : Period}
    (hfa : a.first.time.place ≤ p.lower.place) (hfb : b.first.time.place ≤ p.lower.place)
    (hp : p.lo ≤ p.hi) : Ends g a b p.lo p.hi (lift g a b p) := by
  have hlinear : (a.interp == .linear || b.interp == .linear) = false := by
    simp [ha.interp_ne_linear, hb.interp_ne_linear]
  unfold lift
  simp only [hlinear, Bool.and_false, Bool.false_eq_true, if_false]
  split
  · rename_i hinstant
    obtain ⟨hlo, hhi⟩ := Period.ends_of_isInstant hp hinstant
    exact (ends_liftAt ha hb .step p.lower).mono (by omega) (by omega)
  · rename_i hinstant
    have hlt := Period.lower_lt_upper hp hinstant
    have hsync := synchronizes_commonTimes (a := a) (b := b) hlt.le
    have hchain := hsync.isChain hfa hfb
    obtain ⟨rest, htimes, hrest, hlast⟩ := hsync.exists_cons hlt
    rw [htimes] at hchain ⊢
    have hends := (ends_liftStretches (g := g) p.lowerInc p.upperInc ha hb hchain
      (Or.inr hrest)).2
    rw [hlast] at hends
    rwa [Period.lo_eq, Period.hi_eq]

lemma ends_liftCommon (ha : a.WellFormed) (hb : b.WellFormed) :
    Ends g a b (max a.lo b.lo) (min a.hi b.hi) (liftCommon g a b) := by
  unfold liftCommon
  cases hcommon : a.period.intersection b.period with
  | none => exact .computed List.Pairwise.nil
  | some p =>
    obtain ⟨hfa, hfb, hlo, hhi, hle⟩ := begun_of_intersection hcommon
    rw [← hlo, ← hhi]
    exact ends_lift ha hb hfa hfb hle

end

end Sequence

namespace Temporal

open Sequence

variable {V R : Type} [TemporalValue V] [TemporalValue R] {g : Lifting V R} {a b : Temporal V}

/-- A function fails on values that two temporal values have at one place. -/
def FailsAt (g : Lifting V R) (a b : Temporal V) (f : Failure) : Prop :=
  ∃ n x y, a.Takes n x ∧ b.Takes n y ∧ g.apply x y = .error f

section

variable [StepValue V]

omit [TemporalValue R] in
lemma liftInstants_ends (ha : a.WellFormed) (hb : b.WellFormed) (times : List Timestamp) :
    (∃ found, liftInstants g a b times = .ok found) ∨
      ∃ f, FailsAt g a b f ∧ liftInstants g a b times = .error f := by
  induction times with
  | nil => exact Or.inl ⟨[], rfl⟩
  | cons t rest ih =>
    rw [liftInstants, bind_of_ok (ha.lookup_eq_valueAt t), bind_of_ok (hb.lookup_eq_valueAt t)]
    split
    · rename_i x y hx hy
      cases hz : g.apply x y with
      | error f =>
        exact Or.inr ⟨f, ⟨t.place, x, y, (ha.valueAt_eq_some_iff _ _).mp hx,
          (hb.valueAt_eq_some_iff _ _).mp hy, hz⟩, rfl⟩
      | ok z =>
        rcases ih with ⟨more, hmore⟩ | ⟨f, hf, hmore⟩
        · exact Or.inl ⟨⟨z, t⟩ :: more, bind_of_ok hmore⟩
        · exact Or.inr ⟨f, hf, (bind_of_ok rfl).trans (bind_of_error hmore)⟩
    · exact ih

variable [StepValue R]

lemma liftDiscrete_ends (ha : a.WellFormed) (hb : b.WellFormed)
    (hd : (a.isDiscrete || b.isDiscrete) = true) :
    (∃ found, liftDiscrete g a b = .ok found) ∨
      ∃ f, FailsAt g a b f ∧ liftDiscrete g a b = .error f := by
  obtain ⟨times, htimes, hrise, -⟩ := discreteTimes_spec ha hb hd
  unfold liftDiscrete
  rw [htimes]
  rcases liftInstants_ends (g := g) ha hb times with ⟨instants, hinstants⟩ | ⟨f, hf, hinstants⟩
  · rw [bind_of_ok hinstants]
    refine Or.inl ?_
    cases instants with
    | nil => exact ⟨none, rfl⟩
    | cons first rest =>
      dsimp only
      split
      · exact ⟨_, rfl⟩
      · have hsub := (liftInstants_spec ha hb hinstants).1
        have hrising : (first :: rest).Pairwise Instant.Precedes :=
          (List.pairwise_map.mp (hrise.sublist hsub)).imp fun hij =>
            ⟨hij, StepValue.compatible_eq_ok _ _⟩
        exact ⟨_, bind_eq_ok.mpr ⟨_, makeRun_eq_ok (checked_discrete hrising), rfl⟩⟩
  · exact Or.inr ⟨f, hf, bind_of_error hinstants⟩

/-- The pieces of all pairs of sequences share no place. -/
lemma pairwise_apart_pairs (ha : a.WellFormed) (hb : b.WellFormed)
    {pieces : List (List (Sequence R))}
    (h : (a.sequences.flatMap fun s => b.sequences.map fun t => (s, t)).mapM
      (fun st => Sequence.liftCommon g st.1 st.2) = .ok pieces) :
    pieces.flatten.Pairwise Apart := by
  have hpieces := (List.forall₂_and_left
    (p := fun st : Sequence V × Sequence V => st.1.WellFormed ∧ st.2.WellFormed) _ _).mpr
    ⟨fun st hst => ?_, mapM_eq_ok.mp h⟩
  · refine List.pairwise_flatten.mpr ⟨fun l hl => ?_, ?_⟩
    · obtain ⟨st, -, ⟨hs, ht⟩, hok⟩ := exists_of_mem_right hpieces hl
      have hends := ends_liftCommon (g := g) hs ht
      rw [hok] at hends
      cases hends with
      | computed apart => exact apart
    · -- of two pairs either the first or the second sequences follow each other
      have hpairs : (a.sequences.flatMap fun s => b.sequences.map fun t => (s, t)).Pairwise
          fun st st' => st.1.Before st'.1 ∨ st.2.Before st'.2 := by
        refine List.pairwise_flatMap.mpr ⟨fun s _ => ?_, ha.rising.imp fun {s s'} hss' => ?_⟩
        · exact List.pairwise_map.mpr (hb.rising.imp Or.inr)
        · intro st hst st' hst'
          obtain ⟨t, -, rfl⟩ := List.mem_map.mp hst
          obtain ⟨t', -, rfl⟩ := List.mem_map.mp hst'
          exact Or.inl hss'
      refine pairwise_of_forall₂ hpieces hpairs fun st l st' l' hl hl' hbefore => ?_
      obtain ⟨⟨hs, ht⟩, hok⟩ := hl
      obtain ⟨⟨hs', ht'⟩, hok'⟩ := hl'
      have hspreads := liftCommon_spec hs ht hok
      have hspreads' := liftCommon_spec hs' ht' hok'
      refine hspreads.apart hspreads' (Or.inl ?_)
      unfold Before at hbefore
      omega
  · obtain ⟨hs, ht⟩ := mem_pairs_iff.mp hst
    exact ⟨ha.sequences _ hs, hb.sequences _ ht⟩

/-- When both values are continuous, a function is applied where two of their sequences both are
defined. -/
lemma liftContinuous_ends (ha : a.WellFormed) (hb : b.WellFormed) (hda : a.isDiscrete = false)
    (hdb : b.isDiscrete = false) :
    (∃ pieces found, (a.sequences.flatMap fun s => b.sequences.map fun t => (s, t)).mapM
        (fun st => Sequence.liftCommon g st.1 st.2) = .ok pieces ∧
        ofPieces pieces.flatten = .ok found) ∨
      ∃ f, FailsAt g a b f ∧ (a.sequences.flatMap fun s => b.sequences.map fun t => (s, t)).mapM
        (fun st => Sequence.liftCommon g st.1 st.2) = .error f := by
  cases hpieces : (a.sequences.flatMap fun s => b.sequences.map fun t => (s, t)).mapM
      (fun st => Sequence.liftCommon g st.1 st.2) with
  | error f =>
    obtain ⟨⟨s, t⟩, hst, hf⟩ := mapM_eq_error hpieces
    obtain ⟨hs, ht⟩ := mem_pairs_iff.mp hst
    have hends := ends_liftCommon (g := g) (ha.sequences s hs) (hb.sequences t ht)
    rw [hf] at hends
    cases hends with
    | @failed n _ lower upper apply_eq =>
      refine Or.inr ⟨f, ⟨n, s.held n, t.held n, ⟨s, hs, ?_, rfl⟩, ⟨t, ht, ?_, rfl⟩, apply_eq⟩, rfl⟩
      · exact ((ha.isTrain hda).covers_iff hs n).mpr (by omega)
      · exact ((hb.isTrain hdb).covers_iff ht n).mpr (by omega)
  | ok pieces =>
    -- every piece is one of a pair of sequences
    have hof : ∀ x ∈ pieces.flatten, x.WellFormed ∧ x.interp = .step := by
      intro x hx
      obtain ⟨s, -, t, -, l, hxl, hl⟩ := exists_pair_of_mem_pieces ha hb hpieces hx
      refine ⟨hl.wellFormed x hxl, (hl.interp_eq x hxl).trans ?_⟩
      unfold liftedInterp
      rw [StepValue.continuous_eq_false]
      rfl
    obtain ⟨found, hfound, -⟩ := exists_ofPieces_of_step (fun y hy => (hof y hy).1)
      (fun y hy => (hof y hy).2) (pairwise_apart_pairs ha hb hpieces)
    exact Or.inl ⟨pieces, found, rfl, hfound⟩

/-- A function can be lifted to values that change by steps, or it fails on values that both have at
one place. -/
lemma lift_ends (ha : a.WellFormed) (hb : b.WellFormed) :
    (∃ found, lift g a b = .ok found) ∨ ∃ f, FailsAt g a b f ∧ lift g a b = .error f := by
  unfold lift
  split
  · exact Or.inl ⟨none, rfl⟩
  · split
    · rename_i hd
      exact liftDiscrete_ends ha hb hd
    · rename_i hd
      rw [Bool.not_eq_true, Bool.or_eq_false_iff] at hd
      rcases liftContinuous_ends (g := g) ha hb hd.1 hd.2 with
        ⟨pieces, found, hpieces, hfound⟩ | ⟨f, hf, hpieces⟩
      · exact Or.inl ⟨found, bind_eq_ok.mpr ⟨pieces, hpieces, hfound⟩⟩
      · exact Or.inr ⟨f, hf, bind_of_error hpieces⟩

/-- A function can be lifted to values that change by steps if and only if it has a result for the
values that both have at any place. -/
theorem exists_lift_iff (ha : a.WellFormed) (hb : b.WellFormed) :
    (∃ found, lift g a b = .ok found) ↔
      ∀ n x y, a.Takes n x → b.Takes n y → ∃ z, g.apply x y = .ok z := by
  constructor
  · rintro ⟨found, hfound⟩ n x y hx hy
    have hlifts := lift_spec ha hb hfound
    have hcov := (hlifts.covers_iff n).mpr
      ⟨covers_iff_exists_takes.mpr ⟨x, hx⟩, covers_iff_exists_takes.mpr ⟨y, hy⟩⟩
    obtain ⟨z, hz⟩ := someCovers_iff_exists_takes.mp hcov
    obtain ⟨x', y', hx', hy', hz'⟩ := (hlifts.takes_iff inferInstance inferInstance n z).mp hz
    obtain rfl := ha.takes_unique hx hx'
    obtain rfl := hb.takes_unique hy hy'
    exact ⟨z, hz'⟩
  · intro hall
    refine (lift_ends ha hb).resolve_right ?_
    rintro ⟨f, ⟨n, x, y, hx, hy, hf⟩, -⟩
    obtain ⟨z, hz⟩ := hall n x y hx hy
    exact absurd (hf.symm.trans hz) (by simp)

end

end Temporal

end TemporalAlgebra
