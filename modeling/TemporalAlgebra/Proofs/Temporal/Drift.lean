import TemporalAlgebra.Proofs.Temporal.Held
import TemporalAlgebra.Proofs.Value.Interpolating

/-!
# Drift of normalized numbers

An instant is left out if it lies near the chord from the last instant that was kept to the next one
that was given, and that one may be left out later. So a chain of instants that are left out drifts
away from the chord that replaces it, by at most one tolerance for each of them.
-/
namespace TemporalAlgebra

lemma Instant.Precedes.time_lt {V : Type} [TemporalValue V] {a b : Instant V} (h : a.Precedes b) :
    a.time < b.time := Timestamp.lt_iff.mpr h.1

namespace Sequence

open Binary64

section

variable {V : Type} [TemporalValue V] {interp : Interpolation} {a c i : Instant V}
  {run : List (Instant V)} {t : Timestamp}

lemma valueNear_of_lookup {s : Sequence V} (hd : s.isDiscrete = false) {x : V}
    (h : s.lookup t = .ok (some x)) : s.valueNear t = .ok x := by
  have hc : s.Covers t.place := by
    by_contra hno
    rw [lookup_eq_none_iff.mpr hno] at h
    cases h
  rw [lookup_of_covers hd hc, map_eq_ok] at h
  obtain ⟨y, hy, hyx⟩ := h
  rw [hy, Option.some.inj hyx]

lemma valueFrom_of_le (hct : c.time ≤ t) :
    valueFrom interp t a (c :: run) = valueFrom interp t c run := by
  rw [valueFrom, if_pos hct]

lemma valueFrom_of_lt (hat : a.time < t) (htc : t < c.time) :
    valueFrom interp t a (c :: run) = between interp a c t := by
  rw [Timestamp.lt_iff] at hat htc
  simp only [valueFrom, Timestamp.le_iff]
  rw [if_neg (by omega), if_neg (by omega)]

lemma valueFrom_time (h : (a :: run).Pairwise Instant.Precedes) (hi : i ∈ a :: run) :
    valueFrom interp i.time a run = .ok i.value := by
  induction run generalizing a with
  | nil =>
    obtain rfl := List.mem_singleton.mp hi
    rfl
  | cons c run ih =>
    rcases List.mem_cons.mp hi with rfl | hi
    · have hic : i.time.place < c.time.place := (List.rel_of_pairwise_cons h (by simp)).1
      simp only [valueFrom, Timestamp.le_iff]
      rw [if_neg (by omega), if_pos le_rfl]
      rfl
    · rw [valueFrom_of_le (Timestamp.le_iff.mpr (first_le h.tail hi))]
      exact ih h.tail hi

end

/-- Finite numbers within a bound, at rising timestamps whose distances fit into a word. -/
structure Recorded (bound : ℚ) (instants : List (Instant Float)) : Prop where
  rising : instants.Pairwise Instant.Precedes
  narrow : ∀ a ∈ instants, ∀ b ∈ instants, b.time.micros - a.time.micros < 2 ^ 63
  finite : ∀ i ∈ instants, (shape i.value).isFinite = true
  bounded : ∀ i ∈ instants, |value i.value| ≤ bound

/-- The exact value of the chord through two numbers. -/
def chord (a b : Instant Float) (t : Timestamp) : ℚ :=
  value a.value + (value b.value - value a.value) * t.fraction a.time b.time

/-- The number that is computed on the chord through two others. -/
def onChord (a b : Instant Float) (t : Timestamp) : Float :=
  lerp a.value b.value (t.quotient a.time b.time)

/-- What an instant that is left out may add to the drift: the tolerance and some roundings. -/
def allowance (bound : ℚ) : ℚ := 1 / 10 ^ 6 + (bound + 1) / 2 ^ 46

/-- A number that stands in for a recorded one, with so many instants after it before the next that
is kept. -/
structure StandsIn (bound : ℚ) (skipped : ℕ) (recorded found : Float) : Prop where
  finite : (shape found).isFinite = true
  near : |value found - value recorded| ≤ (skipped + 1) * allowance bound
  equal : skipped = 0 → nearlyEqual recorded found = true

section

variable {bound : ℚ} {n : ℕ} {a b c m : Instant Float} {t u : Timestamp}

lemma Recorded.sublist {xs ys : List (Instant Float)} (h : Recorded bound ys)
    (hsub : xs.Sublist ys) : Recorded bound xs where
  rising := h.rising.sublist hsub
  narrow a ha b hb := h.narrow a (hsub.subset ha) b (hsub.subset hb)
  finite i hi := h.finite i (hsub.subset hi)
  bounded i hi := h.bounded i (hsub.subset hi)

lemma Recorded.bound_nonneg {run : List (Instant Float)} (h : Recorded bound (a :: run)) :
    0 ≤ bound := (abs_nonneg _).trans (h.bounded a (by simp))

lemma Recorded.ratio_eq (h : Recorded bound [a, b]) (hat : a.time < t) (htb : t < b.time) :
    t.ratio a.time b.time = .ok (t.quotient a.time b.time) := by
  have hat : a.time.micros < t.micros := hat
  have htb : t.micros < b.time.micros := htb
  have hnarrow := h.narrow a (by simp) b (by simp)
  exact Timestamp.ratio_of_mem (Int.le_of_lt hat) (Int.le_of_lt htb) ⟨by omega, hnarrow⟩

lemma Recorded.between_eq (h : Recorded bound [a, b]) (hat : a.time < t) (htb : t < b.time) :
    between .linear a b t = .ok (onChord a b t) := by
  unfold between
  rw [h.ratio_eq hat htb]
  rfl

lemma Recorded.nearlyEqual_of_drops (h : Recorded bound [a, m, b])
    (hr : drops .linear a m b = true) : nearlyEqual m.value (onChord a b m.time) = true := by
  have hrising := h.rising
  have ham : a.Precedes m := List.rel_of_pairwise_cons hrising (by simp)
  have hmb : m.Precedes b := List.rel_of_pairwise_cons hrising.tail (by simp)
  have hkept : Recorded bound [a, b] := h.sublist (by simp)
  unfold drops redundant at hr
  dsimp only at hr
  rw [hkept.ratio_eq ham.time_lt hmb.time_lt] at hr
  exact hr

lemma allowance_nonneg (hbound : 0 ≤ bound) : 0 ≤ allowance bound := by
  unfold allowance
  positivity

lemma standsIn_self (hbound : 0 ≤ bound) (n : ℕ) {x : Float} (hx : (shape x).isFinite = true) :
    StandsIn bound n x x := by
  refine ⟨hx, ?_, fun _ => nearlyEqual_self hx⟩
  rw [sub_self, abs_zero]
  exact mul_nonneg (Nat.cast_add_one_pos n).le (allowance_nonneg hbound)

/-- Of two chords from one instant, the second one differs from the first by less before the end of
the first than it does there. -/
lemma chord_sub_chord (hab : a.time < b.time) (t : Timestamp) :
    chord a c t - chord a b t =
      t.fraction a.time b.time * (chord a c b.time - value b.value) := by
  unfold chord
  rw [← Timestamp.fraction_mul hab]
  ring

lemma abs_onChord_sub_chord_le (h : Recorded bound [a, b]) (hat : a.time < t) (htb : t < b.time)
    (hfinite : (shape (onChord a b t)).isFinite = true) :
    |value (onChord a b t) - chord a b t| ≤ (bound + 1) / 2 ^ 48 := by
  obtain ⟨hnonneg, hle, hratio⟩ :=
    Timestamp.quotient_near hat htb (h.narrow a (by simp) b (by simp))
  unfold onChord at hfinite ⊢
  rw [value_lerp hfinite (h.finite b (by simp))]
  exact abs_chord_sub_le (h.bounded a (by simp)) (h.bounded b (by simp)) hnonneg hle hratio

lemma isFinite_onChord_of_le (h : Recorded bound [a, b]) (hat : a.time < t) (htu : t ≤ u)
    (htb : t < b.time) (hub : u < b.time) (hfinite : (shape (onChord a b u)).isFinite = true) :
    (shape (onChord a b t)).isFinite = true := by
  have hnarrow := h.narrow a (by simp) b (by simp)
  exact isFinite_lerp_of_le hfinite (Timestamp.isFinite_quotient hat htb)
    (Timestamp.quotient_near hat htb hnarrow).1 (Timestamp.quotient_mono hat htu hub hnarrow)

lemma standsIn_of_nearlyEqual (hbound : 0 ≤ bound) {x y : Float} (hr : nearlyEqual x y = true)
    (n : ℕ) : StandsIn bound n x y := by
  obtain ⟨-, hfinite, hnear⟩ := abs_sub_le_of_nearlyEqual hr
  have hallowance : (1 : ℚ) / 10 ^ 6 + 2 / 2 ^ 53 ≤ allowance bound := by
    unfold allowance
    linarith only [hbound]
  have hmore : allowance bound ≤ (n + 1) * allowance bound :=
    le_mul_of_one_le_left (allowance_nonneg hbound) (le_add_of_nonneg_left (Nat.cast_nonneg n))
  refine ⟨hfinite, ?_, fun _ => hr⟩
  rw [abs_sub_comm]
  exact hnear.trans (hallowance.trans hmore)

/-- The exact chord that replaces two instants misses the first one by little more than the second:
the two chords differ by less at the first. -/
lemma abs_chord_sub_le_of_drops (h : Recorded bound [a, m, b])
    (hr : drops .linear a m b = true) (c : Instant Float) :
    |chord a c m.time - value m.value| ≤ 1 / 10 ^ 6 + 2 / 2 ^ 53 + (bound + 1) / 2 ^ 48 +
      |chord a c b.time - value b.value| := by
  have hrising := h.rising
  simp only [List.pairwise_cons, List.mem_cons, List.not_mem_nil, or_false, forall_eq_or_imp,
    forall_eq] at hrising
  obtain ⟨⟨ham, hab⟩, hmb, -⟩ := hrising
  obtain ⟨-, hlocal, hnear⟩ := abs_sub_le_of_nearlyEqual (h.nearlyEqual_of_drops hr)
  have hround := abs_onChord_sub_chord_le (h.sublist (by simp)) ham.time_lt hmb.time_lt hlocal
  have hscaled : |chord a c m.time - chord a b m.time| ≤ |chord a c b.time - value b.value| := by
    obtain ⟨hnonneg, hle⟩ := Timestamp.fraction_bounds ham.time_lt hmb.time_lt
    rw [chord_sub_chord hab.time_lt, abs_mul, abs_of_nonneg hnonneg]
    exact mul_le_of_le_one_left (abs_nonneg _) hle
  rw [abs_sub_comm] at hnear hround
  have hchords := abs_sub_le (chord a c m.time) (chord a b m.time) (value m.value)
  have hlooked := abs_sub_le (chord a b m.time) (value (onChord a b m.time)) (value m.value)
  linarith only [hchords, hlooked, hscaled, hround, hnear]

/-- An instant that is left out drifts with the next one, which is left out later. -/
lemma StandsIn.step (h : Recorded bound [a, m, b, c]) (hr : drops .linear a m b = true)
    (hb : StandsIn bound n b.value (onChord a c b.time)) :
    StandsIn bound (n + 1) m.value (onChord a c m.time) := by
  have hrising := h.rising
  simp only [List.pairwise_cons, List.mem_cons, List.not_mem_nil, or_false, forall_eq_or_imp,
    forall_eq] at hrising
  obtain ⟨⟨ham, hab, -⟩, ⟨hmb, hmc⟩, hbc, -⟩ := hrising
  have hkept : Recorded bound [a, c] := h.sublist (by simp)
  have hfinite := isFinite_onChord_of_le hkept ham.time_lt (Timestamp.le_iff.mpr hmb.1.le)
    hmc.time_lt hbc.time_lt hb.finite
  have hexact := abs_chord_sub_le_of_drops (h.sublist (by simp)) hr c
  have hroundm := abs_onChord_sub_chord_le hkept ham.time_lt hmc.time_lt hfinite
  have hroundb := abs_onChord_sub_chord_le hkept hab.time_lt hbc.time_lt hb.finite
  have hnext : |chord a c b.time - value b.value| ≤
      (bound + 1) / 2 ^ 48 + (n + 1) * allowance bound := by
    rw [abs_sub_comm] at hroundb
    exact (abs_sub_le _ _ _).trans (add_le_add hroundb hb.near)
  have hallowance : 1 / 10 ^ 6 + 2 / 2 ^ 53 + 3 * ((bound + 1) / 2 ^ 48) ≤ allowance bound := by
    have := h.bound_nonneg
    unfold allowance
    linarith only [this]
  refine ⟨hfinite, ?_, fun h => absurd h (Nat.succ_ne_zero n)⟩
  have hfound := abs_sub_le (value (onChord a c m.time)) (chord a c m.time) (value m.value)
  push_cast
  linarith only [hfound, hroundm, hexact, hnext, hallowance]

end

section

variable {bound : ℚ} {a m b i next : Instant Float}
  {rest run before skipped after : List (Instant Float)}

/-- The first instant of a run is left out, and the one after it is kept or stood in for. -/
lemma standsIn_first (h : Recorded bound (a :: m :: b :: rest))
    (hr : drops .linear a m b = true) (hrest : b :: rest = skipped ++ next :: after)
    (hnext : next ∈ kept .linear a (b :: rest))
    (hlater : ∀ skipped', skipped = b :: skipped' → Returns (StandsIn bound skipped'.length b.value)
      (valueFrom .linear b.time a (kept .linear a (b :: rest)))) :
    Returns (StandsIn bound skipped.length m.value)
      (valueFrom .linear m.time a (kept .linear a (b :: rest))) := by
  obtain ⟨c, more, hkept⟩ := List.exists_cons_of_ne_nil
    (kept_ne_nil .linear a (List.cons_ne_nil b rest))
  have hsub : (c :: more).Sublist (b :: rest) := hkept ▸ kept_sublist .linear a (b :: rest)
  have hc : c ∈ b :: rest := hsub.subset (by simp)
  have ham : a.Precedes m := List.rel_of_pairwise_cons h.rising (by simp)
  have hmc : m.Precedes c := List.rel_of_pairwise_cons h.rising.tail hc
  have hends : Recorded bound [a, c] :=
    h.sublist ((List.singleton_sublist.mpr (List.mem_cons_of_mem m hc)).cons_cons a)
  rw [hkept] at hnext hlater ⊢
  rw [valueFrom_of_lt ham.time_lt hmc.time_lt, hends.between_eq ham.time_lt hmc.time_lt]
  refine Returns.ok ?_
  -- if the first that is kept is the neighbour, its chord is the one that was looked at
  rcases List.mem_cons.mp hc with rfl | hc
  · exact standsIn_of_nearlyEqual h.bound_nonneg
      ((h.sublist (by simp)).nearlyEqual_of_drops hr) skipped.length
  have hab : a.Precedes b := List.rel_of_pairwise_cons h.rising (by simp)
  have hbc : b.Precedes c := List.rel_of_pairwise_cons h.rising.tail.tail hc
  cases skipped with
  | nil =>
    -- the next one cannot be kept: the first that is kept comes after it
    obtain ⟨rfl, -⟩ := List.cons.inj hrest
    exact absurd hbc.1 (first_le (h.rising.tail.tail.sublist hsub) hnext).not_gt
  | cons x skipped =>
    obtain ⟨rfl, -⟩ := List.cons.inj hrest
    have hb := hlater skipped rfl
    rw [valueFrom_of_lt hab.time_lt hbc.time_lt, hends.between_eq hab.time_lt hbc.time_lt] at hb
    exact (hb _ rfl).step (h.sublist (by simp [hc])) hr

/-- Whatever a run has left out is replaced by a number that stands in for it. -/
lemma standsIn_kept (h : Recorded bound (a :: run))
    (hrun : run = before ++ i :: (skipped ++ next :: after)) (hnext : next ∈ kept .linear a run) :
    Returns (StandsIn bound skipped.length i.value)
      (valueFrom .linear i.time a (kept .linear a run)) := by
  -- the last instant that was kept changes along the run, and what came before it no longer counts
  induction run generalizing a before i skipped with
  | nil => simp at hrun
  | cons m run ih =>
    cases run with
    | nil =>
      cases before with
      | nil => simp at hrun
      | cons x before => simp at hrun
    | cons b rest =>
      rw [kept] at hnext ⊢
      by_cases hr : drops .linear a m b = true
      · rw [if_pos hr] at hnext ⊢
        have hmore : Recorded bound (a :: b :: rest) := h.sublist (by simp)
        cases before with
        | nil =>
          obtain ⟨rfl, hrest⟩ := List.cons.inj hrun
          refine standsIn_first h hr hrest hnext fun skipped' hskipped => ?_
          rw [hskipped] at hrest
          exact ih hmore (show b :: rest = [] ++ b :: (skipped' ++ next :: after) from hrest) hnext
        | cons x before => exact ih hmore (List.cons.inj hrun).2 hnext
      · rw [if_neg hr] at hnext ⊢
        have hmore : Recorded bound (m :: b :: rest) := h.sublist (List.sublist_cons_self a _)
        cases before with
        | nil =>
          obtain ⟨rfl, -⟩ := List.cons.inj hrun
          have hkept : (a :: m :: kept .linear m (b :: rest)).Sublist (a :: m :: b :: rest) :=
            ((kept_sublist .linear m (b :: rest)).cons_cons m).cons_cons a
          rw [valueFrom_time (h.rising.sublist hkept) (by simp)]
          exact Returns.ok (standsIn_self h.bound_nonneg _ (h.finite m (by simp)))
        | cons x before =>
          obtain ⟨rfl, hrest⟩ := List.cons.inj hrun
          have hlater : ∀ j ∈ b :: rest, m.time.place < j.time.place := fun j hj =>
            (List.rel_of_pairwise_cons hmore.rising hj).1
          have hi := hlater i (by rw [hrest]; simp)
          have hn := hlater next (by rw [hrest]; simp)
          rw [valueFrom_of_le (Timestamp.le_iff.mpr hi.le)]
          refine ih hmore hrest ((List.mem_cons.mp hnext).resolve_left ?_)
          rintro rfl
          exact lt_irrefl _ hn

lemma standsIn_valueFrom (h : Recorded bound (a :: run))
    (hsplit : a :: run = before ++ i :: (skipped ++ next :: after))
    (hnext : next ∈ a :: kept .linear a run) :
    Returns (StandsIn bound skipped.length i.value)
      (valueFrom .linear i.time a (kept .linear a run)) := by
  cases before with
  | nil =>
    obtain ⟨rfl, -⟩ := List.cons.inj hsplit
    have hkept := (kept_sublist .linear a run).cons_cons a
    rw [valueFrom_time (h.rising.sublist hkept) (by simp)]
    exact Returns.ok (standsIn_self h.bound_nonneg _ (h.finite a (by simp)))
  | cons x before =>
    obtain ⟨rfl, hrun⟩ := List.cons.inj hsplit
    refine standsIn_kept h hrun ((List.mem_cons.mp hnext).resolve_left ?_)
    rintro rfl
    have hlater : next ∈ run := by rw [hrun]; simp
    exact lt_irrefl _ (List.rel_of_pairwise_cons h.rising hlater).1

end

section

variable {bound : ℚ} {instants before rest : List (Instant Float)} {i : Instant Float}
  {lowerInc upperInc : Bool} {s : Sequence Float}

lemma last_of_split {V : Type} {first i : Instant V} {run before : List (Instant V)}
    (hsplit : first :: run = before ++ [i]) : run.getLastD first = i := by
  cases before with
  | nil =>
    obtain ⟨rfl, rfl⟩ := List.cons.inj hsplit
    rfl
  | cons x before =>
    obtain ⟨-, rfl⟩ := List.cons.inj hsplit
    exact List.getLastD_concat

/-- A sequence has a value at every timestamp that it was made from, except at ends that are left
out. -/
lemma lookup_eq_none_iff_of_makeRun {V : Type} [TemporalValue V] [LawfulValue V]
    {first i : Instant V} {run before rest : List (Instant V)} {interp : Interpolation}
    {normalizing : Bool} {s : Sequence V}
    (hmake : makeRun first run lowerInc upperInc interp normalizing = .ok s)
    (hd : interp ≠ .discrete) (hsplit : first :: run = before ++ i :: rest) :
    s.lookup i.time = .ok none ↔
      before = [] ∧ lowerInc = false ∨ rest = [] ∧ upperInc = false := by
  have hbuilt := builtFrom_of_makeRun hmake
  have hrising := (makeRun_eq_ok_iff.mp hmake).1.rising
  have hcontinuous : s.isDiscrete = false := isDiscrete_eq_false_iff.mpr (hbuilt.interp_eq ▸ hd)
  have hmem : i ∈ first :: run := by rw [hsplit]; simp
  have hlower := first_le hrising hmem
  have hupper := place_le_last hrising i hmem
  have hbefore : before = [] ↔ i.time.place ≤ first.time.place := by
    cases before with
    | nil =>
      obtain ⟨rfl, -⟩ := List.cons.inj hsplit
      exact iff_of_true rfl le_rfl
    | cons x before =>
      obtain ⟨rfl, hrun⟩ := List.cons.inj hsplit
      have hlater : i ∈ run := by rw [hrun]; simp
      exact iff_of_false (List.cons_ne_nil _ _) (List.rel_of_pairwise_cons hrising hlater).1.not_ge
  have hrest : rest = [] ↔ (run.getLastD first).time.place ≤ i.time.place := by
    cases rest with
    | nil => rw [last_of_split hsplit]; simp
    | cons y rest =>
      have hlater : i.Precedes y := by
        rw [hsplit] at hrising
        exact List.rel_of_pairwise_cons (List.pairwise_append.mp hrising).2.1 (by simp)
      have hlast := place_le_last hrising y (by rw [hsplit]; simp)
      exact iff_of_false (List.cons_ne_nil _ _) (by have := hlater.1; omega)
  rw [lookup_eq_none_iff, covers_of_continuous hcontinuous, hbuilt.lo_eq, hbuilt.hi_eq,
    hbefore, hrest]
  generalize (run.getLastD first).time.place = last at hupper ⊢
  cases lowerInc <;> cases upperInc <;> simp <;> omega

/-- What is made of instants that are not too far apart is short. -/
lemma shortRun_of_narrow {first : Instant Float} {run : List (Instant Float)}
    (hmake : make (first :: run) lowerInc upperInc .linear true = .ok s)
    (hnarrow : ∀ i ∈ first :: run, ∀ j ∈ first :: run, j.time.micros - i.time.micros < 2 ^ 63) :
    ShortRun s.interp s.first s.rest := by
  intro _
  have hbuilt := builtFrom_of_makeRun hmake
  have hlast : s.rest.getLastD s.first = run.getLastD first := hbuilt.last_eq
  rw [hlast, hbuilt.first_eq]
  exact hnarrow first (by simp) _ List.getLastD_mem_cons

/-- The numbers of a normalized sequence at the timestamps that it was made from. Instants that are
kept have their own; any other drifts by at most one allowance for itself and one for each instant
up to the next that is kept, and not at all beyond the tolerance if that is its neighbour. -/
theorem normalized_drift_spec (hmake : make instants lowerInc upperInc .linear true = .ok s)
    (hfinite : ∀ i ∈ instants, isFinite i.value = true)
    (hbound : ∀ i ∈ instants, |value i.value| ≤ bound)
    (hnarrow : ∀ i ∈ instants, ∀ j ∈ instants, j.time.micros - i.time.micros < 2 ^ 63)
    (hsplit : instants = before ++ i :: rest) :
    ∃ found, s.lookup i.time = .ok found ∧
      (found = none ↔ before = [] ∧ lowerInc = false ∨ rest = [] ∧ upperInc = false) ∧
      (before = [] ∨ rest = [] → i ∈ s.instants) ∧
      ∀ x ∈ found,
        (i ∈ s.instants → x = i.value) ∧
        ∀ skipped next after, rest = skipped ++ next :: after → next ∈ s.instants →
          isFinite x = true ∧
            |value x - value i.value| ≤ (skipped.length + 1) * allowance bound ∧
            (skipped = [] → nearlyEqual i.value x = true) := by
  cases instants with
  | nil => simp at hsplit
  | cons first run =>
    obtain ⟨hchecked, -, hs⟩ := makeRun_eq_ok_iff.mp hmake
    have hrecorded : Recorded bound (first :: run) :=
      ⟨hchecked.rising, hnarrow, fun j hj => isFinite_shape (hfinite j hj), hbound⟩
    have hwf : s.WellFormed := wellFormed_of_make hmake
    have hbuilt := builtFrom_of_makeRun hmake
    obtain ⟨found, hfound⟩ := (unrefused_lookup s i.time).exists_ok
      (completes_lookup hwf.rising (shortRun_of_narrow hmake hnarrow) i.time)
    have hnone := lookup_eq_none_iff_of_makeRun hmake nofun hsplit
    rw [hfound, Except.ok.injEq] at hnone
    refine ⟨found, hfound, hnone, ?_, fun x hx => ?_⟩
    · rintro (rfl | rfl)
      · obtain ⟨rfl, -⟩ := List.cons.inj hsplit
        rw [← hs]
        exact List.mem_cons_self
      · have hlast : s.last = i := hbuilt.last_eq.trans (last_of_split hsplit)
        rw [← hlast]
        exact s.last_mem
    · obtain rfl := Option.mem_def.mp hx
      have hvalue : valueFrom .linear i.time first (kept .linear first run) = .ok x := by
        rw [← hs] at hfound
        exact valueNear_of_lookup rfl hfound
      refine ⟨fun hi => ?_, fun skipped next after hrest hnext => ?_⟩
      · rw [← hs] at hwf hi
        exact Except.ok.inj (hvalue.symm.trans (valueFrom_time hwf.rising hi))
      · rw [hrest] at hsplit
        rw [← hs] at hnext
        obtain ⟨hshape, hnear, hequal⟩ := standsIn_valueFrom hrecorded hsplit hnext x hvalue
        refine ⟨isFinite_of_shape hshape, hnear, fun hskipped => hequal ?_⟩
        rw [hskipped, List.length_nil]

end

/-- Six numbers in an arch that is two millionths high. -/
def arch : List (Instant Float) :=
  [⟨0, .nearest 0⟩, ⟨0.00000198, .nearest 1⟩, ⟨0.00000206, .nearest 2⟩, ⟨0.00000164, .nearest 3⟩,
    ⟨0.00000092, .nearest 4⟩, ⟨0, .nearest 5⟩]

lemma make_arch : make arch true true .linear true =
    .ok (ofRun ⟨0, .nearest 0⟩ [⟨0, .nearest 5⟩] true true .linear) := by
  have hcheck : check (V := Float) ⟨0, .nearest 0⟩ arch.tail true true .linear = .ok () := rfl
  have hchecked := check_eq_ok_iff.mp hcheck
  have hkept : kept (V := Float) .linear ⟨0, .nearest 0⟩ arch.tail = [⟨0, .nearest 5⟩] := by
    unfold arch
    rw [List.tail_cons, kept, if_pos (by decide +kernel), kept, if_pos (by decide +kernel), kept,
      if_pos (by decide +kernel), kept, if_pos (by decide +kernel), kept]
  refine makeRun_eq_ok_iff.mpr
    ⟨hchecked, fun _ => completes_normalize hchecked.rising fun _ => by decide, ?_⟩
  rw [if_pos rfl]
  exact congrArg (fun run => ofRun _ run true true .linear) hkept

lemma value_top : value 0.00000206 = 4864037477355735 / 2 ^ 71 := by
  have hshape : ∃ hpos, shape 0.00000206 = .finite .positive 4864037477355735 (-71) hpos :=
    ⟨by decide, rfl⟩
  obtain ⟨hpos, h⟩ := hshape
  unfold value
  rw [h]
  change 1 * (((4864037477355735 : ℕ) : ℚ) * 2 ^ (-71 : ℤ)) = _
  norm_num

/-- The top of the arch is lost, though it is more than two tolerances high. -/
theorem arch_flattened :
    (∀ i ∈ arch, isFinite i.value = true) ∧
      ∃ s, make arch true true .linear true = .ok s ∧
        ∃ i ∈ arch, ∃ x, s.lookup i.time = .ok (some x) ∧
          2 * value tolerance < |value x - value i.value| := by
  have hzero : value 0 = 0 := value_of_zero (s := .positive) rfl
  have htolerance := value_tolerance_le
  refine ⟨by decide, _, make_arch, ⟨0.00000206, .nearest 2⟩, by unfold arch; simp, 0, rfl, ?_⟩
  change _ < |value 0 - value 0.00000206|
  rw [hzero, value_top, zero_sub, abs_neg, abs_of_nonneg (by norm_num)]
  linarith only [htolerance]

lemma arch_bounded : ∀ i ∈ arch, |value i.value| ≤ 1 := by
  have hfinite : ∀ i ∈ arch, isFinite i.value = true := by decide
  have hle : ∀ i ∈ arch, i.value.abs ≤ 1 := by decide +kernel
  have hone : (shape 1).isFinite = true := rfl
  have hvalue : value 1 = 1 := value_ofInt_small (n := 1) (by decide)
  intro i hi
  have hi' := isFinite_shape (hfinite i hi)
  rw [← value_abs hi', ← hvalue]
  exact value_le_of_le (isFinite_abs hi') hone (hle i hi)

/-- What is found in place of the top drifts by no more than its two neighbours allow. -/
theorem arch_top_drift :
    make arch true true .linear true =
        .ok (ofRun ⟨0, .nearest 0⟩ [⟨0, .nearest 5⟩] true true .linear) ∧
      (∀ i ∈ arch, isFinite i.value = true) ∧ (∀ i ∈ arch, |value i.value| ≤ 1) ∧
      (∀ i ∈ arch, ∀ j ∈ arch, j.time.micros - i.time.micros < 2 ^ 63) ∧
      |value 0 - value 0.00000206| ≤ 3 * allowance 1 := by
  have hfinite : ∀ i ∈ arch, isFinite i.value = true := by decide
  have hnarrow : ∀ i ∈ arch, ∀ j ∈ arch, j.time.micros - i.time.micros < 2 ^ 63 := by
    decide +kernel
  have hsplit : arch = [⟨0, .nearest 0⟩, ⟨0.00000198, .nearest 1⟩] ++ ⟨0.00000206, .nearest 2⟩ ::
      [⟨0.00000164, .nearest 3⟩, ⟨0.00000092, .nearest 4⟩, ⟨0, .nearest 5⟩] := rfl
  obtain ⟨found, hfound, -, -, hnear⟩ :=
    normalized_drift_spec make_arch hfinite arch_bounded hnarrow hsplit
  obtain rfl : found = some 0 := Except.ok.inj (hfound.symm.trans rfl)
  have hdrift := ((hnear 0 rfl).2 [⟨0.00000164, .nearest 3⟩, ⟨0.00000092, .nearest 4⟩]
    ⟨0, .nearest 5⟩ [] rfl (by simp [ofRun, instants])).2.1
  refine ⟨make_arch, hfinite, arch_bounded, hnarrow, hdrift.trans_eq ?_⟩
  norm_num

end Sequence

end TemporalAlgebra
