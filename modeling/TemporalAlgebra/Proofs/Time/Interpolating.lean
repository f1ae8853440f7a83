import TemporalAlgebra.Proofs.Number.Conversion
import TemporalAlgebra.Proofs.Number.Fraction
import TemporalAlgebra.Proofs.Number.Integers
import TemporalAlgebra.Proofs.Time.Shifting

/-!
# Timestamps on the way from one to another

The way is made a number, of which a fraction is taken and brought back to whole microseconds. A way
of more than 53 bits is rounded first, up or down. So the timestamp at the end of the way is as far
from the start as the rounded way is long, and none lies farther. Where that leads out of the 64 bits
of a timestamp, it is given up.
-/
namespace TemporalAlgebra

namespace Binary64

open Float.Model (UnpackedFloat)
open Float.Model.UnpackedFloat

lemma OnWay.isFinite {r : Float} (h : OnWay r) : (shape r).isFinite = true := by
  have hlow : UnpackedFloat.le (shape 0.0) (shape r) = true := of_decide_eq_true h.nonneg
  have hhigh : UnpackedFloat.le (shape r) (shape 1.0) = true := of_decide_eq_true h.le_one
  cases hr : shape r with
  | zero s => rfl
  | finite s m e hpos => rfl
  | notANumber =>
    rw [hr] at hlow
    cases hlow
  | infinity s =>
    rw [hr] at hlow hhigh
    cases s with
    | negative => cases hlow
    | positive => cases hhigh

lemma OnWay.value_nonneg {r : Float} (h : OnWay r) : 0 ≤ value r :=
  value_zero ▸ value_le_of_le rfl h.isFinite h.nonneg

lemma OnWay.value_le_one {r : Float} (h : OnWay r) : value r ≤ 1 :=
  value_one ▸ value_le_of_le h.isFinite rfl h.le_one

section

variable {n : ℕ} {r s : Float}

/-- A fraction of a number of microseconds, in whole microseconds. -/
def part (n : ℕ) (r : Float) : ℤ := (toSigned (ofInt n * r) : Bigint).val

lemma part_one (hn : n < 2 ^ 63) : part n 1.0 = carried n := toSigned_ofInt (by omega)

lemma part_eq (hn : n < 2 ^ 63) (hr : OnWay r) : part n r =
    Max.max (-2 ^ 63) (Min.min (halfAway (nearest (nearest n * value r))) (2 ^ 63 - 1)) := by
  have hway : (shape (ofInt n)).isFinite = true :=
    isFinite_shape (isFinite_ofInt (by omega) (by omega))
  have hvalue : value (ofInt n) = nearest n := value_ofInt (by omega)
  have hrounds := rounds_mul hway hr.isFinite
  have hfinite : (shape (ofInt n * r)).isFinite = true := by
    refine hrounds.isFinite_of_le hway ?_
    rw [abs_mul, abs_of_nonneg hr.value_nonneg]
    exact mul_le_of_le_one_right (abs_nonneg _) hr.value_le_one
  unfold part
  rw [val_toSigned (isFinite_of_shape hfinite), hrounds.value_eq hfinite, hvalue]

lemma part_mono (hn : n < 2 ^ 63) (hr : OnWay r) (hs : OnWay s) (hrs : r ≤ s) :
    part n r ≤ part n s := by
  rw [part_eq hn hr, part_eq hn hs]
  refine max_le_max le_rfl (min_le_min (halfAway_mono (nearest_mono ?_)) le_rfl)
  exact mul_le_mul_of_nonneg_left (value_le_of_le hr.isFinite hs.isFinite hrs)
    (nearest_nonneg (Nat.cast_nonneg n))

lemma part_zero (hn : n < 2 ^ 63) : part n 0.0 = 0 := by
  rw [part_eq hn onWay_zero, value_zero, mul_zero, nearest_zero]
  decide +kernel

lemma part_bounds (hn : n < 2 ^ 63) (hr : OnWay r) : 0 ≤ part n r ∧ part n r ≤ carried n := by
  rw [← part_zero hn, ← part_one hn]
  refine ⟨part_mono hn onWay_zero hr hr.nonneg, part_mono hn hr onWay_one hr.le_one⟩

lemma part_of_nan (hr : shape r = .notANumber) : part n r = 0 := by
  unfold part toSigned
  rw [parts_eq_nan (nan_mul_right hr (ofInt n))]
  rfl

/-- A NaN leads nowhere, any other fraction along the rounded way. -/
lemma Fraction.part_bounds (hn : n < 2 ^ 63) (hr : Fraction r) :
    0 ≤ part n r ∧ part n r ≤ carried n := by
  by_cases hnan : shape r = .notANumber
  · rw [part_of_nan hnan]
    exact ⟨le_rfl, Int.natCast_nonneg _⟩
  · exact Binary64.part_bounds hn (hr.onWay hnan)

lemma carries_of_le (hn : n ≤ 2 ^ 53) : Carries n := by
  rcases hn.lt_or_eq with hlt | rfl
  · have hlog : n.log2 ≤ 52 := by
      rcases Nat.eq_zero_or_pos n with rfl | hpos
      · decide
      · exact Nat.lt_succ_iff.mp ((Nat.log2_lt hpos.ne').mpr hlt)
    rw [Carries, Nat.sub_eq_zero_of_le hlog]
    exact Or.inl (one_dvd n)
  · decide

lemma carried_le (hn : n < 2 ^ 63) : carried n ≤ n + 2 ^ 10 := by
  have hrounded : rounded n < n + 2 ^ (n.log2 - 52) :=
    (roundDiv_bounds n (Nat.two_pow_pos _)).1
  have hlog : n.log2 ≤ 62 := by
    rcases Nat.eq_zero_or_pos n with rfl | hpos
    · decide
    · exact Nat.lt_succ_iff.mp ((Nat.log2_lt hpos.ne').mpr hn)
  have hunit : 2 ^ (n.log2 - 52) ≤ 2 ^ 10 := Nat.pow_le_pow_right two_pos (by omega)
  unfold carried
  omega

end

end Binary64

namespace Timestamp

open Binary64

def gap (a b : Timestamp) : ℕ := (b.micros - a.micros).toNat

variable {a b : Timestamp}

lemma le_iff_micros : a ≤ b ↔ a.micros ≤ b.micros := Iff.rfl

lemma eq_iff_micros : a = b ↔ a.micros = b.micros :=
  ⟨congrArg micros, fun h => by rw [← nearest_micros a, h, nearest_micros]⟩

section

variable (hle : a ≤ b) (hgap : b.micros - a.micros < 2 ^ 63)

include hle hgap

lemma gap_lt : a.gap b < 2 ^ 63 := by
  rw [le_iff_micros] at hle
  unfold gap
  omega

lemma micros_add_gap : a.micros + a.gap b = b.micros := by
  rw [le_iff_micros] at hle
  unfold gap
  omega

lemma lerp_eq_ok_iff {r : Float} {t : Timestamp} :
    a.lerp b r = .ok t ↔ t.micros = a.micros + part (a.gap b) r := by
  have hsum := micros_add_gap hle hgap
  have hlt := gap_lt hle hgap
  have hdiff : b.micros - a.micros = a.gap b := by omega
  have hway : a.distanceTo b = .ok (ofInt (a.gap b)) := by
    rw [← hdiff]
    exact distanceTo_of_fits (by unfold Fits; omega)
  unfold lerp
  rw [bind_of_ok hway]
  exact orAbort_ofMicros_eq_ok

/-- A fraction of the way is told where it leads to a timestamp. -/
lemma lerp_eq_aborted_iff {r : Float} (hr : Fraction r) :
    a.lerp b r = .error .aborted ↔ 2 ^ 63 ≤ a.micros + part (a.gap b) r := by
  have hsum := micros_add_gap hle hgap
  have hlt := gap_lt hle hgap
  have hdiff : b.micros - a.micros = a.gap b := by omega
  have hway : a.distanceTo b = .ok (ofInt (a.gap b)) := by
    rw [← hdiff]
    exact distanceTo_of_fits (by unfold Fits; omega)
  have hbounds := hr.part_bounds hlt
  have hlow : -2 ^ 63 ≤ a.micros := a.ticks.lower
  unfold lerp
  rw [bind_of_ok hway]
  refine orAbort_ofMicros_eq_aborted.trans ?_
  change ¬Fits (a.micros + part (a.gap b) r) ↔ _
  unfold Fits
  omega

lemma exists_lerp {r : Float} (hr : Fraction r) (h : a.micros + part (a.gap b) r < 2 ^ 63) :
    ∃ t, a.lerp b r = .ok t ∧ t.micros = a.micros + part (a.gap b) r := by
  have hbounds := hr.part_bounds (gap_lt hle hgap)
  have hlow : -2 ^ 63 ≤ a.micros := a.ticks.lower
  have hmicros := micros_nearest h
  rw [max_eq_right (by omega)] at hmicros
  exact ⟨_, (lerp_eq_ok_iff hle hgap).mpr hmicros, hmicros⟩

lemma lerp_zero : a.lerp b 0.0 = .ok a := by
  rw [lerp_eq_ok_iff hle hgap, part_zero (gap_lt hle hgap), add_zero]

lemma lerp_one_eq_iff : a.lerp b 1.0 = .ok b ↔ Carries (a.gap b) := by
  have hsum := micros_add_gap hle hgap
  have hlt := gap_lt hle hgap
  rw [lerp_eq_ok_iff hle hgap, part_one hlt, ← carried_eq_iff hlt]
  omega

/-- The end is reached where the way is not rounded down and the timestamps do not end before. -/
lemma le_lerp_one_iff : (∃ t, a.lerp b 1.0 = .ok t ∧ b ≤ t) ↔
    a.gap b ≤ carried (a.gap b) ∧ a.micros + carried (a.gap b) < 2 ^ 63 := by
  have hsum := micros_add_gap hle hgap
  have hlt := gap_lt hle hgap
  have hone := part_one hlt
  constructor
  · rintro ⟨t, ht, hbt⟩
    rw [lerp_eq_ok_iff hle hgap, hone] at ht
    rw [le_iff_micros] at hbt
    have hhigh : t.micros < 2 ^ 63 := t.ticks.upper
    omega
  · rintro ⟨hlong, hfits⟩
    obtain ⟨t, ht, hmicros⟩ := exists_lerp hle hgap fraction_one (by omega)
    refine ⟨t, ht, ?_⟩
    rw [le_iff_micros]
    omega

lemma le_lerp_one_of_gap_le (h : a.gap b ≤ 2 ^ 53) : ∃ t, a.lerp b 1.0 = .ok t ∧ b ≤ t :=
  ⟨b, (lerp_one_eq_iff hle hgap).mpr (carries_of_le h), le_iff_micros.mpr le_rfl⟩

lemma micros_lerp_le {r : Float} (hr : Fraction r) {t : Timestamp} (ht : a.lerp b r = .ok t) :
    a.micros ≤ t.micros ∧ t.micros ≤ b.micros + 2 ^ 10 := by
  have hsum := micros_add_gap hle hgap
  have hlt := gap_lt hle hgap
  have hbounds := hr.part_bounds hlt
  have hcarried := carried_le hlt
  rw [lerp_eq_ok_iff hle hgap] at ht
  omega

/-- The timestamps stay on the way where the way is not rounded up. -/
lemma lerp_between_iff : (∀ r, OnWay r → ∃ t, a.lerp b r = .ok t ∧ a ≤ t ∧ t ≤ b) ↔
    carried (a.gap b) ≤ a.gap b := by
  have hsum := micros_add_gap hle hgap
  have hlt := gap_lt hle hgap
  have hhigh : b.micros < 2 ^ 63 := b.ticks.upper
  constructor
  · intro h
    obtain ⟨t, ht, -, htb⟩ := h 1.0 onWay_one
    rw [lerp_eq_ok_iff hle hgap, part_one hlt] at ht
    rw [le_iff_micros] at htb
    omega
  · intro h r hr
    have hbounds := part_bounds hlt hr
    obtain ⟨t, ht, hmicros⟩ := exists_lerp hle hgap hr.fraction (by omega)
    refine ⟨t, ht, ?_, ?_⟩ <;> rw [le_iff_micros] <;> omega

/-- The timestamps that are told rise with the fraction. -/
lemma lerp_mono {r s : Float} (hr : OnWay r) (hs : OnWay s) (hrs : r ≤ s) {t u : Timestamp}
    (ht : a.lerp b r = .ok t) (hu : a.lerp b s = .ok u) : t ≤ u := by
  have hmono := part_mono (gap_lt hle hgap) hr hs hrs
  rw [lerp_eq_ok_iff hle hgap] at ht hu
  rw [le_iff_micros]
  omega

/-- Every fraction of the way is told where the rounded way ends at a timestamp. -/
lemma exists_lerp_iff : (∀ r, OnWay r → ∃ t, a.lerp b r = .ok t) ↔
    a.micros + carried (a.gap b) < 2 ^ 63 := by
  have hlt := gap_lt hle hgap
  constructor
  · intro h
    obtain ⟨t, ht⟩ := h 1.0 onWay_one
    rw [lerp_eq_ok_iff hle hgap, part_one hlt] at ht
    have hhigh : t.micros < 2 ^ 63 := t.ticks.upper
    omega
  · intro h r hr
    have hbound := (part_bounds hlt hr).2
    obtain ⟨t, ht, -⟩ := exists_lerp hle hgap hr.fraction (by omega)
    exact ⟨t, ht⟩

end

end Timestamp

end TemporalAlgebra
