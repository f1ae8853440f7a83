import TemporalAlgebra.Proofs.Number.Exact
import TemporalAlgebra.Proofs.Number.Integers

/-!
# Numbers on a grid

Every finite number is a multiple of the smallest positive one. On that grid rounding is exact where
the units are smallest, so the error is small next to the number that is rounded, however small that
is. Integers of fewer than 54 bits are not rounded at all.
-/
namespace TemporalAlgebra.Binary64

open Float.Model (UnpackedFloat)
open Float.Model.UnpackedFloat

/-- A multiple of the smallest positive number. -/
def OnGrid (q : ℚ) : Prop := ∃ n : ℤ, q = n * 2 ^ (-1074 : ℤ)

section

variable {p q : ℚ}

lemma OnGrid.add (hp : OnGrid p) (hq : OnGrid q) : OnGrid (p + q) := by
  obtain ⟨m, rfl⟩ := hp
  obtain ⟨n, rfl⟩ := hq
  exact ⟨m + n, by rw [Int.cast_add, add_mul]⟩

lemma OnGrid.intCast_mul (k : ℤ) (hq : OnGrid q) : OnGrid (k * q) := by
  obtain ⟨n, rfl⟩ := hq
  exact ⟨k * n, by rw [Int.cast_mul, mul_assoc]⟩

lemma OnGrid.neg (hq : OnGrid q) : OnGrid (-q) := by
  obtain ⟨n, rfl⟩ := hq
  exact ⟨-n, by rw [Int.cast_neg, neg_mul]⟩

lemma onGrid_zpow (n : ℤ) {e : ℤ} (he : -1074 ≤ e) : OnGrid (n * 2 ^ e) := by
  obtain ⟨k, rfl⟩ : ∃ k : ℕ, e = k + -1074 := ⟨(e + 1074).toNat, by omega⟩
  refine ⟨n * 2 ^ k, ?_⟩
  rw [two_zpow_add, zpow_natCast, ← mul_assoc, Int.cast_mul, Int.cast_pow, Int.cast_ofNat]

lemma onGrid_value {x : Float} (hx : (shape x).isFinite = true) : OnGrid (value x) := by
  rcases finite_cases hx with ⟨s, hx₀⟩ | ⟨s, m, e, hm, hx₀, hcx, hvx⟩
  · exact ⟨0, by rw [value_of_zero hx₀, Int.cast_zero, zero_mul]⟩
  · rw [hvx, ← mul_assoc, ← apply_reading]
    exact onGrid_zpow _ hcx.le

lemma OnGrid.abs_nearestAbove_sub_le (h : OnGrid q) (hq : 0 < q) :
    |nearestAbove q - q| ≤ 2 ^ (-53 : ℤ) * q := by
  have hexponent : -1074 ≤ unitExponent q := le_max_right _ _
  rcases hexponent.eq_or_lt with hsmallest | hlarger
  · -- what is rounded is a multiple of the unit
    obtain ⟨n, hn⟩ := h
    have hunit : unit q = 2 ^ (-1074 : ℤ) := by rw [unit, ← hsmallest]
    have hself : nearestAbove q = q := by
      unfold nearestAbove
      rw [hunit, hn, mul_div_cancel_right₀ _ (zpow_pos two_pos _).ne', halfEven_intCast]
    rw [hself, sub_self, abs_zero]
    exact mul_nonneg (zpow_nonneg two_pos.le _) hq.le
  · have hbits := le_of_unitExponent hq hlarger
    calc |nearestAbove q - q| ≤ unit q / 2 := Binary64.abs_nearestAbove_sub_le q
      _ = 2 ^ (-53 : ℤ) * (2 ^ (52 : ℤ) * unit q) := by norm_num; ring
      _ ≤ 2 ^ (-53 : ℤ) * q := mul_le_mul_of_nonneg_left hbits (zpow_nonneg two_pos.le _)

lemma OnGrid.abs_nearest_sub_le (h : OnGrid q) : |nearest q - q| ≤ 2 ^ (-53 : ℤ) * |q| := by
  rcases lt_trichotomy q 0 with hq | rfl | hq
  · have herror := h.neg.abs_nearestAbove_sub_le (neg_pos.mpr hq)
    rwa [← nearest_of_nonneg (neg_pos.mpr hq).le, nearest_neg, neg_sub_neg, abs_sub_comm,
      ← abs_of_neg hq] at herror
  · simp [nearest_zero]
  · rw [nearest_of_nonneg hq.le, abs_of_pos hq]
    exact h.abs_nearestAbove_sub_le hq

lemma nearest_eq_self {n e : ℤ} (hn : n.natAbs < 2 ^ 53) (he : -1074 ≤ e) :
    nearest (n * 2 ^ e) = n * 2 ^ e := by
  have hnatural : ∀ m : ℕ, m < 2 ^ 53 → nearest (m * 2 ^ e) = m * 2 ^ e := by
    intro m hm
    rw [nearest_of_nonneg (mul_nonneg (Nat.cast_nonneg m) (zpow_nonneg two_pos.le e)),
      nearestAbove_eq_self hm he]
  obtain ⟨m, rfl | rfl⟩ : ∃ m : ℕ, n = m ∨ n = -m := ⟨n.natAbs, by omega⟩
  · exact_mod_cast hnatural m (by omega)
  · rw [Int.cast_neg, neg_mul, nearest_neg, Int.cast_natCast, hnatural m (by omega)]

lemma nearest_intCast {n : ℤ} (hn : n.natAbs < 2 ^ 53) : nearest n = n := by
  have h := nearest_eq_self hn (e := 0) (by decide)
  rwa [zpow_zero, mul_one] at h

lemma nearest_two_pow_mul {x : Float} (hx : (shape x).isFinite = true) (k : ℕ) :
    nearest (2 ^ k * value x) = 2 ^ k * value x := by
  rcases finite_cases hx with ⟨s, hx₀⟩ | ⟨s, m, e, hm, hx₀, hcx, hvx⟩
  · rw [value_of_zero hx₀, mul_zero, nearest_zero]
  · have hvalue : 2 ^ k * value x = (s.apply m : ℤ) * 2 ^ (k + e) := by
      rw [hvx, apply_reading, two_zpow_add, zpow_natCast]
      ring
    have hbits : (s.apply m).natAbs < 2 ^ 53 := by
      rw [natAbs_apply]
      exact hcx.lt
    rw [hvalue]
    exact nearest_eq_self hbits (by have := hcx.le; omega)

end

section

variable {x : Float} {n : ℤ}

/-- A number that is a given integer. -/
structure Whole (x : Float) (n : ℤ) : Prop where
  isFinite : (shape x).isFinite = true
  value_eq : value x = n

lemma whole_ofInt (hn : n.natAbs < 2 ^ 53) : Whole (ofInt n) n := by
  refine ⟨isFinite_shape (isFinite_ofInt (by omega) (by omega)), ?_⟩
  obtain ⟨m, rfl | rfl⟩ : ∃ m : ℕ, n = m ∨ n = -m := ⟨n.natAbs, by omega⟩
  · exact_mod_cast value_ofInt_small (by omega)
  · rcases Nat.eq_zero_or_pos m with rfl | hpos
    · simpa using value_ofInt_small (n := 0) (by decide)
    · rw [ofInt_negative hpos.ne', (neg_spec (isFinite_shape
        (isFinite_ofInt (by omega) (by omega)))).2.2, value_ofInt_small (by omega)]
      push_cast
      rfl

lemma Rounds.whole (h : Rounds (shape x) n) (hn : n.natAbs < 2 ^ 53) : Whole x n := by
  have hnearest := nearest_intCast hn
  have hfinite : (shape x).isFinite = true := by
    refine h.isFinite ?_
    rw [hnearest, ← (whole_ofInt hn).value_eq]
    exact abs_value_lt _
  exact ⟨hfinite, (h.value_eq hfinite).trans hnearest⟩

lemma Whole.add_one (h : Whole x n) (hn : (n + 1).natAbs < 2 ^ 53) : Whole (x + 1.0) (n + 1) := by
  refine Rounds.whole ?_ hn
  have hsum := rounds_add h.isFinite (y := 1.0) rfl
  rw [h.value_eq, value_one] at hsum
  exact_mod_cast hsum

lemma floor_of_infinite {s : Sign} (hx : shape x = .infinity s) : floor x = x := by
  unfold floor floor?
  cases hparts : parts x with
  | finite negative m e =>
    have hfinite := isFinite_shape (x := x) (by rw [isFinite, hparts])
    rw [hx] at hfinite
    cases hfinite
  | _ => rfl

lemma whole_floor (hx : (shape x).isFinite = true) (hbits : ⌊value x⌋.natAbs < 2 ^ 53) :
    Whole (floor x) ⌊value x⌋ := by
  unfold floor integral
  rw [floor?_eq (isFinite_of_shape hx)]
  split
  · rename_i h
    cases h
  · rename_i h
    rw [Option.some.inj h]
    split
    · exact ⟨rfl, value_zero⟩
    · exact ⟨rfl, value_of_zero (s := .negative) rfl⟩
  · rename_i n _ h
    rw [← Option.some.inj h]
    exact whole_ofInt hbits

end

end TemporalAlgebra.Binary64
