import Mathlib.Data.Int.Log
import Mathlib.Data.Rat.Floor
import Mathlib.Tactic.Linarith
import Mathlib.Tactic.Positivity
import TemporalAlgebra.Proofs.Number.Rounding

/-!
# Rationals rounded to numbers

A rational is rounded to the nearest multiple of a power of two, ties to even. The power is chosen
so that 53 bits are left, or it is the smallest one that there is. Rounding does not change the
order, it keeps what has at most 53 bits, and its error is small next to the rational.
-/
namespace TemporalAlgebra.Binary64

def halfEven (q : ℚ) : ℤ :=
  if 2 * Int.fract q < 1 then ⌊q⌋
  else if 1 < 2 * Int.fract q then ⌊q⌋ + 1
  else ⌊q⌋ + ⌊q⌋ % 2

lemma halfEven_bounds (q : ℚ) : ⌊q⌋ ≤ halfEven q ∧ halfEven q ≤ ⌊q⌋ + 1 := by
  unfold halfEven
  split_ifs <;> omega

lemma halfEven_intCast (n : ℤ) : halfEven n = n := by
  unfold halfEven
  rw [Int.fract_intCast, if_pos (by norm_num), Int.floor_intCast]

lemma abs_halfEven_sub_le (q : ℚ) : |halfEven q - q| ≤ 1 / 2 := by
  have hsum := Int.floor_add_fract q
  have hlow := Int.fract_nonneg q
  have hhigh := Int.fract_lt_one q
  have hparity : ((⌊q⌋ % 2 : ℤ) : ℚ) = 0 ∨ ((⌊q⌋ % 2 : ℤ) : ℚ) = 1 := by
    rcases Int.emod_two_eq_zero_or_one ⌊q⌋ with h | h <;> rw [h] <;> simp
  unfold halfEven
  rw [abs_le]
  split_ifs with hless hmore
  · constructor <;> linarith
  · push_cast
    constructor <;> linarith
  · rw [Int.cast_add]
    rcases hparity with h | h <;> rw [h] <;> constructor <;> linarith

lemma halfEven_mono {p q : ℚ} (h : p ≤ q) : halfEven p ≤ halfEven q := by
  rcases (Int.floor_mono h).lt_or_eq with hlt | heq
  · calc halfEven p ≤ ⌊p⌋ + 1 := (halfEven_bounds p).2
      _ ≤ ⌊q⌋ := hlt
      _ ≤ halfEven q := (halfEven_bounds q).1
  · have hfract : Int.fract p ≤ Int.fract q := by
      unfold Int.fract
      rw [heq]
      linarith
    unfold halfEven
    rw [heq]
    split_ifs <;> first | omega | linarith

lemma halfEven_div (num : ℕ) {den : ℕ} (h : 0 < den) :
    halfEven (num / den) = Decimal.roundDiv num den := by
  have hden : (0 : ℚ) < den := Nat.cast_pos.mpr h
  have hless : 2 * Int.fract ((num : ℚ) / den) < 1 ↔ 2 * (num % den) < den := by
    rw [Int.fract_div_natCast_eq_div_natCast_mod, ← mul_div_assoc, div_lt_one hden]
    exact_mod_cast Iff.rfl
  have hmore : 1 < 2 * Int.fract ((num : ℚ) / den) ↔ den < 2 * (num % den) := by
    rw [Int.fract_div_natCast_eq_div_natCast_mod, ← mul_div_assoc, one_lt_div hden]
    exact_mod_cast Iff.rfl
  unfold halfEven Decimal.roundDiv
  simp only [hless, hmore, Rat.floor_natCast_div_natCast]
  split_ifs <;> push_cast <;> rfl

/-- The exponent at which a positive rational is rounded. -/
def unitExponent (q : ℚ) : ℤ := Max.max (Int.log 2 q - 52) (-1074)

/-- The unit in the last place of a positive rational that is rounded. -/
def unit (q : ℚ) : ℚ := 2 ^ unitExponent q

/-- The multiple of its unit that is nearest to a rational that is not negative. -/
def nearestAbove (q : ℚ) : ℚ := halfEven (q / unit q) * unit q

/-- The number nearest to a rational, if numbers are never too large. -/
def nearest (q : ℚ) : ℚ := if q < 0 then -nearestAbove (-q) else nearestAbove q

section

variable {p q : ℚ}

lemma unit_pos (q : ℚ) : 0 < unit q := zpow_pos two_pos _

lemma two_zpow_add (e f : ℤ) : (2 : ℚ) ^ (e + f) = 2 ^ e * 2 ^ f := zpow_add₀ two_ne_zero e f

lemma two_zpow_le {e f : ℤ} (h : e ≤ f) : (2 : ℚ) ^ e ≤ 2 ^ f :=
  zpow_le_zpow_right₀ one_le_two h

lemma unitExponent_mono (hp : 0 < p) (h : p ≤ q) : unitExponent p ≤ unitExponent q := by
  have := Int.log_mono_right (b := 2) hp h
  unfold unitExponent
  omega

/-- At least 52 bits are left in front of the last place, unless the unit is the smallest one. -/
lemma le_of_unitExponent (hq : 0 < q) (h : -1074 < unitExponent q) :
    2 ^ (52 : ℤ) * unit q ≤ q := by
  have hlog : 52 + unitExponent q = Int.log 2 q := by
    unfold unitExponent at h ⊢
    omega
  unfold unit
  rw [← two_zpow_add, hlog]
  exact_mod_cast Int.zpow_log_le_self Nat.one_lt_two hq

lemma lt_unit_mul (q : ℚ) : q < 2 ^ (53 : ℤ) * unit q := by
  have hlog : Int.log 2 q + 1 ≤ 53 + unitExponent q := by
    unfold unitExponent
    omega
  unfold unit
  rw [← two_zpow_add]
  refine lt_of_lt_of_le ?_ (two_zpow_le hlog)
  exact_mod_cast Int.lt_zpow_succ_log_self Nat.one_lt_two q

lemma unit_le (hq : 0 < q) : unit q ≤ 2 ^ (-52 : ℤ) * q + 2 ^ (-1074 : ℤ) := by
  have hlog : (2 : ℚ) ^ Int.log 2 q ≤ q := by
    exact_mod_cast Int.zpow_log_le_self Nat.one_lt_two hq
  have hscaled : (2 : ℚ) ^ (Int.log 2 q - 52) ≤ 2 ^ (-52 : ℤ) * q := by
    rw [sub_eq_neg_add, two_zpow_add]
    exact mul_le_mul_of_nonneg_left hlog (zpow_nonneg two_pos.le _)
  have hleast : (0 : ℚ) < 2 ^ (-1074 : ℤ) := zpow_pos two_pos _
  have hnonneg : (0 : ℚ) ≤ 2 ^ (-52 : ℤ) * q := mul_nonneg (zpow_nonneg two_pos.le _) hq.le
  unfold unit unitExponent
  rcases max_choice (Int.log 2 q - 52) (-1074) with h | h <;> rw [h] <;> linarith

lemma nearestAbove_zero : nearestAbove 0 = 0 := by
  unfold nearestAbove
  rw [zero_div, ← Int.cast_zero, halfEven_intCast, Int.cast_zero, zero_mul]

lemma abs_nearestAbove_sub_le (q : ℚ) : |nearestAbove q - q| ≤ unit q / 2 := by
  have hunit := unit_pos q
  have hfactor : nearestAbove q - q = (halfEven (q / unit q) - q / unit q) * unit q := by
    unfold nearestAbove
    rw [sub_mul, div_mul_cancel₀ _ hunit.ne']
  calc |nearestAbove q - q| = |halfEven (q / unit q) - q / unit q| * unit q := by
        rw [hfactor, abs_mul, abs_of_pos hunit]
    _ ≤ 1 / 2 * unit q := mul_le_mul_of_nonneg_right (abs_halfEven_sub_le _) hunit.le
    _ = unit q / 2 := one_div_mul_eq_div _ _

lemma le_halfEven {n : ℤ} (h : (n : ℚ) ≤ q) : n ≤ halfEven q := by
  rw [← halfEven_intCast n]
  exact halfEven_mono h

lemma halfEven_le {n : ℤ} (h : q ≤ n) : halfEven q ≤ n := by
  rw [← halfEven_intCast n]
  exact halfEven_mono h

lemma nearestAbove_nonneg (hq : 0 ≤ q) : 0 ≤ nearestAbove q := by
  have hnonneg : (0 : ℤ) ≤ halfEven (q / unit q) :=
    le_halfEven (by exact_mod_cast div_nonneg hq (unit_pos q).le)
  exact mul_nonneg (by exact_mod_cast hnonneg) (unit_pos q).le

lemma nearestAbove_eq_self {m : ℕ} {e : ℤ} (hm : m < 2 ^ 53) (he : -1074 ≤ e) :
    nearestAbove (m * 2 ^ e) = m * 2 ^ e := by
  rcases Nat.eq_zero_or_pos m with rfl | hpos
  · rw [Nat.cast_zero, zero_mul, nearestAbove_zero]
  have hq : (0 : ℚ) < m * 2 ^ e := mul_pos (Nat.cast_pos.mpr hpos) (zpow_pos two_pos e)
  obtain ⟨k, hk⟩ : ∃ k : ℕ, e = k + unitExponent (m * 2 ^ e) := by
    have hlt : (m : ℚ) * 2 ^ e < 2 ^ (53 + e) := by
      rw [two_zpow_add]
      exact mul_lt_mul_of_pos_right (by exact_mod_cast hm) (zpow_pos two_pos e)
    have hlog := (Int.lt_zpow_iff_log_lt Nat.one_lt_two hq).mp (by exact_mod_cast hlt)
    refine ⟨(e - unitExponent (m * 2 ^ e)).toNat, ?_⟩
    unfold unitExponent
    omega
  have hquotient : (m : ℚ) * 2 ^ e / unit (m * 2 ^ e) = ((m * 2 ^ k : ℕ) : ℤ) := by
    rw [div_eq_iff (unit_pos _).ne', unit]
    nth_rewrite 1 [hk]
    push_cast
    rw [two_zpow_add, zpow_natCast, mul_assoc]
  unfold nearestAbove
  rw [hquotient, halfEven_intCast, ← hquotient, div_mul_cancel₀ _ (unit_pos _).ne']

lemma nearestAbove_mono (hp : 0 ≤ p) (h : p ≤ q) : nearestAbove p ≤ nearestAbove q := by
  rcases hp.eq_or_lt with rfl | hpos
  · rw [nearestAbove_zero]
    exact nearestAbove_nonneg h
  rcases (unitExponent_mono hpos h).eq_or_lt with heq | hlt
  · have hunit : unit p = unit q := congrArg (fun e : ℤ => (2 : ℚ) ^ e) heq
    unfold nearestAbove
    rw [hunit]
    refine mul_le_mul_of_nonneg_right ?_ (unit_pos q).le
    exact_mod_cast halfEven_mono (div_le_div_of_nonneg_right h (unit_pos q).le)
  · -- the power of two between the two units is on both grids
    have hbelow : halfEven (p / unit p) ≤ 2 ^ 53 := by
      apply halfEven_le
      rw [div_le_iff₀ (unit_pos p)]
      exact_mod_cast (lt_unit_mul p).le
    have habove : 2 ^ 52 ≤ halfEven (q / unit q) := by
      apply le_halfEven
      rw [le_div_iff₀ (unit_pos q)]
      exact_mod_cast le_of_unitExponent (hpos.trans_le h) (by unfold unitExponent at hlt ⊢; omega)
    have hunits : 2 ^ (53 : ℤ) * unit p ≤ 2 ^ (52 : ℤ) * unit q := by
      unfold unit
      rw [← two_zpow_add, ← two_zpow_add]
      exact two_zpow_le (by omega)
    calc nearestAbove p ≤ 2 ^ (53 : ℤ) * unit p :=
          mul_le_mul_of_nonneg_right (by exact_mod_cast hbelow) (unit_pos p).le
      _ ≤ 2 ^ (52 : ℤ) * unit q := hunits
      _ ≤ nearestAbove q := mul_le_mul_of_nonneg_right (by exact_mod_cast habove) (unit_pos q).le

lemma nearest_of_nonneg (hq : 0 ≤ q) : nearest q = nearestAbove q := if_neg hq.not_gt

lemma nearest_neg (q : ℚ) : nearest (-q) = -nearest q := by
  rcases lt_trichotomy q 0 with h | rfl | h
  · rw [nearest_of_nonneg (neg_nonneg.mpr h.le), nearest, if_pos h, neg_neg]
  · rw [neg_zero, nearest_of_nonneg le_rfl, nearestAbove_zero, neg_zero]
  · rw [nearest_of_nonneg h.le, nearest, if_pos (neg_neg_iff_pos.mpr h), neg_neg]

lemma nearest_nonneg (hq : 0 ≤ q) : 0 ≤ nearest q := by
  rw [nearest_of_nonneg hq]
  exact nearestAbove_nonneg hq

lemma nearest_mono (h : p ≤ q) : nearest p ≤ nearest q := by
  rcases le_or_gt 0 p with hp | hp
  · rw [nearest_of_nonneg hp, nearest_of_nonneg (hp.trans h)]
    exact nearestAbove_mono hp h
  · rw [← neg_neg p, nearest_neg, nearest_of_nonneg (neg_nonneg.mpr hp.le)]
    rcases le_or_gt 0 q with hq | hq
    · have := nearestAbove_nonneg (neg_nonneg.mpr hp.le)
      have := nearest_nonneg hq
      linarith
    · rw [← neg_neg q, nearest_neg, nearest_of_nonneg (neg_nonneg.mpr hq.le), neg_le_neg_iff]
      exact nearestAbove_mono (neg_nonneg.mpr hq.le) (neg_le_neg h)

lemma abs_nearest_le (h : |p| ≤ q) : |nearest p| ≤ nearest q := by
  obtain ⟨hlow, hhigh⟩ := abs_le.mp h
  refine abs_le.mpr ⟨?_, nearest_mono hhigh⟩
  rw [← nearest_neg]
  exact nearest_mono hlow

/-- The error is half a unit, which is small next to the rational unless the unit is the smallest
one. -/
lemma abs_nearest_sub_le (q : ℚ) :
    |nearest q - q| ≤ (2 ^ (-52 : ℤ) * |q| + 2 ^ (-1074 : ℤ)) / 2 := by
  have hpositive : ∀ q : ℚ, 0 < q →
      |nearest q - q| ≤ (2 ^ (-52 : ℤ) * q + 2 ^ (-1074 : ℤ)) / 2 := by
    intro q hq
    rw [nearest_of_nonneg hq.le]
    exact (abs_nearestAbove_sub_le q).trans (div_le_div_of_nonneg_right (unit_le hq) two_pos.le)
  rcases lt_trichotomy q 0 with h | rfl | h
  · have herror := hpositive (-q) (neg_pos.mpr h)
    rwa [nearest_neg, neg_sub_neg, abs_sub_comm, ← abs_of_neg h] at herror
  · rw [nearest_of_nonneg le_rfl, nearestAbove_zero, sub_zero, abs_zero, mul_zero, zero_add]
    exact div_nonneg (zpow_nonneg two_pos.le _) two_pos.le
  · rw [abs_of_pos h]
    exact hpositive q h

end

end TemporalAlgebra.Binary64
