import TemporalAlgebra.Proofs.Number.Reading

/-!
# Arithmetic of finite numbers

Sums, differences, products and quotients of finite numbers, and the numbers of integers, are the
numbers nearest to the exact results, or infinite where these are too large. What is computed from
an infinite number or a NaN by one of the first three is not finite again.
-/
namespace TemporalAlgebra.Binary64

open Float.Model (Format UnpackedFloat totalExponent)
open Float.Model.UnpackedFloat

/-- A result is the number nearest to a rational, or the infinity of its sign if that number is too
large. -/
def Rounds (a : UnpackedFloat) (q : ℚ) : Prop :=
  (a.isFinite = true ∧ reading a = nearest q) ∨
    ∃ s, a = .infinity s ∧ 2 ^ (1024 : ℤ) ≤ factor s * nearest q

lemma Rounds.reading_eq {a : UnpackedFloat} {q : ℚ} (h : Rounds a q) (ha : a.isFinite = true) :
    reading a = nearest q := by
  rcases h with ⟨-, h⟩ | ⟨s, rfl, -⟩
  · exact h
  · cases ha

lemma Rounds.value_eq {x : Float} {q : ℚ} (h : Rounds (shape x) q)
    (hx : (shape x).isFinite = true) : value x = nearest q := h.reading_eq hx

lemma abs_factor (s : Sign) : |factor s| = 1 := by
  cases s with
  | negative => exact (abs_neg 1).trans abs_one
  | positive => exact abs_one

lemma Rounds.isFinite {a : UnpackedFloat} {q : ℚ} (h : Rounds a q)
    (hq : |nearest q| < 2 ^ (1024 : ℤ)) : a.isFinite = true := by
  rcases h with ⟨h, -⟩ | ⟨s, -, h⟩
  · exact h
  · have hle := h.trans (le_abs_self _)
    rw [abs_mul, abs_factor, one_mul] at hle
    exact absurd hle hq.not_ge

lemma factor_mul (s t : Sign) : factor (s * t) = factor s * factor t := by
  cases s <;> cases t
  · exact (by norm_num : (1 : ℚ) = -1 * -1)
  · exact (mul_one (-1 : ℚ)).symm
  · exact (one_mul (-1 : ℚ)).symm
  · exact (one_mul (1 : ℚ)).symm

lemma factor_div (s t : Sign) : factor (s / t) = factor s / factor t := by
  cases s <;> cases t
  · exact (by norm_num : (1 : ℚ) = -1 / -1)
  · exact (div_one (-1 : ℚ)).symm
  · exact (by norm_num : (-1 : ℚ) = 1 / -1)
  · exact (div_one (1 : ℚ)).symm

lemma nearest_factor (s : Sign) {q : ℚ} (hq : 0 ≤ q) :
    nearest (factor s * q) = factor s * nearestAbove q := by
  cases s with
  | negative =>
    change nearest (-1 * q) = -1 * nearestAbove q
    rw [neg_one_mul, neg_one_mul, nearest_neg, nearest_of_nonneg hq]
  | positive =>
    change nearest (1 * q) = 1 * nearestAbove q
    rw [one_mul, one_mul, nearest_of_nonneg hq]

lemma nearest_zero : nearest 0 = 0 := (nearest_of_nonneg le_rfl).trans nearestAbove_zero

lemma rounds_zero (s : Sign) : Rounds (.zero s) 0 := Or.inl ⟨rfl, nearest_zero.symm⟩

lemma rounds_kept_zero (s : Sign) : Rounds (kept (.zero s)) 0 := by
  rw [kept_zero]
  exact rounds_zero s

section

variable {s : Sign} {m : ℕ} {e : ℤ} {hpos : 0 < m}

lemma Canonical.nearest_eq_self (h : Canonical m e) :
    nearest (reading (.finite s m e hpos)) = reading (.finite s m e hpos) := by
  have hq : (0 : ℚ) ≤ m * 2 ^ e := mul_nonneg (Nat.cast_nonneg m) (zpow_nonneg two_pos.le e)
  change nearest (factor s * _) = factor s * _
  rw [nearest_factor s hq, nearestAbove_eq_self h.lt h.le]

lemma Canonical.rounds_kept (h : Canonical m e) {q : ℚ}
    (hq : reading (.finite s m e hpos) = nearest q) : Rounds (kept (.finite s m e hpos)) q := by
  rcases lt_or_ge 971 e with he | he
  · rw [kept_large he]
    refine Or.inr ⟨s, rfl, ?_⟩
    have hm : 2 ^ 52 ≤ m := h.full.resolve_right (by omega)
    have hpow : (0 : ℚ) < 2 ^ e := zpow_pos two_pos e
    rw [← hq]
    change _ ≤ factor s * (factor s * (m * 2 ^ e))
    rw [← mul_assoc, ← sq, ← sq_abs, abs_factor, one_pow, one_mul]
    calc (2 : ℚ) ^ (1024 : ℤ) ≤ 2 ^ (52 + e) := two_zpow_le (by omega)
      _ = 2 ^ (52 : ℤ) * 2 ^ e := two_zpow_add 52 e
      _ ≤ m * 2 ^ e := mul_le_mul_of_nonneg_right (by exact_mod_cast hm) hpow.le
  · rw [h.kept_eq he]
    exact Or.inl ⟨rfl, hq⟩

end

lemma rounds_quotient (s : Sign) {num den : ℕ} {e : ℤ} (hnum : 0 < num) (hden : 0 < den)
    (hbits : 52 ≤ (num / den).log2 ∨ e ≤ -1074) :
    Rounds (kept (roundWithAccuracy .binary64 s (num / den) e (accuracyOfFraction (num % den) den)))
      (factor s * (num / den * 2 ^ e)) := by
  have hq : (0 : ℚ) ≤ num / den * 2 ^ e :=
    mul_nonneg (div_nonneg (Nat.cast_nonneg _) (Nat.cast_nonneg _)) (zpow_nonneg two_pos.le e)
  obtain ⟨hreading, hzero | ⟨m, e', hpos, hfinite, hcanonical⟩⟩ :=
    roundWithAccuracy_quotient (s := s) hnum hden hbits rfl
  · rw [hzero] at hreading ⊢
    rw [kept_zero]
    exact Or.inl ⟨rfl, hreading.trans (nearest_factor s hq).symm⟩
  · rw [hfinite] at hreading ⊢
    exact hcanonical.rounds_kept (hreading.trans (nearest_factor s hq).symm)

lemma rounds_mantissa (s : Sign) {m : ℕ} {e : ℤ} (hm : 0 < m) (hbits : 52 ≤ m.log2 ∨ e ≤ -1074) :
    Rounds (kept (roundWithAccuracy .binary64 s m e .exact)) (factor s * (m * 2 ^ e)) := by
  have h := rounds_quotient s (e := e) hm Nat.one_pos (by rwa [Nat.div_one])
  rw [Nat.div_one, Nat.mod_one, Nat.cast_one, div_one] at h
  exact h

lemma rounds_round (s : Sign) {m : ℕ} (hm : 0 < m) (e : ℤ) :
    Rounds (kept (UnpackedFloat.round .binary64 s m e)) (factor s * (m * 2 ^ e)) := by
  obtain ⟨k, hk⟩ : ∃ k : ℕ, k = (e - Max.max ((m.log2 : ℤ) + 1 + e - 53) (-1074)).toNat := ⟨_, rfl⟩
  have hround : UnpackedFloat.round .binary64 s m e =
      roundWithAccuracy .binary64 s (m * 2 ^ k) (e - k) .exact := by
    rw [hk, ← Nat.shiftLeft_eq]
    rfl
  have hsame : (m : ℚ) * 2 ^ e = (m * 2 ^ k : ℕ) * 2 ^ (e - k) := by
    rw [Nat.cast_mul, Nat.cast_pow, Nat.cast_two, mul_assoc, ← zpow_natCast, ← two_zpow_add,
      add_sub_cancel]
  have hlog := log2_mul_two_pow hm.ne' k
  rw [hround, hsame]
  exact rounds_mantissa s (Nat.mul_pos hm (Nat.two_pow_pos k)) (by omega)

lemma rounds_normalize (n e : ℤ) (s : Sign) :
    Rounds (kept (UnpackedFloat.normalize .binary64 n e s)) (n * 2 ^ e) := by
  rcases lt_trichotomy n 0 with h | rfl | h
  · have hround := rounds_round .negative (m := (-n).toNat) (by omega) e
    have hcast : (((-n).toNat : ℕ) : ℚ) = -n := by
      exact_mod_cast Int.toNat_of_nonneg (by omega : 0 ≤ -n)
    rw [hcast] at hround
    unfold UnpackedFloat.normalize
    rw [Int.compare_eq_lt.mpr h]
    change Rounds _ (-1 * (-(n : ℚ) * 2 ^ e)) at hround
    rwa [neg_one_mul, neg_mul, neg_neg] at hround
  · rw [Int.cast_zero, zero_mul]
    change Rounds (kept (.zero s)) 0
    rw [kept_zero]
    exact rounds_zero s
  · have hround := rounds_round .positive (m := n.toNat) (by omega) e
    have hcast : ((n.toNat : ℕ) : ℚ) = n := by
      exact_mod_cast Int.toNat_of_nonneg h.le
    rw [hcast] at hround
    unfold UnpackedFloat.normalize
    rw [Int.compare_eq_gt.mpr h]
    change Rounds _ (1 * ((n : ℚ) * 2 ^ e)) at hround
    rwa [one_mul] at hround

section

variable {x y : Float}

lemma value_of_zero {s : Sign} (h : shape x = .zero s) : value x = 0 := by
  unfold value
  rw [h]
  rfl

lemma nearest_value (x : Float) : nearest (value x) = value x := by
  unfold value
  cases h : shape x with
  | finite s m e hpos => exact (canonical_of_shape h).1.nearest_eq_self
  | _ => exact nearest_zero

lemma rounds_shape (hx : (shape x).isFinite = true) : Rounds (shape x) (value x) :=
  Or.inl ⟨hx, (nearest_value x).symm⟩

lemma finite_cases (hx : (shape x).isFinite = true) : (∃ s, shape x = .zero s) ∨
    ∃ s m e hpos, shape x = .finite s m e hpos ∧ Canonical m e ∧
      value x = factor s * (m * 2 ^ e) := by
  cases h : shape x with
  | finite s m e hpos =>
    refine Or.inr ⟨s, m, e, hpos, rfl, (canonical_of_shape h).1, ?_⟩
    unfold value
    rw [h]
    rfl
  | zero s => exact Or.inl ⟨s, rfl⟩
  | infinity s =>
    rw [h] at hx
    cases hx
  | notANumber =>
    rw [h] at hx
    cases hx

lemma le_log2_mul {m n : ℕ} (hm : 2 ^ 52 ≤ m) (hn : 0 < n) : 52 ≤ (m * n).log2 := by
  have hne : m * n ≠ 0 := Nat.mul_ne_zero (by omega) hn.ne'
  exact (Nat.le_log2 hne).mpr (hm.trans (Nat.le_mul_of_pos_right m hn))

/-- A product is the number nearest to the exact one. -/
theorem rounds_mul (hx : (shape x).isFinite = true) (hy : (shape y).isFinite = true) :
    Rounds (shape (x * y)) (value x * value y) := by
  change Rounds (kept (.mul .binary64 (shape x) (shape y))) _
  rcases finite_cases hx with ⟨s, hx₀⟩ | ⟨s, m, e, hm, hx₀, hcx, hvx⟩
  · rw [value_of_zero hx₀, zero_mul, hx₀]
    rcases finite_cases hy with ⟨t, hy₀⟩ | ⟨t, n, f, hn, hy₀, -, -⟩ <;> rw [hy₀] <;>
      exact rounds_kept_zero (s * t)
  rcases finite_cases hy with ⟨t, hy₀⟩ | ⟨t, n, f, hn, hy₀, hcy, hvy⟩
  · rw [value_of_zero hy₀, mul_zero, hx₀, hy₀]
    exact rounds_kept_zero (s * t)
  rw [hx₀, hy₀, hvx, hvy]
  change Rounds (kept (roundWithAccuracy .binary64 (s * t) (m * n) (e + f) .exact)) _
  have hproduct : factor s * (m * 2 ^ e) * (factor t * (n * 2 ^ f)) =
      factor (s * t) * ((m * n : ℕ) * 2 ^ (e + f)) := by
    rw [factor_mul, two_zpow_add]
    push_cast
    ring
  rw [hproduct]
  refine rounds_mantissa (s * t) (Nat.mul_pos hm hn) ?_
  -- a factor with all its bits leaves enough of them, and two without have the smallest exponent
  rcases hcx.full with hfull | rfl
  · exact Or.inl (le_log2_mul hfull hn)
  · rcases hcy.full with hfull | rfl
    · rw [Nat.mul_comm]
      exact Or.inl (le_log2_mul hfull hm)
    · exact Or.inr (by omega)

lemma decreaseExponent_reading (m : ℕ) {e g : ℤ} (h : g ≤ e) :
    ((decreaseExponent m e g).1 : ℚ) * 2 ^ g = m * 2 ^ e := by
  obtain ⟨k, rfl⟩ : ∃ k : ℕ, e = g + k := ⟨(e - g).toNat, by omega⟩
  have hamount : (g + k - g : ℤ).toNat = k := by omega
  change ((m <<< (g + k - g : ℤ).toNat : ℕ) : ℚ) * 2 ^ g = _
  rw [hamount, Nat.shiftLeft_eq, two_zpow_add, zpow_natCast]
  push_cast
  ring

lemma apply_reading (s : Sign) (m : ℕ) : ((s.apply m : ℤ) : ℚ) = factor s * m := by
  cases s with
  | negative =>
    change ((-(m : ℤ) : ℤ) : ℚ) = -1 * m
    push_cast
    ring
  | positive =>
    change ((m : ℤ) : ℚ) = 1 * m
    rw [one_mul, Int.cast_natCast]

/-- A sum is the number nearest to the exact one. -/
theorem rounds_add (hx : (shape x).isFinite = true) (hy : (shape y).isFinite = true) :
    Rounds (shape (x + y)) (value x + value y) := by
  change Rounds (kept (.add .binary64 (shape x) (shape y))) _
  rcases finite_cases hx with ⟨s, hx₀⟩ | ⟨s, m, e, hm, hx₀, hcx, hvx⟩
  · rw [value_of_zero hx₀, zero_add]
    rcases finite_cases hy with ⟨t, hy₀⟩ | ⟨t, n, f, hn, hy₀, -, -⟩
    · rw [value_of_zero hy₀, hx₀, hy₀]
      cases s <;> cases t <;> exact rounds_kept_zero _
    · have hsum : UnpackedFloat.add .binary64 (shape x) (shape y) = shape y := by
        rw [hx₀, hy₀]
        rfl
      rw [hsum, kept_shape]
      exact rounds_shape hy
  rcases finite_cases hy with ⟨t, hy₀⟩ | ⟨t, n, f, hn, hy₀, hcy, hvy⟩
  · have hsum : UnpackedFloat.add .binary64 (shape x) (shape y) = shape x := by
      rw [hx₀, hy₀]
      rfl
    rw [value_of_zero hy₀, add_zero, hsum, kept_shape]
    exact rounds_shape hx
  have hsum : factor s * (m * 2 ^ e) + factor t * (n * 2 ^ f) =
      ((s.apply (decreaseExponent m e (Min.min e f)).1 +
        t.apply (decreaseExponent n f (Min.min e f)).1 : ℤ) : ℚ) * 2 ^ (Min.min e f) := by
    rw [Int.cast_add, apply_reading, apply_reading, add_mul, mul_assoc, mul_assoc,
      decreaseExponent_reading m (min_le_left e f), decreaseExponent_reading n (min_le_right e f)]
  rw [hx₀, hy₀, hvx, hvy, hsum]
  exact rounds_normalize _ _ .positive

lemma factor_neg (s : Sign) : factor (-s) = -factor s := by
  cases s with
  | negative => exact (neg_neg (1 : ℚ)).symm
  | positive => rfl

/-- The opposite of a finite number stands for the opposite rational. -/
lemma neg_spec (hy : (shape y).isFinite = true) :
    shape (-y) = (shape y).neg ∧ (shape (-y)).isFinite = true ∧ value (-y) = -value y := by
  have hshape : shape (-y) = (shape y).neg := by
    change kept (shape y).neg = _
    rcases finite_cases hy with ⟨t, hy₀⟩ | ⟨t, n, f, hn, hy₀, hcy, -⟩ <;> rw [hy₀]
    · exact kept_zero (-t)
    · exact hcy.kept_eq (canonical_of_shape hy₀).2
  refine ⟨hshape, ?_, ?_⟩
  · rcases finite_cases hy with ⟨t, hy₀⟩ | ⟨t, n, f, hn, hy₀, -, -⟩ <;> rw [hshape, hy₀] <;> rfl
  · unfold value
    rw [hshape]
    rcases finite_cases hy with ⟨t, hy₀⟩ | ⟨t, n, f, hn, hy₀, -, -⟩ <;> rw [hy₀]
    · exact neg_zero.symm
    · change factor (-t) * _ = -(factor t * _)
      rw [factor_neg, neg_mul]

/-- A difference is the number nearest to the exact one. -/
theorem rounds_sub (hx : (shape x).isFinite = true) (hy : (shape y).isFinite = true) :
    Rounds (shape (x - y)) (value x - value y) := by
  obtain ⟨hshape, hfinite, hvalue⟩ := neg_spec hy
  have hsum : shape (x - y) = shape (x + -y) := by
    rw [shape_sub, shape_add, hshape, sub_eq_add_opposite]
  rw [hsum, sub_eq_add_neg, ← hvalue]
  exact rounds_add hx hfinite

lemma le_log2_div {m n k : ℕ} (hm : 0 < m) (hn : 0 < n) (h : n.log2 + 53 ≤ m.log2 + k) :
    52 ≤ (m * 2 ^ k / n).log2 := by
  have hbits : 2 ^ 52 ≤ m * 2 ^ k / n := by
    rw [Nat.le_div_iff_mul_le hn]
    calc 2 ^ 52 * n ≤ 2 ^ 52 * 2 ^ (n.log2 + 1) := Nat.mul_le_mul_left _ Nat.lt_log2_self.le
      _ = 2 ^ (n.log2 + 53) := by rw [← Nat.pow_add]; congr 1; omega
      _ ≤ 2 ^ (m.log2 + k) := Nat.pow_le_pow_right (by decide) h
      _ = 2 ^ m.log2 * 2 ^ k := Nat.pow_add ..
      _ ≤ m * 2 ^ k := Nat.mul_le_mul_right _ (Nat.log2_self_le hm.ne')
  exact (Nat.le_log2 (by omega)).mpr hbits

/-- A quotient is the number nearest to the exact one. -/
theorem rounds_div (hx : (shape x).isFinite = true) (hy : (shape y).isFinite = true)
    (hne : value y ≠ 0) : Rounds (shape (x / y)) (value x / value y) := by
  change Rounds (kept (.div .binary64 (shape x) (shape y))) _
  rcases finite_cases hy with ⟨t, hy₀⟩ | ⟨t, n, f, hn, hy₀, hcy, hvy⟩
  · exact absurd (value_of_zero hy₀) hne
  rcases finite_cases hx with ⟨s, hx₀⟩ | ⟨s, m, e, hm, hx₀, hcx, hvx⟩
  · rw [value_of_zero hx₀, zero_div, hx₀, hy₀]
    exact rounds_kept_zero (s / t)
  -- so many zeros behind the dividend leave the quotient bits enough
  obtain ⟨k, hk⟩ : ∃ k : ℕ, Min.min (e - f) (Max.max
      ((m.log2 : ℤ) + 1 + e - ((n.log2 : ℤ) + 1 + f) - 53) (-1074)) = e - f - k :=
    ⟨(e - f - Min.min (e - f) (Max.max
      ((m.log2 : ℤ) + 1 + e - ((n.log2 : ℤ) + 1 + f) - 53) (-1074))).toNat, by omega⟩
  have hquotient : UnpackedFloat.div .binary64 (shape x) (shape y) = roundWithAccuracy .binary64
      (s / t) (m * 2 ^ k / n) (e - f - k) (accuracyOfFraction (m * 2 ^ k % n) n) := by
    rw [hx₀, hy₀]
    exact div_eq_roundWithAccuracy hk
  have hvalue : factor s * (m * 2 ^ e) / (factor t * (n * 2 ^ f)) =
      factor (s / t) * ((m * 2 ^ k : ℕ) / n * 2 ^ (e - f - k)) := by
    rw [factor_div, zpow_sub₀ two_ne_zero, zpow_sub₀ two_ne_zero, zpow_natCast, Nat.cast_mul,
      Nat.cast_pow, Nat.cast_two]
    field_simp
  rw [hquotient, hvx, hvy, hvalue]
  refine rounds_quotient (s / t) (Nat.mul_pos hm (Nat.two_pow_pos k)) hn ?_
  by_cases hlog : n.log2 + 53 ≤ m.log2 + k
  · exact Or.inl (le_log2_div hm hn hlog)
  · exact Or.inr (by omega)

lemma value_ofInt_small {n : ℕ} (hn : n < 2 ^ 53) : value (ofInt n) = n := by
  rcases Nat.eq_zero_or_pos n with rfl | hpos
  · exact (value_of_zero shape_zero).trans Nat.cast_zero.symm
  have hlog : n.log2 ≤ 52 := Nat.lt_succ_iff.mp ((Nat.log2_lt hpos.ne').mpr hn)
  have hexponent : (n.log2 : ℤ) - 52 = -((52 - n.log2 : ℕ) : ℤ) := by omega
  have hshape : shape (ofInt n) = _ := shape_ofInt .positive hpos.ne' hn
  unfold value
  rw [hshape]
  change 1 * ((mantissa n : ℚ) * 2 ^ ((n.log2 : ℤ) - 52)) = n
  rw [one_mul, mantissa, hexponent, zpow_neg, zpow_natCast, Nat.cast_mul, Nat.cast_pow,
    Nat.cast_two, mul_inv_cancel_right₀ (pow_ne_zero _ two_ne_zero)]

/-- The number of an integer that is not negative is the number nearest to it. -/
theorem value_ofInt {n : ℕ} (hn : n < 2 ^ 64) : value (ofInt n) = nearest n := by
  by_cases hsmall : n < 2 ^ 53
  · rw [← value_ofInt_small hsmall, nearest_value]
  -- a large integer is rounded with zeros behind it
  have hpos : 0 < n * 2 ^ 53 := by omega
  have hbits : 52 ≤ (n * 2 ^ 53).log2 :=
    (Nat.le_log2 hpos.ne').mpr (by omega)
  have hrounds := rounds_mantissa .positive (e := -((53 : ℕ) : ℤ)) hpos (Or.inl hbits)
  have hsame : factor .positive * (((n * 2 ^ 53 : ℕ) : ℚ) * 2 ^ (-((53 : ℕ) : ℤ))) = n := by
    change 1 * _ = _
    rw [one_mul, zpow_neg, zpow_natCast, Nat.cast_mul, Nat.cast_pow, Nat.cast_two,
      mul_inv_cancel_right₀ (pow_ne_zero _ two_ne_zero)]
  rw [hsame] at hrounds
  have hshape : shape (ofInt n) =
      kept (roundWithAccuracy .binary64 .positive (n * 2 ^ 53) (-((53 : ℕ) : ℤ)) .exact) := by
    rw [ofInt_large (Nat.not_lt.mp hsmall)]
    rfl
  rw [← hshape] at hrounds
  exact hrounds.reading_eq (isFinite_shape (isFinite_ofInt (by omega) (by omega)))

end

section

variable {a b : UnpackedFloat}

lemma kept_infinity (s : Sign) : kept (.infinity s) = .infinity s := by
  cases s <;> rfl

lemma isFinite_of_kept (h : (kept a).isFinite = true) : a.isFinite = true := by
  cases a with
  | notANumber =>
    rw [kept_nan] at h
    cases h
  | infinity s =>
    rw [kept_infinity] at h
    cases h
  | zero s => rfl
  | finite s m e hpos => rfl

lemma operands_of_add (h : (UnpackedFloat.add .binary64 a b).isFinite = true) :
    a.isFinite = true ∧ b.isFinite = true := by
  cases a with
  | notANumber => cases h
  | infinity s =>
    cases b with
    | infinity t => cases s <;> cases t <;> cases h
    | _ => cases h
  | _ =>
    cases b with
    | notANumber => cases h
    | infinity t => cases h
    | _ => exact ⟨rfl, rfl⟩

lemma operands_of_sub (h : (UnpackedFloat.sub .binary64 a b).isFinite = true) :
    a.isFinite = true ∧ b.isFinite = true := by
  rw [sub_eq_add_opposite] at h
  obtain ⟨ha, hb⟩ := operands_of_add h
  refine ⟨ha, ?_⟩
  cases b with
  | zero t => rfl
  | finite t n f hn => rfl
  | _ => cases hb

lemma operands_of_mul (h : (UnpackedFloat.mul .binary64 a b).isFinite = true) :
    a.isFinite = true ∧ b.isFinite = true := by
  cases a with
  | notANumber => cases h
  | infinity s => cases b <;> cases h
  | _ =>
    cases b with
    | notANumber => cases h
    | infinity t => cases h
    | _ => exact ⟨rfl, rfl⟩

end

section

variable {x y : Float}

lemma isFinite_of_add (h : (shape (x + y)).isFinite = true) :
    (shape x).isFinite = true ∧ (shape y).isFinite = true := operands_of_add (isFinite_of_kept h)

lemma isFinite_of_sub (h : (shape (x - y)).isFinite = true) :
    (shape x).isFinite = true ∧ (shape y).isFinite = true := operands_of_sub (isFinite_of_kept h)

lemma isFinite_of_mul (h : (shape (x * y)).isFinite = true) :
    (shape x).isFinite = true ∧ (shape y).isFinite = true := operands_of_mul (isFinite_of_kept h)

end

end TemporalAlgebra.Binary64
