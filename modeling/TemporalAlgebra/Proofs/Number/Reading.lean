import Mathlib.Algebra.Order.Field.Power
import TemporalAlgebra.Proofs.Number.Flooring
import TemporalAlgebra.Proofs.Number.Nearest

/-!
# Numbers read as rationals

Every finite number stands for a rational with a mantissa of at most 53 bits. What is computed from
finite numbers is the number nearest to the exact result, unless that is too large.
-/
namespace TemporalAlgebra.Binary64

open Float.Model (Format UnpackedFloat totalExponent)
open Float.Model.UnpackedFloat

def factor : Sign → ℚ
  | .negative => -1
  | .positive => 1

/-- The rational that a finite number stands for. -/
def reading : UnpackedFloat → ℚ
  | .finite s m e _ => factor s * (m * 2 ^ e)
  | _ => 0

def value (x : Float) : ℚ := reading (shape x)

/-- A mantissa and an exponent as numbers have them: of 53 bits, or of fewer with the smallest
exponent. -/
structure Canonical (m : ℕ) (e : ℤ) : Prop where
  lt : m < 2 ^ 53
  le : -1074 ≤ e
  full : 2 ^ 52 ≤ m ∨ e = -1074

section

variable {s : Sign} {m : ℕ} {e : ℤ} {hpos : 0 < m}

lemma canonical_of_shape {x : Float} (h : shape x = .finite s m e hpos) :
    Canonical m e ∧ e ≤ 971 := by
  obtain ⟨negative, hparts, -⟩ := parts_of_shape h
  have hbits := x.toBits.toNat_lt
  unfold parts at hparts
  dsimp only at hparts
  split_ifs at hparts with hlarge hsmall
  · obtain ⟨-, rfl, rfl⟩ := Parts.finite.inj hparts
    exact ⟨⟨by omega, le_rfl, Or.inr rfl⟩, by omega⟩
  · obtain ⟨-, rfl, rfl⟩ := Parts.finite.inj hparts
    exact ⟨⟨by omega, by omega, Or.inl (by omega)⟩, by omega⟩

lemma unpack_packComponents_small {fraction : BitVec 52} (h : fraction ≠ 0#52) :
    ∃ hpos, unpack .binary64 (packComponents .binary64 s 0#11 fraction) =
      .finite s fraction.toNat (-1074) hpos := by
  have hfraction : unpackMantissa (packComponents .binary64 s 0#11 fraction) = fraction :=
    unpackMantissa_packComponents ..
  have hexponent : unpackExponent (packComponents .binary64 s 0#11 fraction) = 0#11 :=
    unpackExponent_packComponents ..
  have hsign := sign_packComponents (s := s) 0#11 fraction
  unfold unpack
  generalize packComponents .binary64 s 0#11 fraction = b at hfraction hexponent hsign ⊢
  subst hfraction
  dsimp only
  rw [if_neg (by rw [hexponent]; decide), if_pos hexponent, dif_neg h, hsign]
  refine ⟨Nat.pos_of_ne_zero fun hzero => h (BitVec.eq_of_toNat_eq hzero), ?_⟩
  cases s <;> exact finite_congr rfl (by rw [hexponent]; rfl)

lemma kept_small (hm : m < 2 ^ 52) : kept (.finite s m (-1074) hpos) = .finite s m (-1074) hpos := by
  have hlog : ¬m.log2 + 1 = 53 := by
    have := (Nat.log2_lt hpos.ne').mpr hm
    omega
  have hpack : pack .binary64 (.finite s m (-1074) hpos) =
      packComponents .binary64 s 0#11 (BitVec.ofNat 52 m) := by
    change (if m.log2 + 1 = 53 then _ else packComponents .binary64 s 0#11 (BitVec.ofNat 52 m)) = _
    rw [if_neg hlog]
  have hfraction : (BitVec.ofNat 52 m).toNat = m := by
    rw [BitVec.toNat_ofNat, Nat.mod_eq_of_lt hm]
  have hne : BitVec.ofNat 52 m ≠ 0#52 := by
    intro h
    have := congrArg BitVec.toNat h
    rw [hfraction] at this
    exact hpos.ne' this
  obtain ⟨hpos', hunpack⟩ := unpack_packComponents_small (s := s) hne
  change unpack .binary64 (pack .binary64 (.finite s m (-1074) hpos)) = _
  rw [hpack, hunpack]
  exact finite_congr hfraction rfl

lemma kept_large (he : 972 ≤ e) : kept (.finite s m e hpos) = .infinity s := by
  have hlimit : 2 ^ 11 ≤ (e + (1023 : Nat) + (52 : Nat)).toNat + 1 := by omega
  have hpack : pack .binary64 (.finite s m e hpos) = packedInfinity .binary64 s := by
    change (if 2 ^ 11 ≤ (e + (1023 : Nat) + (52 : Nat)).toNat + 1 then _ else _) = _
    rw [if_pos hlimit]
  change unpack .binary64 (pack .binary64 (.finite s m e hpos)) = _
  rw [hpack]
  cases s <;> rfl

lemma Canonical.kept_eq (h : Canonical m e) (he : e ≤ 971) :
    kept (.finite s m e hpos) = .finite s m e hpos := by
  by_cases hfull : 2 ^ 52 ≤ m
  · exact unpack_pack ((Nat.log2_eq_iff hpos.ne').mpr ⟨hfull, h.lt⟩) h.le he hpos
  · obtain rfl := h.full.resolve_left hfull
    exact kept_small (Nat.lt_of_not_le hfull)

end

section

variable {s : Sign} {num den : ℕ} {e : ℤ}

lemma log_quotient (hden : 0 < den) (h : num / den ≠ 0) :
    Int.log 2 ((num : ℚ) / den * 2 ^ e) = (num / den).log2 + e := by
  have hden' : (0 : ℚ) < den := Nat.cast_pos.mpr hden
  obtain ⟨hlow, hhigh⟩ := (Nat.log2_eq_iff h).mp rfl
  have hlower : (2 : ℚ) ^ (num / den).log2 ≤ num / den := by
    rw [le_div_iff₀ hden']
    exact_mod_cast (Nat.le_div_iff_mul_le hden).mp hlow
  have hupper : (num : ℚ) / den < 2 ^ ((num / den).log2 + 1) := by
    rw [div_lt_iff₀ hden']
    exact_mod_cast (Nat.div_lt_iff_lt_mul hden).mp hhigh
  have hpow : (0 : ℚ) < 2 ^ e := zpow_pos two_pos e
  have hpos : (0 : ℚ) < num / den * 2 ^ e :=
    mul_pos (lt_of_lt_of_le (pow_pos two_pos _) hlower) hpow
  apply le_antisymm
  · rw [← Int.lt_add_one_iff, ← Int.lt_zpow_iff_log_lt Nat.one_lt_two hpos, Nat.cast_two,
      add_right_comm, two_zpow_add]
    exact mul_lt_mul_of_pos_right (by exact_mod_cast hupper) hpow
  · rw [← Int.zpow_le_iff_le_log Nat.one_lt_two hpos, Nat.cast_two, two_zpow_add, zpow_natCast]
    exact mul_le_mul_of_nonneg_right hlower hpow.le

lemma unitExponent_quotient (hnum : 0 < num) (hden : 0 < den)
    (hbits : 52 ≤ (num / den).log2 ∨ e ≤ -1074) :
    unitExponent (num / den * 2 ^ e) =
      Format.binary64.targetExponent (totalExponent (num / den) e) := by
  change _ = Max.max (((num / den).log2 : ℤ) + 1 + e - 53) (-1074)
  unfold unitExponent
  by_cases hzero : num / den = 0
  · have hlog : (num / den).log2 = 0 := by rw [hzero, Nat.log2_zero]
    have hless : (num : ℚ) / den < 1 := by
      rw [div_lt_one (Nat.cast_pos.mpr hden)]
      exact_mod_cast (Nat.div_eq_zero_iff_lt hden).mp hzero
    have hpos : (0 : ℚ) < num / den * 2 ^ e :=
      mul_pos (div_pos (Nat.cast_pos.mpr hnum) (Nat.cast_pos.mpr hden)) (zpow_pos two_pos e)
    have hsmall : Int.log 2 ((num : ℚ) / den * 2 ^ e) < e := by
      rw [← Int.lt_zpow_iff_log_lt Nat.one_lt_two hpos, Nat.cast_two]
      exact mul_lt_of_lt_one_left (zpow_pos two_pos e) hless
    omega
  · rw [log_quotient hden hzero]
    omega

lemma exists_canonical {q : ℕ} (hq : q ≤ 2 ^ 53) (he : -1074 ≤ e) (hfull : 2 ^ 52 ≤ q ∨ e = -1074) :
    ∃ m e', Canonical m e' ∧ (m : ℚ) * 2 ^ e' = q * 2 ^ e ∧
      shiftToTargetExponent .binary64 q e .exact =
        (ExtendedMantissa.ofMantissaAndAccuracy m .exact, e') := by
  rcases hq.eq_or_lt with rfl | hlt
  · have hshift := shiftToTarget (by decide : (2 ^ 52).log2 = 52) (by omega : -1074 ≤ e + 1) 1
    rw [Int.natCast_one, Int.add_sub_cancel] at hshift
    refine ⟨2 ^ 52, e + 1, ⟨by decide, by omega, Or.inl le_rfl⟩, ?_, hshift⟩
    rw [zpow_add_one₀ two_ne_zero]
    push_cast
    ring
  · refine ⟨q, e, ⟨hlt, he, hfull⟩, rfl, ?_⟩
    have hlog : q.log2 ≤ 52 := by
      rcases Nat.eq_zero_or_pos q with rfl | hpos
      · decide
      · exact Nat.lt_succ_iff.mp ((Nat.log2_lt hpos.ne').mpr hlt)
    have hamount : (Format.binary64.targetExponent (totalExponent q e) - e).toNat = 0 := by
      change (Max.max ((q.log2 : ℤ) + 1 + e - 53) (-1074) - e).toNat = 0
      omega
    unfold shiftToTargetExponent shiftToExponent
    simp only [hamount, Int.natCast_zero, Int.add_zero]
    rfl

lemma nearestAbove_quotient (hden : 0 < den) {k : ℕ}
    (hunit : unitExponent (num / den * 2 ^ e) = e + k) :
    nearestAbove (num / den * 2 ^ e) = Decimal.roundDiv num (den * 2 ^ k) * 2 ^ (e + k) := by
  have hquotient : (num : ℚ) / den * 2 ^ e / 2 ^ (e + k) = (num : ℚ) / (den * 2 ^ k : ℕ) := by
    rw [two_zpow_add, zpow_natCast, mul_comm ((2 : ℚ) ^ e), mul_div_mul_right _ _
      (zpow_ne_zero e two_ne_zero), div_div, Nat.cast_mul, Nat.cast_pow, Nat.cast_two]
  unfold nearestAbove unit
  rw [hunit, hquotient, halfEven_div num (Nat.mul_pos hden (Nat.two_pow_pos k)), Int.cast_natCast]

lemma roundWithAccuracy_eq_zero {m : ℕ} {accuracy : Accuracy} {p q : ExtendedMantissa × ℤ}
    (hp : shiftToTargetExponent .binary64 m e accuracy = p)
    (hq : shiftToTargetExponent .binary64 p.1.roundedMantissa p.2 .exact = q)
    (hzero : q.1.mantissa = 0) : roundWithAccuracy .binary64 s m e accuracy = .zero s := by
  subst hp hq
  exact dif_pos hzero

/-- What is computed as a quotient and its rest is rounded to the nearest number, if the bits are
enough. -/
lemma roundWithAccuracy_quotient (hnum : 0 < num) (hden : 0 < den)
    (hbits : 52 ≤ (num / den).log2 ∨ e ≤ -1074) {a : UnpackedFloat}
    (ha : roundWithAccuracy .binary64 s (num / den) e (accuracyOfFraction (num % den) den) = a) :
    reading a = factor s * nearestAbove (num / den * 2 ^ e) ∧
      (a = .zero s ∨ ∃ m e' hpos, a = .finite s m e' hpos ∧ Canonical m e') := by
  obtain ⟨t, ht⟩ : ∃ t, Format.binary64.targetExponent (totalExponent (num / den) e) = t := ⟨_, rfl⟩
  have htarget : Max.max (((num / den).log2 : ℤ) + 1 + e - 53) (-1074) = t := ht
  obtain ⟨k, rfl⟩ : ∃ k : ℕ, t = e + k := ⟨(t - e).toNat, by omega⟩
  have hunit := (unitExponent_quotient hnum hden hbits).trans ht
  obtain ⟨q, hq⟩ : ∃ q, roundedOff (num / den) k (accuracyOfFraction (num % den) den) = q :=
    ⟨_, rfl⟩
  have hfirst : shiftToTargetExponent .binary64 (num / den) e (accuracyOfFraction (num % den) den) =
      (ExtendedMantissa.ofMantissaAndAccuracy (num / den) (accuracyOfFraction (num % den) den) >>> k,
        e + k) := by
    have hamount : (e + k - e : ℤ).toNat = k := by omega
    unfold shiftToTargetExponent shiftToExponent
    simp only [ht, hamount]
  have hbounds := rounded_bounds (num / den) k (accuracyOfFraction (num % den) den)
  rw [hq] at hbounds
  have hle : q ≤ 2 ^ 53 := by
    have hsmall : num / den / 2 ^ k < 2 ^ 53 := by
      rw [Nat.div_lt_iff_lt_mul (Nat.two_pow_pos k), ← Nat.pow_add]
      exact Nat.lt_log2_self.trans_le (Nat.pow_le_pow_right (by decide) (by omega))
    omega
  have hfull : 2 ^ 52 ≤ q ∨ e + k = -1074 := by
    by_cases hlog : (num / den).log2 = 52 + k
    · have hne : num / den ≠ 0 := by
        intro hzero
        rw [hzero, Nat.log2_zero] at hlog
        omega
      exact Or.inl ((quotient_bounds hne hlog).1.trans hbounds.1)
    · exact Or.inr (by omega)
  obtain ⟨m, e', hcanonical, hsame, hsecond⟩ := exists_canonical hle (by omega) hfull
  rw [nearestAbove_quotient hden hunit, ← roundedOff_quotient num k hden, hq, ← hsame]
  rcases Nat.eq_zero_or_pos m with rfl | hpos
  · rw [← ha, roundWithAccuracy_eq_zero hfirst (by exact hq ▸ hsecond) rfl]
    exact ⟨by rw [Nat.cast_zero, zero_mul, mul_zero]; rfl, Or.inl rfl⟩
  · have hround := roundWithAccuracy_eq (s := s) hfirst (by exact hq ▸ hsecond) hpos
    rw [← ha, hround]
    exact ⟨rfl, Or.inr ⟨m, e', hpos, rfl, hcanonical⟩⟩

end

end TemporalAlgebra.Binary64
