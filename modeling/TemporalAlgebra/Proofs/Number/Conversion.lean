import TemporalAlgebra.Proofs.Number.Rounding

/-!
# Integers that pass through numbers

A natural number that is made a floating point number and read back as an integer of 64 bits has been
rounded to a mantissa of 53 bits, ties to even, and cut to the greatest integer. So it comes back as
it was if it is small or ends in zeros, or if it is the greatest integer itself.
-/
namespace TemporalAlgebra.Binary64

open Float.Model (Format UnpackedFloat)
open Float.Model.UnpackedFloat

/-- A natural number rounded to its first 53 bits, ties to even. -/
def rounded (n : Nat) : Nat := Decimal.roundDiv n (2 ^ (n.log2 - 52)) * 2 ^ (n.log2 - 52)

section

variable {m : Nat} {e : Int}

lemma parts_ofModel (hm : m.log2 = 52) (he : -1074 ≤ e) (he' : e ≤ 971) (hpos : 0 < m) :
    parts (Float.ofModel (Float.Model.pack (.finite .positive m e hpos))) = .finite false m e := by
  obtain ⟨-, hlo, hhi⟩ := mantissa_bounds hm
  have hsign : Sign.positive.toBitVec.toNat = 0 := rfl
  have hbits : (Float.ofModel (Float.Model.pack (.finite .positive m e hpos))).toBits.toNat =
      biased e * 2 ^ 52 + (m - 2 ^ 52) := by
    rw [toBits_ofModel, pack_toNat hm he', hsign]
    omega
  have hbiased : biased e ≠ 0 ∧ biased e < 2047 := by
    unfold biased
    omega
  unfold parts
  rw [hbits]
  dsimp only
  have hexponent : (biased e * 2 ^ 52 + (m - 2 ^ 52)) / 2 ^ 52 % 2 ^ 11 = biased e := by omega
  have hfraction : (biased e * 2 ^ 52 + (m - 2 ^ 52)) % 2 ^ 52 = m - 2 ^ 52 := by omega
  rw [hexponent, hfraction, if_neg hbiased.2.ne, if_neg hbiased.1, Parts.finite.injEq]
  refine ⟨decide_eq_false (by omega), by omega, ?_⟩
  unfold biased
  omega

lemma ofModel_mul_one (hm : m.log2 = 52) (he : -1074 ≤ e) (he' : e ≤ 971) (hpos : 0 < m) :
    Float.ofModel (Float.Model.pack (.finite .positive m e hpos)) * 1.0 =
      Float.ofModel (Float.Model.pack (.finite .positive m e hpos)) := by
  have hone : (1.0 : Float).toModel.unpack = .finite .positive (2 ^ 52) (-52) (by decide) := rfl
  have hunpack : (Float.Model.pack (.finite .positive m e hpos)).unpack =
      .finite .positive m e hpos := unpack_pack hm he he' hpos
  change Float.ofModel (Float.Model.pack (UnpackedFloat.mul .binary64
    (Float.Model.pack (.finite .positive m e hpos)).unpack (1.0 : Float).toModel.unpack)) = _
  rw [hunpack, hone]
  change Float.ofModel (Float.Model.pack (roundWithAccuracy .binary64 .positive
    (m * 2 ^ 52) (e - (52 : Nat)) .exact)) = _
  rw [roundWithAccuracy_scaled hm he 52 hpos]

lemma eq_of_place_eq {m' : Nat} {e' : Int} (hm : 2 ^ 52 ≤ m) (hm' : m < 2 ^ 53) (hn : 2 ^ 52 ≤ m')
    (hn' : m' < 2 ^ 53) (he : -1075 ≤ e) (he' : -1075 ≤ e') (h : place m e = place m' e') :
    m = m' ∧ e = e' := by
  unfold place biased at h
  omega

end

/-- The integer at the place of a rounded number. -/
lemma magnitude_eq {n m : Nat} {e : Int} (hn : n ≠ 0) (hm : m.log2 = 52) (he : -1074 ≤ e)
    (h : place m e = rank n) : Rounding.halfUp.magnitude m e = rounded n := by
  obtain ⟨-, hlo, hhi⟩ := mantissa_bounds hm
  unfold rank at h
  split at h
  · rename_i hsmall
    have hlog : n.log2 ≤ 52 := Nat.lt_succ_iff.mp ((Nat.log2_lt hn).mpr hsmall)
    obtain ⟨-, hlo', hhi'⟩ := mantissa_bounds (log2_mantissa hn hsmall)
    obtain ⟨rfl, rfl⟩ := eq_of_place_eq hlo hhi hlo' hhi' (by omega) (by omega) h
    have hrounded : rounded n = n := by
      unfold rounded
      rw [Nat.sub_eq_zero_of_le hlog, Nat.pow_zero]
      exact (Decimal.roundDiv_mul_eq_iff Nat.one_pos).mpr (Nat.one_dvd n)
    rw [hrounded]
    exact magnitude_mantissa hn hsmall
  · rename_i hlarge
    have hbits : 53 ≤ n.log2 := (Nat.le_log2 hn).mpr (Nat.not_lt.mp hlarge)
    obtain ⟨hquot, hquot'⟩ := quotient_bounds hn (k := n.log2 - 52) (by omega)
    have hbounds := Decimal.roundDiv_bounds n (2 ^ (n.log2 - 52))
    unfold Rounding.magnitude rounded
    generalize Decimal.roundDiv n (2 ^ (n.log2 - 52)) = q at *
    generalize n.log2 - 52 = k at *
    rcases Nat.lt_or_ge q (2 ^ 53) with hlt | hge
    · obtain ⟨rfl, rfl⟩ := eq_of_place_eq hlo hhi (by omega) hlt (by omega) (by omega) h
      rw [if_pos (by omega), Int.toNat_natCast]
    · -- rounded up to the next power of two, with one bit less
      obtain rfl : q = 2 ^ 52 * 2 := by omega
      have hcarry : place (2 ^ 52 * 2) k = place (2 ^ 52) (k + 1) := by
        unfold place biased
        omega
      obtain ⟨rfl, rfl⟩ := eq_of_place_eq hlo hhi (by decide) (by decide) (by omega) (by omega)
        (h.trans hcarry)
      have hexponent : ((k : Int) + 1).toNat = k + 1 := by omega
      rw [if_pos (by omega), hexponent, Nat.pow_succ']
      omega

/-- What comes back of a natural number of at most 64 bits. -/
def carried (n : Nat) : Nat := Min.min (2 ^ 63 - 1) (rounded n)

theorem toSigned_ofInt {n : Nat} (hn : n < 2 ^ 64) :
    (toSigned (ofInt n * 1.0) : Bigint).val = carried n := by
  obtain rfl | hne := eq_or_ne n 0
  · decide +kernel
  obtain ⟨m, e, hpos, hm, he, he', hplace, hof⟩ := exists_ofInt_eq hne hn
  rw [hof, ofModel_mul_one hm he he' hpos]
  unfold toSigned
  rw [parts_ofModel hm he he' hpos]
  dsimp only
  rw [magnitude_eq hne hm he hplace]
  change (Signed.clamp (rounded n : Int) : Bigint).val = _
  unfold Signed.clamp carried
  split
  · dsimp only
    omega
  · rw [if_neg (by omega)]
    dsimp only
    omega

/-- Whether nothing but zeros stands behind the first 53 bits of a number, or it is the greatest
integer. -/
def Carries (n : Nat) : Prop := 2 ^ (n.log2 - 52) ∣ n ∨ n = 2 ^ 63 - 1

instance (n : Nat) : Decidable (Carries n) := instDecidableOr

/-- The natural numbers that come back as they were. -/
theorem carried_eq_iff {n : Nat} (hn : n < 2 ^ 63) : carried n = n ↔ Carries n := by
  have hgreatest : rounded (2 ^ 63 - 1) = 2 ^ 63 := by decide
  unfold Carries carried
  rw [← Decimal.roundDiv_mul_eq_iff (Nat.two_pow_pos _)]
  change _ ↔ rounded n = n ∨ _
  constructor
  · intro h
    omega
  · rintro (h | rfl)
    · omega
    · rw [hgreatest]
      decide

end TemporalAlgebra.Binary64
