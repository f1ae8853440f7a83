import TemporalAlgebra.Proofs.Number.Bits
import TemporalAlgebra.Proofs.Number.Rounding
import TemporalAlgebra.Proofs.Time.Shifting
import TemporalAlgebra.Value.Scalar

/-!
# Quotients of integers

The quotient of two integers of 64 bits that are not zero is finite: its exponent is far from the
largest one, whatever is rounded. So on the way between equal finite numbers, at a fraction that is
such a quotient, there are only equal numbers.
-/
namespace TemporalAlgebra

namespace Binary64

open Float.Model (Format UnpackedFloat totalExponent)
open Float.Model.UnpackedFloat

section

variable {s : Sign} {m : Nat} {e : Int}

lemma isFinite_unpack {exponent : BitVec 11} (fraction : BitVec 52) (h : exponent ≠ -1#11) :
    (unpack .binary64 (packComponents .binary64 s exponent fraction)).isFinite = true := by
  have hexponent : unpackExponent (packComponents .binary64 s exponent fraction) = exponent :=
    unpackExponent_packComponents ..
  unfold unpack
  generalize packComponents .binary64 s exponent fraction = b at hexponent ⊢
  subst hexponent
  dsimp only
  rw [if_neg h]
  by_cases hsmall : unpackExponent b = 0#11
  · rw [if_pos hsmall]
    by_cases hzero : unpackMantissa b = 0#52
    · rw [dif_pos hzero]
      rfl
    · rw [dif_neg hzero]
      rfl
  · rw [if_neg hsmall]
    rfl

/-- A number is kept as a finite one unless its exponent is too large. -/
lemma isFinite_kept (he : e ≤ 971) (hpos : 0 < m) :
    (kept (.finite s m e hpos)).isFinite = true := by
  have hbiased : (e + (1023 : Nat) + (52 : Nat)).toNat < 2047 := by omega
  have hne : BitVec.ofNat 11 (e + (1023 : Nat) + (52 : Nat)).toNat ≠ -1#11 := by
    intro h
    have h := congrArg BitVec.toNat h
    rw [BitVec.toNat_ofNat, Nat.mod_eq_of_lt (by omega)] at h
    change _ = 2047 at h
    omega
  change (unpack .binary64 (if 2 ^ 11 ≤ (e + (1023 : Nat) + (52 : Nat)).toNat + 1 then
      packedInfinity .binary64 s
    else if m.log2 + 1 = 53 then packComponents .binary64 s
      (BitVec.ofNat 11 (e + (1023 : Nat) + (52 : Nat)).toNat) (BitVec.ofNat 52 m)
    else packComponents .binary64 s 0#11 (BitVec.ofNat 52 m))).isFinite = true
  rw [if_neg (by omega)]
  split
  · exact isFinite_unpack _ hne
  · exact isFinite_unpack _ (by decide)

end

/-- A finite number with a mantissa of 53 bits and the exponent of an integer of 64 bits. -/
def Integral (a : UnpackedFloat) : Prop :=
  ∃ s m e, ∃ hpos : 0 < m, a = .finite s m e hpos ∧ m.log2 = 52 ∧ -52 ≤ e ∧ e ≤ 13

/-- An integer of 64 bits that is not zero has a mantissa of 53 bits. -/
lemma integral_ofInt {n : Int} (hn : n ≠ 0) (hlo : -2 ^ 64 < n) (hhi : n < 2 ^ 64) :
    Integral (shape (ofInt n)) := by
  obtain ⟨k, hk, hk', hor⟩ : ∃ k : Nat, k ≠ 0 ∧ k < 2 ^ 64 ∧ (n = k ∨ n = -k) :=
    ⟨n.natAbs, by omega, by omega, by omega⟩
  obtain ⟨m, e, hpos, hm, he, he', hplace, hof⟩ := exists_ofInt_eq hk hk'
  have hbounds := rank_bounds hk
  have hlog := (Nat.log2_lt hk).mpr hk'
  obtain ⟨-, hmlo, hmhi⟩ := mantissa_bounds hm
  have hexponent : -52 ≤ e ∧ e ≤ 13 := by
    rw [← hplace] at hbounds
    unfold place biased at hbounds
    omega
  have hshape : shape (ofInt k) = .finite .positive m e hpos := by
    rw [hof]
    exact unpack_pack hm he he' hpos
  rcases hor with rfl | rfl
  · exact ⟨_, m, e, hpos, hshape, hm, hexponent⟩
  · refine ⟨.negative, m, e, hpos, ?_, hm, hexponent⟩
    rw [ofInt_negative hk, hof, neg_ofModel, unpack_pack hm he he' hpos]
    exact unpack_pack hm he he' hpos

/-- The quotient of two mantissas is computed with 53 bits or one more before it is rounded. -/
lemma log2_quotient {m n : Nat} (hm : m.log2 = 52) (hn : n.log2 = 52) :
    ∃ k ≤ 1, (m * 2 ^ 53 / n).log2 = 52 + k := by
  obtain ⟨-, hmlo, hmhi⟩ := mantissa_bounds hm
  obtain ⟨hn₀, hnlo, hnhi⟩ := mantissa_bounds hn
  have hlo : 2 ^ 52 ≤ m * 2 ^ 53 / n := (Nat.le_div_iff_mul_le (by omega)).mpr (by omega)
  have hhi : m * 2 ^ 53 / n < 2 ^ 54 := (Nat.div_lt_iff_lt_mul (by omega)).mpr (by omega)
  have hne : m * 2 ^ 53 / n ≠ 0 := by omega
  have hlog : (m * 2 ^ 53 / n).log2 < 54 := (Nat.log2_lt hne).mpr hhi
  have hlog' : 52 ≤ (m * 2 ^ 53 / n).log2 := (Nat.le_log2 hne).mpr hlo
  exact ⟨(m * 2 ^ 53 / n).log2 - 52, by omega, by omega⟩

/-- The quotient of two numbers is rounded from that of their mantissas, with so many zeros put
behind the dividend that it gets all its digits. -/
lemma div_eq_roundWithAccuracy {s t : Sign} {m n k : Nat} {e f : Int} {hpos : 0 < m}
    {hpos' : 0 < n} (hk : Min.min (e - f) (Format.binary64.targetExponent
      (totalExponent m e - totalExponent n f)) = e - f - k) :
    UnpackedFloat.div .binary64 (.finite s m e hpos) (.finite t n f hpos') =
      roundWithAccuracy .binary64 (s / t) (m * 2 ^ k / n) (e - f - k)
        (accuracyOfFraction (m * 2 ^ k % n) n) := by
  have hamount : (e - f - (e - f - k)).toNat = k := by omega
  change (match divCore .binary64 m e n f with
    | (q, exponent, accuracy) => roundWithAccuracy .binary64 (s / t) q exponent accuracy) = _
  unfold divCore
  simp only [hk, hamount, Nat.shiftLeft_eq]

lemma div_finite {s t : Sign} {m n : Nat} {e f : Int} {hpos : 0 < m} {hpos' : 0 < n}
    (hm : m.log2 = 52) (hn : n.log2 = 52) (he : -1000 ≤ e - f) :
    UnpackedFloat.div .binary64 (.finite s m e hpos) (.finite t n f hpos') =
      roundWithAccuracy .binary64 (s / t) (m * 2 ^ 53 / n) (e - f - 53)
        (accuracyOfFraction (m * 2 ^ 53 % n) n) := by
  refine div_eq_roundWithAccuracy (k := 53) ?_
  change Min.min (e - f) (Max.max (((m.log2 : Int) + 1 + e - ((n.log2 : Int) + 1 + f)) - 53)
    (-1074)) = _
  omega

lemma isFinite_div {x y : Float} (hx : Integral (shape x)) (hy : Integral (shape y)) :
    (shape (x / y)).isFinite = true := by
  obtain ⟨s, m, e, hpos, hx, hm, helo, hehi⟩ := hx
  obtain ⟨t, n, f, hpos', hy, hn, hflo, hfhi⟩ := hy
  obtain ⟨k, hk, hlog⟩ := log2_quotient hm hn
  change (kept (.div .binary64 (shape x) (shape y))).isFinite = true
  rw [hx, hy, div_finite hm hn (by omega)]
  obtain ⟨q, g, hq, -, -, hg, -, hround⟩ := exists_rounded hlog (e := e - f - 53) (by omega)
    (by omega) (accuracyOfFraction (m * 2 ^ 53 % n) n)
  rw [hround]
  exact isFinite_kept hg hq

lemma isFinite_shape {x : Float} (h : isFinite x = true) : (shape x).isFinite = true := by
  obtain ⟨negative, m, e, hparts⟩ := isFinite_iff.mp h
  rw [shape_eq, hparts]
  change (finiteShape negative m e).isFinite = true
  rcases Nat.eq_zero_or_pos m with rfl | hm
  · rfl
  · rw [finiteShape_of_pos hm]
    rfl

lemma kept_shape (x : Float) : kept (shape x) = shape x := by
  have hbits : pack .binary64 (shape x) = x.toBits.toBitVec :=
    BitVec.eq_of_toNat_eq (toNat_pack_shape x)
  exact congrArg (unpack .binary64) hbits

lemma shape_sub_of_same {x y : Float} (hx : (shape x).isFinite = true)
    (h : Same (shape x) (shape y)) : ∃ s, shape (y - x) = .zero s := by
  rw [shape_sub]
  rcases h with h | ⟨s, t, hs, ht⟩
  · rw [← h]
    cases hshape : shape x with
    | notANumber =>
      rw [hshape] at hx
      cases hx
    | infinity s =>
      rw [hshape] at hx
      cases hx
    | zero s =>
      obtain ⟨u, hu⟩ := zero_sub_zero s s
      exact ⟨u, by rw [hu, kept_zero]⟩
    | finite s m e hpos =>
      refine ⟨.positive, ?_⟩
      change kept (UnpackedFloat.normalize .binary64 (_ - _) _ _) = _
      rw [Int.sub_self]
      exact kept_zero _
  · obtain ⟨u, hu⟩ := zero_sub_zero t s
    exact ⟨u, by rw [hs, ht, hu, kept_zero]⟩

/-- On the way between equal finite numbers, at a finite fraction, there are only equal numbers. -/
lemma beq_lerp {x y r : Float} (hx : (shape x).isFinite = true) (h : (x == y) = true)
    (hr : (shape r).isFinite = true) : (lerp x y r == x) = true := by
  obtain ⟨hsame, hnan⟩ := (beq_iff x y).mp h
  obtain ⟨s, hs⟩ := shape_sub_of_same hx hsame
  have hproduct : ∃ t, shape ((y - x) * r) = .zero t := by
    change ∃ t, kept (.mul .binary64 (shape (y - x)) (shape r)) = .zero t
    rw [hs]
    cases hshape : shape r with
    | notANumber =>
      rw [hshape] at hr
      cases hr
    | infinity t =>
      rw [hshape] at hr
      cases hr
    | zero t => exact ⟨s * t, kept_zero _⟩
    | finite t m e hpos => exact ⟨s * t, kept_zero _⟩
  obtain ⟨t, ht⟩ := hproduct
  have hsum : Same (shape (lerp x y r)) (shape x) := by
    change Same (shape (x + (y - x) * r)) _
    rw [shape_add, ht]
    cases hshape : shape x with
    | notANumber => exact absurd hshape hnan
    | infinity u =>
      rw [hshape] at hx
      cases hx
    | zero u =>
      refine Or.inr ?_
      cases u <;> cases t <;> exact ⟨_, _, rfl, rfl⟩
    | finite u m e hpos =>
      have hadd : UnpackedFloat.add .binary64 (.finite u m e hpos) (.zero t) =
          .finite u m e hpos := rfl
      refine Or.inl ?_
      rw [hadd, ← hshape, kept_shape]
  exact (beq_iff _ _).mpr ⟨hsum, fun hn => hnan (hsum.nan_iff.mp hn)⟩

end Binary64

namespace Timestamp

lemma isFinite_quotient {a b t : Timestamp} (hat : a < t) (htb : t < b) :
    (Binary64.shape (t.quotient a b)).isFinite = true := by
  have hat : a.micros < t.micros := hat
  have htb : t.micros < b.micros := htb
  have hintegral : ∀ c : Timestamp, a.micros < c.micros →
      Binary64.Integral (Binary64.shape (Binary64.ofInt (c.micros - a.micros))) := by
    intro c hac
    obtain ⟨hlo, -⟩ := a.fits_micros
    obtain ⟨-, hhi⟩ := c.fits_micros
    exact Binary64.integral_ofInt (by omega) (by omega) (by omega)
  unfold quotient
  rw [if_neg (by omega)]
  exact Binary64.isFinite_div (hintegral t hat) (hintegral b (hat.trans htb))

end Timestamp

end TemporalAlgebra
