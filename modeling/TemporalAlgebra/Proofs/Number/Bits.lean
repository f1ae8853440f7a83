import TemporalAlgebra.Proofs.Number.Comparison

/-!
# Numbers and their bits

A number that is taken apart and put together again has the bits that it had. There is only one NaN,
so its bits are known too, and every number is the number of its bits.
-/
namespace TemporalAlgebra.Binary64

open Float.Model (UnpackedFloat Format)
open Float.Model.UnpackedFloat

lemma toNat_signOf {bits : Nat} (h : bits < 2 ^ 64) :
    (signOf (decide (2 ^ 63 ≤ bits))).toBitVec.toNat = bits / 2 ^ 63 := by
  by_cases hnegative : 2 ^ 63 ≤ bits
  · rw [decide_eq_true hnegative]
    change 1 = _
    omega
  · rw [decide_eq_false hnegative]
    change 0 = _
    omega

lemma toNat_pack_subnormal {s : Sign} {m : Nat} (hpos : 0 < m) (hm : m < 2 ^ 52) :
    (pack .binary64 (.finite s m (-1074) hpos)).toNat = s.toBitVec.toNat * 2 ^ 63 + m := by
  have hlog : m.log2 < 52 := (Nat.log2_lt hpos.ne').mpr hm
  have hpack : pack .binary64 (.finite s m (-1074) hpos) =
      packComponents .binary64 s 0#11 (BitVec.ofNat 52 m) := by
    change (if 2 ^ 11 ≤ 1 + 1 then packedInfinity .binary64 s
      else if m.log2 + 1 = 53 then packComponents .binary64 s (BitVec.ofNat 11 1) (BitVec.ofNat 52 m)
      else packComponents .binary64 s 0#11 (BitVec.ofNat 52 m)) = _
    rw [if_neg (by decide), if_neg (by omega)]
  rw [hpack, toNat_packComponents, BitVec.toNat_ofNat, BitVec.toNat_ofNat, Nat.mod_eq_of_lt hm]
  omega

lemma toNat_pack_shape (x : Float) : (pack .binary64 (shape x)).toNat = x.toBits.toNat := by
  have hlt := x.toBits.toNat_lt
  have hsign := toNat_signOf hlt
  rw [shape_eq]
  unfold parts
  dsimp only
  split_ifs with hexponent hfraction hsubnormal
  · change (packComponents .binary64 (signOf _) (-1#11) 0#52).toNat = _
    rw [toNat_packComponents, hsign]
    change _ + 2047 * 2 ^ 52 + 0 = _
    omega
  · have hmodel := x.toModel.valid.eq_packedNaN ?_ ?_
    · exact congrArg BitVec.toNat hmodel.symm
    · rw [← BitVec.toNat_inj]
      exact (unpackExponent_toNat x).trans hexponent
    · rw [ne_eq, ← BitVec.toNat_inj]
      exact fun h => hfraction ((unpackMantissa_toNat x).symm.trans h)
  · change (pack .binary64 (finiteShape _ _ _)).toNat = _
    rcases Nat.eq_zero_or_pos (x.toBits.toNat % 2 ^ 52) with hzero | hpos
    · rw [hzero]
      change (packComponents .binary64 (signOf _) 0#11 0#52).toNat = _
      rw [toNat_packComponents, hsign, BitVec.toNat_ofNat, BitVec.toNat_ofNat, Nat.zero_mul,
        Nat.add_zero]
      omega
    · rw [finiteShape_of_pos hpos, toNat_pack_subnormal hpos (by omega), hsign]
      omega
  · change (pack .binary64 (finiteShape _ _ _)).toNat = _
    have hlog : (x.toBits.toNat % 2 ^ 52 + 2 ^ 52).log2 = 52 :=
      (Nat.log2_eq_iff (by omega)).mpr ⟨by omega, by omega⟩
    rw [finiteShape_of_pos (by omega), pack_toNat hlog (by omega), hsign]
    unfold biased
    omega

/-- Every number is the number of its bits. -/
theorem ofBits_toBits (x : Float) : Float.ofBits x.toBits = x := by
  have hbits : pack .binary64 (shape x) = x.toBits.toBitVec :=
    BitVec.eq_of_toNat_eq (toNat_pack_shape x)
  obtain ⟨⟨bits, hvalid⟩⟩ := x
  change Float.ofModel ⟨UInt64.ofBitVec (pack .binary64 (unpack .binary64 bits.toBitVec)), _⟩ = _
  congr 2
  exact congrArg UInt64.ofBitVec hbits

lemma not_lt_self {x : Float} (h : x.isNaN = false) : ¬x < x := by
  intro hlt
  have hless : UnpackedFloat.lt (shape x) (shape x) = true := of_decide_eq_true hlt
  have hnan : shape x ≠ .notANumber := by
    intro hx
    change (shape x).isNaN = false at h
    rw [hx] at h
    exact absurd h (by decide)
  unfold UnpackedFloat.lt at hless
  rw [compare_self hnan] at hless
  exact absurd hless (by decide)

end TemporalAlgebra.Binary64
