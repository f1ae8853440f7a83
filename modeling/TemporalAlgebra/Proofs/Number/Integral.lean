import Mathlib.Tactic.Ring
import TemporalAlgebra.Proofs.Number.Binary64

/-!
# Integers as numbers

An integer of at most 53 bits is a number: its bits move to the front of the mantissa, and nothing
is rounded. So the order of such integers is the order of the numbers.
-/
namespace TemporalAlgebra.Binary64

open Float.Model (Format UnpackedFloat totalExponent)
open Float.Model.UnpackedFloat

section

variable {s : Sign} {m : Nat} {e : Int}

lemma mantissa_bounds (hm : m.log2 = 52) : m ≠ 0 ∧ 2 ^ 52 ≤ m ∧ m < 2 ^ 53 := by
  have hne : m ≠ 0 := fun h => by simp [h] at hm
  exact ⟨hne, (Nat.log2_eq_iff hne).mp hm⟩

lemma log2_mul_two_pow {n : Nat} (hn : n ≠ 0) (k : Nat) : (n * 2 ^ k).log2 = n.log2 + k := by
  obtain ⟨hlo, hhi⟩ := (Nat.log2_eq_iff hn).mp rfl
  refine (Nat.log2_eq_iff (Nat.mul_ne_zero hn (Nat.two_pow_pos k).ne')).mpr ⟨?_, ?_⟩
  · rw [Nat.pow_add]
    exact Nat.mul_le_mul_right _ hlo
  · rw [Nat.add_right_comm, Nat.pow_add]
    exact Nat.mul_lt_mul_of_pos_right hhi (Nat.two_pow_pos k)

lemma log2_scaled (hm : m.log2 = 52) (k : Nat) : (m * 2 ^ k).log2 = 52 + k := by
  rw [log2_mul_two_pow (mantissa_bounds hm).1, hm]

lemma shift_zeros (m k : Nat) : ExtendedMantissa.ofMantissaAndAccuracy (m * 2 ^ k) .exact >>> k =
    ExtendedMantissa.ofMantissaAndAccuracy m .exact := by
  induction k generalizing m with
  | zero =>
    rw [Nat.pow_zero, Nat.mul_one]
    rfl
  | succ k ih =>
    have hshift : ExtendedMantissa.ofMantissaAndAccuracy (m * 2 ^ (k + 1)) .exact >>> (k + 1) =
        (ExtendedMantissa.ofMantissaAndAccuracy (m * 2 ^ (k + 1)) .exact >>> k).shiftRightOne := rfl
    rw [hshift, Nat.pow_succ', ← Nat.mul_assoc, ih]
    simp [ExtendedMantissa.ofMantissaAndAccuracy, ExtendedMantissa.shiftRightOne]

lemma shiftToTarget (hm : m.log2 = 52) (he : -1074 ≤ e) (k : Nat) :
    shiftToTargetExponent .binary64 (m * 2 ^ k) (e - k) .exact =
      (ExtendedMantissa.ofMantissaAndAccuracy m .exact, e) := by
  have htarget : Format.binary64.targetExponent (totalExponent (m * 2 ^ k) (e - k)) = e := by
    change Max.max (((m * 2 ^ k).log2 : Int) + 1 + (e - k) - 53) (-1074) = e
    rw [log2_scaled hm]
    omega
  have hamount : (e - (e - k)).toNat = k := by omega
  unfold shiftToTargetExponent shiftToExponent
  simp only [htarget, hamount, shift_zeros, Int.sub_add_cancel]

lemma roundWithAccuracy_eq {p q : ExtendedMantissa × Int} {accuracy : Accuracy}
    (hp : shiftToTargetExponent .binary64 m e accuracy = p)
    (hq : shiftToTargetExponent .binary64 p.1.roundedMantissa p.2 .exact = q)
    (hpos : 0 < q.1.mantissa) :
    roundWithAccuracy .binary64 s m e accuracy = .finite s q.1.mantissa q.2 hpos := by
  subst hp hq
  exact dif_neg hpos.ne'

lemma roundWithAccuracy_scaled (hm : m.log2 = 52) (he : -1074 ≤ e) (k : Nat) (hpos : 0 < m) :
    roundWithAccuracy .binary64 s (m * 2 ^ k) (e - k) .exact = .finite s m e hpos := by
  have hsecond := shiftToTarget hm he 0
  rw [Nat.pow_zero, Nat.mul_one, Int.natCast_zero, Int.sub_zero] at hsecond
  exact roundWithAccuracy_eq (shiftToTarget hm he k) hsecond hpos

def biased (e : Int) : Nat := (e + 1075).toNat

lemma pack_eq (hm : m.log2 = 52) (he' : e ≤ 971) (hpos : 0 < m) :
    pack .binary64 (.finite s m e hpos) =
      packComponents .binary64 s (BitVec.ofNat 11 (biased e)) (BitVec.ofNat 52 m) := by
  have hbiased : (e + (1023 : Nat) + (52 : Nat)).toNat = biased e := by
    unfold biased
    omega
  have hlimit : ¬2 ^ 11 ≤ biased e + 1 := by
    unfold biased
    omega
  change (if 2 ^ 11 ≤ (e + (1023 : Nat) + (52 : Nat)).toNat + 1 then _
    else if m.log2 + 1 = 53 then packComponents .binary64 s
      (BitVec.ofNat 11 (e + (1023 : Nat) + (52 : Nat)).toNat) (BitVec.ofNat 52 m) else _) = _
  rw [hbiased, if_neg hlimit, if_pos (by rw [hm])]

lemma toNat_packComponents (s : Sign) (exponent : BitVec 11) (fraction : BitVec 52) :
    (packComponents .binary64 s exponent fraction).toNat =
      s.toBitVec.toNat * 2 ^ 63 + exponent.toNat * 2 ^ 52 + fraction.toNat := by
  rw [packComponents, BitVec.toNat_append, BitVec.toNat_append,
    ← Nat.shiftLeft_add_eq_or_of_lt (BitVec.isLt _),
    ← Nat.shiftLeft_add_eq_or_of_lt (BitVec.isLt _), Nat.shiftLeft_eq, Nat.shiftLeft_eq]
  omega

/-- The bits of a number with a mantissa of 53 bits, of which the first one is not kept. -/
lemma pack_toNat (hm : m.log2 = 52) (he' : e ≤ 971) (hpos : 0 < m) :
    (pack .binary64 (.finite s m e hpos)).toNat =
      s.toBitVec.toNat * 2 ^ 63 + biased e * 2 ^ 52 + (m - 2 ^ 52) := by
  obtain ⟨-, hlo, hhi⟩ := mantissa_bounds hm
  have hmod : biased e % 2 ^ 11 = biased e := by
    unfold biased
    omega
  have hfraction : m % 2 ^ 52 = m - 2 ^ 52 := by omega
  rw [pack_eq hm he', toNat_packComponents, BitVec.toNat_ofNat, BitVec.toNat_ofNat]
  change _ + biased e % 2 ^ 11 * 2 ^ 52 + m % 2 ^ 52 = _
  rw [hmod, hfraction]

lemma sign_packComponents (exponent : BitVec 11) (fraction : BitVec 52) :
    unpackSign (packComponents .binary64 s exponent fraction) = s.toBitVec := by
  change (s.toBitVec ++ exponent ++ fraction).extractLsb' 63 1 = s.toBitVec
  rw [BitVec.extractLsb'_append_eq_of_le (by decide),
    BitVec.extractLsb'_append_eq_of_le (by decide)]
  cases s <;> rfl

lemma unpack_packComponents {exponent : BitVec 11} (fraction : BitVec 52)
    (hfinite : exponent ≠ -1#11) (hnormal : exponent ≠ 0#11) :
    ∃ h, unpack .binary64 (packComponents .binary64 s exponent fraction) =
      .finite s (1#1 ++ fraction).toNat (exponent.toNat - ((1023 : Nat) + (52 : Nat))) h := by
  have hfraction : unpackMantissa (packComponents .binary64 s exponent fraction) = fraction :=
    unpackMantissa_packComponents ..
  have hexponent : unpackExponent (packComponents .binary64 s exponent fraction) = exponent :=
    unpackExponent_packComponents ..
  have hsign := sign_packComponents (s := s) exponent fraction
  unfold unpack
  generalize packComponents .binary64 s exponent fraction = b at hfraction hexponent hsign ⊢
  subst hfraction hexponent
  dsimp only
  rw [if_neg hfinite, if_neg hnormal, hsign]
  refine ⟨?_, ?_⟩
  · rw [BitVec.toNat_append, ← Nat.shiftLeft_add_eq_or_of_lt (BitVec.isLt _)]
    exact Nat.add_pos_left (by decide) _
  · cases s <;> rfl

lemma finite_congr {m' : Nat} {e' : Int} {h : 0 < m} {h' : 0 < m'} (hm : m = m') (he : e = e') :
    UnpackedFloat.finite s m e h = .finite s m' e' h' := by
  subst hm he
  rfl

lemma unpack_pack (hm : m.log2 = 52) (he : -1074 ≤ e) (he' : e ≤ 971) (hpos : 0 < m) :
    unpack .binary64 (pack .binary64 (.finite s m e hpos)) = .finite s m e hpos := by
  obtain ⟨-, hlo, hhi⟩ := mantissa_bounds hm
  have hexponent : (BitVec.ofNat 11 (biased e)).toNat = biased e := by
    rw [BitVec.toNat_ofNat]
    unfold biased
    omega
  have hfinite : BitVec.ofNat 11 (biased e) ≠ -1#11 := by
    intro h
    have h := congrArg BitVec.toNat h
    rw [hexponent] at h
    change (e + 1075).toNat = 2047 at h
    omega
  have hnormal : BitVec.ofNat 11 (biased e) ≠ 0#11 := by
    intro h
    have h := congrArg BitVec.toNat h
    rw [hexponent] at h
    change (e + 1075).toNat = 0 at h
    omega
  obtain ⟨h, heq⟩ := unpack_packComponents (s := s) (BitVec.ofNat 52 m) hfinite hnormal
  rw [pack_eq hm he', heq]
  refine finite_congr ?_ ?_
  · rw [BitVec.toNat_append, ← Nat.shiftLeft_add_eq_or_of_lt (BitVec.isLt _), BitVec.toNat_ofNat]
    change 2 ^ 52 + m % 2 ^ 52 = m
    omega
  · rw [hexponent]
    unfold biased
    omega

/-- The mantissa of an integer, its bits moved to the front of 53. -/
def mantissa (n : Nat) : Nat := n * 2 ^ (52 - n.log2)

lemma log2_mantissa {n : Nat} (hn : n ≠ 0) (hn' : n < 2 ^ 53) : (mantissa n).log2 = 52 := by
  have hlog : n.log2 ≤ 52 := Nat.lt_succ_iff.mp ((Nat.log2_lt hn).mpr hn')
  rw [mantissa, log2_mul_two_pow hn, Nat.add_sub_cancel' hlog]

lemma mantissa_pos {n : Nat} (hn : n ≠ 0) : 0 < mantissa n :=
  Nat.pos_of_ne_zero (Nat.mul_ne_zero hn (Nat.two_pow_pos _).ne')

lemma magnitude_of_nonpos (mode : Rounding) (he : e ≤ 0) : mode.magnitude m e =
    match mode with
    | .down => m / 2 ^ (-e).toNat
    | .up => (m + (2 ^ (-e).toNat - 1)) / 2 ^ (-e).toNat
    | .halfUp => (m + 2 ^ (-e).toNat / 2) / 2 ^ (-e).toNat := by
  unfold Rounding.magnitude
  by_cases hzero : 0 ≤ e
  · obtain rfl : e = 0 := by omega
    cases mode <;> simp
  · refine (if_neg hzero).trans ?_
    cases mode <;> rfl

/-- The integer at the mantissa of an integer is that integer. -/
lemma magnitude_mantissa {n : Nat} (hn : n ≠ 0) (hn' : n < 2 ^ 53) :
    Rounding.halfUp.magnitude (mantissa n) (n.log2 - 52) = n := by
  have hlog : n.log2 ≤ 52 := Nat.lt_succ_iff.mp ((Nat.log2_lt hn).mpr hn')
  have hexponent : (-((n.log2 : Int) - 52)).toNat = 52 - n.log2 := by omega
  have hhalf : 2 ^ (52 - n.log2) / 2 < 2 ^ (52 - n.log2) :=
    Nat.div_lt_self (Nat.two_pow_pos _) (by decide)
  rw [magnitude_of_nonpos .halfUp (by omega)]
  dsimp only
  rw [hexponent, mantissa, Nat.mul_comm, Nat.mul_add_div (Nat.two_pow_pos _),
    Nat.div_eq_of_lt hhalf, Nat.add_zero]

lemma roundWithAccuracy_natural {n : Nat} (hn : n ≠ 0) (hn' : n < 2 ^ 53) {k : Nat}
    (hk : 52 ≤ n.log2 + k) : roundWithAccuracy .binary64 s (n * 2 ^ k) (-k) .exact =
      .finite s (mantissa n) (n.log2 - 52) (mantissa_pos hn) := by
  have hlog : n.log2 ≤ 52 := Nat.lt_succ_iff.mp ((Nat.log2_lt hn).mpr hn')
  have hmantissa : n * 2 ^ k = mantissa n * 2 ^ (n.log2 + k - 52) := by
    rw [mantissa, Nat.mul_assoc, ← Nat.pow_add]
    congr 2
    omega
  have hexponent : -(k : Int) = (n.log2 - 52 : Int) - (n.log2 + k - 52 : Nat) := by omega
  rw [hmantissa, hexponent]
  exact roundWithAccuracy_scaled (log2_mantissa hn hn') (by omega) _ _

lemma round_natural {n : Nat} (hn : n ≠ 0) (hn' : n < 2 ^ 53) (k : Nat) :
    UnpackedFloat.round .binary64 s (n * 2 ^ k) (-k) =
      .finite s (mantissa n) (n.log2 - 52) (mantissa_pos hn) := by
  have hlog : n.log2 ≤ 52 := Nat.lt_succ_iff.mp ((Nat.log2_lt hn).mpr hn')
  have htarget : Format.binary64.targetExponent (totalExponent (n * 2 ^ k) (-k)) =
      n.log2 - 52 := by
    change Max.max (((n * 2 ^ k).log2 : Int) + 1 + -k - 53) (-1074) = n.log2 - 52
    rw [log2_mul_two_pow hn]
    omega
  obtain ⟨j, hj⟩ : ∃ j : Nat, j = (-(k : Int) - ((n.log2 : Int) - 52)).toNat := ⟨_, rfl⟩
  have hexponent : -(k : Int) - j = -(k + j : Nat) := by omega
  change roundWithAccuracy .binary64 s
    ((n * 2 ^ k) <<< (-k - Format.binary64.targetExponent (totalExponent (n * 2 ^ k) (-k))).toNat)
    (-k - (-k - Format.binary64.targetExponent (totalExponent (n * 2 ^ k) (-k))).toNat) .exact = _
  rw [htarget, ← hj, hexponent, Nat.shiftLeft_eq, Nat.mul_assoc, ← Nat.pow_add]
  exact roundWithAccuracy_natural hn hn' (by omega)

lemma ofInt_natural {n : Nat} (hn : n ≠ 0) (hn' : n < 2 ^ 53) (hpos : 0 < mantissa n) :
    ofInt n = Float.ofModel (Float.Model.pack
      (.finite .positive (mantissa n) (n.log2 - 52) hpos)) := by
  have hlog : n.log2 ≤ 52 := Nat.lt_succ_iff.mp ((Nat.log2_lt hn).mpr hn')
  have hmantissa := log2_mantissa hn hn'
  have hword : n.toUInt64.toNat = n := Nat.mod_eq_of_lt (by omega)
  have hpositive : compare (n : Int) 0 = .gt := Int.compare_eq_gt.mpr (by omega)
  have hstored : UnpackedFloat.ofUInt64 .binary64 n.toUInt64 =
      .finite .positive (mantissa n) (n.log2 - 52) hpos := by
    unfold UnpackedFloat.ofUInt64 UnpackedFloat.ofNat UnpackedFloat.ofInt UnpackedFloat.normalize
    rw [hword, hpositive]
    have hround := round_natural (s := .positive) hn hn' 0
    rwa [Nat.pow_zero, Nat.mul_one] at hround
  have hone : (Float.ofBits 4607182418800017408).toModel.unpack =
      .finite .positive (2 ^ 52) (-52) (by decide) := rfl
  have hproduct : ofInt n = n.toUInt64.toFloat * Float.ofBits 4607182418800017408 := by
    change Float.ofScientific n false 0 = _
    unfold Float.ofScientific
    rw [dif_pos ⟨hn', by decide⟩]
    rfl
  have hunpack : n.toUInt64.toFloat.toModel.unpack =
      .finite .positive (mantissa n) (n.log2 - 52) hpos := by
    change (Float.Model.pack (UnpackedFloat.ofUInt64 .binary64 n.toUInt64)).unpack = _
    rw [hstored]
    exact unpack_pack hmantissa (by omega) (by omega) hpos
  rw [hproduct]
  change Float.ofModel (Float.Model.pack (UnpackedFloat.mul .binary64
    n.toUInt64.toFloat.toModel.unpack (Float.ofBits 4607182418800017408).toModel.unpack)) = _
  rw [hunpack, hone]
  change Float.ofModel (Float.Model.pack (roundWithAccuracy .binary64 .positive
    (mantissa n * 2 ^ 52) ((n.log2 - 52 : Int) - (52 : Nat)) .exact)) = _
  rw [roundWithAccuracy_scaled hmantissa (by omega) 52 hpos]

lemma toBits_ofModel (f : UnpackedFloat) :
    (Float.ofModel (Float.Model.pack f)).toBits.toNat = (pack .binary64 f).toNat := rfl

lemma neg_ofModel (f : UnpackedFloat) : -Float.ofModel (Float.Model.pack f) =
    Float.ofModel (Float.Model.pack (unpack .binary64 (pack .binary64 f)).neg) := rfl

/-- Where a number with a mantissa of 53 bits stands among the positive numbers. -/
def place (m : Nat) (e : Int) : Nat := biased e * 2 ^ 52 + (m - 2 ^ 52)

lemma place_pos (he : -1074 ≤ e) : 0 < place m e := by
  unfold place biased
  omega

lemma place_lt (hm : m.log2 = 52) (he' : e ≤ 971) : place m e < 2047 * 2 ^ 52 := by
  obtain ⟨-, -, hhi⟩ := mantissa_bounds hm
  unfold place biased
  omega

lemma orderKey_of_bits {x : Float} {bits : Nat} (h : x.toBits.toNat = bits) :
    orderKey x = (if 2 ^ 63 ≤ bits then -(bits - 2 ^ 63 : Nat) - 1 else bits : Int) := by
  subst h
  rfl

lemma orderKey_positive (hm : m.log2 = 52) (he' : e ≤ 971) (hpos : 0 < m) :
    orderKey (Float.ofModel (Float.Model.pack (.finite .positive m e hpos))) = place m e := by
  have hplace := place_lt hm he'
  have hsign : Sign.positive.toBitVec.toNat = 0 := rfl
  have hbits : (Float.ofModel (Float.Model.pack (.finite .positive m e hpos))).toBits.toNat =
      place m e := by
    rw [toBits_ofModel, pack_toNat hm he', hsign]
    unfold place
    omega
  rw [orderKey_of_bits hbits, if_neg (by omega)]

lemma orderKey_negative (hm : m.log2 = 52) (he : -1074 ≤ e) (he' : e ≤ 971) (hpos : 0 < m) :
    orderKey (-Float.ofModel (Float.Model.pack (.finite .positive m e hpos))) = -place m e - 1 := by
  have hsign : Sign.negative.toBitVec.toNat = 1 := rfl
  have hopposite : (UnpackedFloat.finite .positive m e hpos).neg = .finite .negative m e hpos := rfl
  have hbits : (-Float.ofModel (Float.Model.pack (.finite .positive m e hpos))).toBits.toNat =
      2 ^ 63 + place m e := by
    rw [neg_ofModel, unpack_pack hm he he', hopposite, toBits_ofModel, pack_toNat hm he', hsign]
    unfold place
    omega
  rw [orderKey_of_bits hbits, if_pos (by omega)]
  omega

/-- Place of a positive integer among the numbers. -/
def position (n : Nat) : Nat := place (mantissa n) (n.log2 - 52)

lemma ofInt_negative {n : Nat} (hn : n ≠ 0) : ofInt (-n) = -ofInt n := by
  obtain ⟨k, rfl⟩ := Nat.exists_eq_succ_of_ne_zero hn
  rfl

lemma orderKey_ofInt_natural {n : Nat} (hn : n ≠ 0) (hn' : n < 2 ^ 53) :
    orderKey (ofInt n) = position n := by
  have hlog : n.log2 ≤ 52 := Nat.lt_succ_iff.mp ((Nat.log2_lt hn).mpr hn')
  have hmantissa := log2_mantissa hn hn'
  have hpos : 0 < mantissa n := Nat.pos_of_ne_zero (mantissa_bounds hmantissa).1
  rw [ofInt_natural hn hn' hpos]
  exact orderKey_positive hmantissa (by omega) hpos

lemma orderKey_ofInt_negative {n : Nat} (hn : n ≠ 0) (hn' : n < 2 ^ 53) :
    orderKey (ofInt (-n)) = -position n - 1 := by
  have hlog : n.log2 ≤ 52 := Nat.lt_succ_iff.mp ((Nat.log2_lt hn).mpr hn')
  have hmantissa := log2_mantissa hn hn'
  have hpos : 0 < mantissa n := Nat.pos_of_ne_zero (mantissa_bounds hmantissa).1
  rw [ofInt_negative hn, ofInt_natural hn hn' hpos]
  exact orderKey_negative hmantissa (by omega) (by omega) hpos

lemma position_lt {m n : Nat} (hm : m ≠ 0) (hn : n < 2 ^ 53) (h : m < n) :
    position m < position n := by
  have hn₀ : n ≠ 0 := by omega
  have hlog : m.log2 ≤ n.log2 := (Nat.le_log2 hn₀).mpr ((Nat.log2_self_le hm).trans h.le)
  have hlog' : n.log2 ≤ 52 := Nat.lt_succ_iff.mp ((Nat.log2_lt hn₀).mpr hn)
  have hm' := mantissa_bounds (log2_mantissa hm (h.trans hn))
  have hn' := mantissa_bounds (log2_mantissa hn₀ hn)
  unfold position place biased
  rcases hlog.eq_or_lt with heq | hlt
  · have hmantissa : mantissa m < mantissa n := by
      unfold mantissa
      rw [heq]
      exact Nat.mul_lt_mul_of_pos_right h (Nat.two_pow_pos _)
    rw [heq]
    omega
  · omega

/-- Numbers of opposite signs are apart. So integers are as far apart among the numbers as those of
one sign are. -/
lemma orderKey_ofInt_add_le (rank : Nat → Nat) (bound : Nat) {gap : Int} (hgap : gap ≤ 1)
    (hkey : ∀ k : Nat, k ≠ 0 → k < bound → 0 < rank k ∧ orderKey (ofInt k) = rank k ∧
      orderKey (ofInt (-k)) = -rank k - 1)
    (hrank : ∀ {k l : Nat}, k ≠ 0 → l < bound → k < l → (rank k : Int) + gap ≤ rank l) {m n : Int}
    (hm : -bound < m) (hn : n < bound) (h : m < n) :
    orderKey (ofInt m) + gap ≤ orderKey (ofInt n) := by
  have hzero : orderKey (ofInt 0) = 0 := rfl
  have hpositive : ∀ k : Nat, k ≠ 0 → k < bound → 0 < orderKey (ofInt k) := by
    intro k hk hk'
    obtain ⟨hpos, hkey, -⟩ := hkey k hk hk'
    omega
  have hnegative : ∀ k : Nat, k ≠ 0 → k < bound → orderKey (ofInt (-k)) < 0 := by
    intro k hk hk'
    obtain ⟨hpos, -, hkey⟩ := hkey k hk hk'
    omega
  rcases lt_trichotomy m 0 with hm₀ | rfl | hm₀
  · obtain ⟨k, rfl⟩ : ∃ k : Nat, m = -k := ⟨m.natAbs, by omega⟩
    have hk := hnegative k (by omega) (by omega)
    rcases lt_trichotomy n 0 with hn₀ | rfl | hn₀
    · obtain ⟨l, rfl⟩ : ∃ l : Nat, n = -l := ⟨n.natAbs, by omega⟩
      have hlt := hrank (k := l) (l := k) (by omega) (by omega) (by omega)
      rw [(hkey k (by omega) (by omega)).2.2, (hkey l (by omega) (by omega)).2.2]
      omega
    · omega
    · obtain ⟨l, rfl⟩ := Int.eq_ofNat_of_zero_le hn₀.le
      have hl := hpositive l (by omega) (by omega)
      omega
  · obtain ⟨l, rfl⟩ := Int.eq_ofNat_of_zero_le h.le
    have hl := hpositive l (by omega) (by omega)
    omega
  · obtain ⟨k, rfl⟩ := Int.eq_ofNat_of_zero_le hm₀.le
    obtain ⟨l, rfl⟩ := Int.eq_ofNat_of_zero_le (hm₀.trans h).le
    rw [(hkey k (by omega) (by omega)).2.1, (hkey l (by omega) (by omega)).2.1]
    exact hrank (by omega) (by omega) (by omega)

/-- The integers of at most 53 bits are in the order of their numbers. -/
theorem orderKey_ofInt_lt {m n : Int} (hm : -2 ^ 53 < m) (hn : n < 2 ^ 53) (h : m < n) :
    orderKey (ofInt m) < orderKey (ofInt n) := by
  refine Int.add_one_le_iff.mp (orderKey_ofInt_add_le position (2 ^ 53) le_rfl
    (fun k hk hk' => ?_) (fun hk hl hlt => ?_) hm hn h)
  · have hlog : (-1074 : Int) ≤ k.log2 - 52 := by omega
    exact ⟨place_pos hlog, orderKey_ofInt_natural hk hk', orderKey_ofInt_negative hk hk'⟩
  · have := position_lt hk hl hlt
    omega

lemma orderKey_ofInt_lt_iff {m n : Int} (hm : m.natAbs < 2 ^ 53) (hn : n.natAbs < 2 ^ 53) :
    orderKey (ofInt m) < orderKey (ofInt n) ↔ m < n := by
  refine ⟨fun h => ?_, fun h => orderKey_ofInt_lt (by omega) (by omega) h⟩
  by_contra hle
  rcases (not_lt.mp hle).lt_or_eq with hlt | rfl
  · exact lt_asymm h (orderKey_ofInt_lt (by omega) (by omega) hlt)
  · exact lt_irrefl _ h

end

end TemporalAlgebra.Binary64
