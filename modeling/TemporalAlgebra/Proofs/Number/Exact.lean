import TemporalAlgebra.Proofs.Number.Order
import TemporalAlgebra.Proofs.Number.Quotient

/-!
# Exact arithmetic of integers

Sums, differences and products of integers are computed without rounding as long as they have at
most 53 bits. A quotient is rounded, by less than a unit in its last place. That is never as far as
to the next integer, so the greatest integer below the rounded quotient is that below the exact one.
-/
namespace TemporalAlgebra.Binary64

open Float.Model (Format UnpackedFloat totalExponent)
open Float.Model.UnpackedFloat

lemma shape_injective {x y : Float} (h : shape x = shape y) : x = y := by
  have hbits : x.toBits.toNat = y.toBits.toNat := by
    rw [← toNat_pack_shape, h, toNat_pack_shape]
  refine orderKey_injective ?_
  rw [orderKey_of_bits hbits]
  rfl

section

variable {a b : Int}

lemma exists_sign_apply (ha : a ≠ 0) : ∃ (s : Sign) (n : Nat), n ≠ 0 ∧ s.apply n = a := by
  rcases Int.lt_or_gt_of_ne ha with hneg | hpos
  · exact ⟨.negative, a.natAbs, by omega, by change -(a.natAbs : Int) = a; omega⟩
  · exact ⟨.positive, a.natAbs, by omega, by change (a.natAbs : Int) = a; omega⟩

lemma natAbs_apply (s : Sign) (n : Nat) : (s.apply n).natAbs = n := by
  cases s with
  | negative => exact Int.natAbs_neg _
  | positive => rfl

lemma apply_mul (s : Sign) (m n : Nat) : s.apply (m * n : Nat) = s.apply m * n := by
  cases s with
  | negative =>
    change -((m * n : Nat) : Int) = -m * n
    rw [Int.natCast_mul, Int.neg_mul]
  | positive => exact Int.natCast_mul m n

lemma neg_apply (s : Sign) (n : Int) : (-s).apply n = -s.apply n := by
  cases s with
  | negative => exact (Int.neg_neg n).symm
  | positive => rfl

lemma shape_ofInt (s : Sign) {n : Nat} (hn : n ≠ 0) (hn' : n < 2 ^ 53) :
    shape (ofInt (s.apply n)) = .finite s (mantissa n) (n.log2 - 52) (mantissa_pos hn) := by
  have hlog : n.log2 ≤ 52 := Nat.lt_succ_iff.mp ((Nat.log2_lt hn).mpr hn')
  have hmantissa := log2_mantissa hn hn'
  have hunpack : ∀ s, unpack .binary64 (pack .binary64 (.finite s (mantissa n) (n.log2 - 52)
      (mantissa_pos hn))) = .finite s (mantissa n) (n.log2 - 52) (mantissa_pos hn) :=
    fun _ => unpack_pack hmantissa (by omega) (by omega) _
  cases s with
  | positive =>
    change shape (ofInt n) = _
    rw [ofInt_natural hn hn' (mantissa_pos hn)]
    exact hunpack _
  | negative =>
    change shape (ofInt (-n)) = _
    rw [ofInt_negative hn, ofInt_natural hn hn' (mantissa_pos hn), neg_ofModel, hunpack]
    exact hunpack _

lemma shape_zero : shape (ofInt 0) = .zero .positive := rfl

/-- Any number of zeros may stand behind an integer before it is rounded. -/
lemma normalize_scaled (ha : a.natAbs < 2 ^ 53) (k : Nat) :
    UnpackedFloat.normalize .binary64 (a * 2 ^ k) (-k) .positive = shape (ofInt a) := by
  by_cases hzero : a = 0
  · subst hzero
    rw [Int.zero_mul, shape_zero]
    rfl
  obtain ⟨s, n, hn, rfl⟩ := exists_sign_apply hzero
  rw [natAbs_apply] at ha
  have hpos : 0 < n * 2 ^ k := Nat.mul_pos (Nat.pos_of_ne_zero hn) (Nat.two_pow_pos k)
  have hscaled : s.apply n * 2 ^ k = s.apply (n * 2 ^ k : Nat) := by
    rw [apply_mul, Int.natCast_pow]
    rfl
  rw [hscaled, shape_ofInt s hn ha, ← round_natural hn ha k]
  generalize n * 2 ^ k = m at hpos
  cases s with
  | positive =>
    change UnpackedFloat.normalize .binary64 (m : Int) (-k) .positive = _
    unfold UnpackedFloat.normalize
    rw [Int.compare_eq_gt.mpr (by omega)]
    rfl
  | negative =>
    change UnpackedFloat.normalize .binary64 (-m : Int) (-k) .positive = _
    unfold UnpackedFloat.normalize
    rw [Int.compare_eq_lt.mpr (by omega), Int.neg_neg]
    rfl

lemma apply_decreaseExponent (s : Sign) {n : Nat} (hn : n ≠ 0) (hn' : n < 2 ^ 53) {k : Nat}
    (hk : -(k : Int) ≤ n.log2 - 52) :
    s.apply ((decreaseExponent (mantissa n) (n.log2 - 52) (-k)).1 : Nat) =
      s.apply n * 2 ^ k := by
  have hlog : n.log2 ≤ 52 := Nat.lt_succ_iff.mp ((Nat.log2_lt hn).mpr hn')
  have hshift : (decreaseExponent (mantissa n) (n.log2 - 52) (-k)).1 = n * 2 ^ k := by
    change mantissa n <<< ((n.log2 : Int) - 52 - -k).toNat = n * 2 ^ k
    rw [Nat.shiftLeft_eq, mantissa, Nat.mul_assoc, ← Nat.pow_add]
    congr 2
    omega
  rw [hshift, apply_mul, Int.natCast_pow]
  rfl

lemma ofInt_cases (ha : a.natAbs < 2 ^ 53) : a = 0 ∨ ∃ (s : Sign) (n : Nat) (hn : n ≠ 0),
    n < 2 ^ 53 ∧ s.apply n = a ∧
      shape (ofInt a) = .finite s (mantissa n) (n.log2 - 52) (mantissa_pos hn) := by
  by_cases ha₀ : a = 0
  · exact Or.inl ha₀
  · obtain ⟨s, n, hn, rfl⟩ := exists_sign_apply ha₀
    rw [natAbs_apply] at ha
    exact Or.inr ⟨s, n, hn, ha, rfl, shape_ofInt s hn ha⟩

lemma add_zero_ofInt (ha : a.natAbs < 2 ^ 53) :
    UnpackedFloat.add .binary64 (.zero .positive) (shape (ofInt a)) = shape (ofInt a) ∧
      UnpackedFloat.add .binary64 (shape (ofInt a)) (.zero .positive) = shape (ofInt a) := by
  rcases ofInt_cases ha with rfl | ⟨s, n, hn, -, -, hshape⟩
  · exact ⟨rfl, rfl⟩
  · rw [hshape]
    exact ⟨rfl, rfl⟩

/-- A sum of integers is computed exactly. -/
theorem ofInt_add (ha : a.natAbs < 2 ^ 53) (hb : b.natAbs < 2 ^ 53)
    (hab : (a + b).natAbs < 2 ^ 53) : ofInt a + ofInt b = ofInt (a + b) := by
  refine shape_injective ?_
  rw [shape_add]
  rcases ofInt_cases ha with rfl | ⟨s, m, hm, hm', hsm, hshape⟩
  · rw [Int.zero_add, shape_zero, (add_zero_ofInt hb).1, kept_shape]
  rcases ofInt_cases hb with rfl | ⟨t, n, hn, hn', htn, hshape'⟩
  · rw [Int.add_zero, shape_zero, (add_zero_ofInt ha).2, kept_shape]
  -- both mantissas are brought to the smaller exponent, which is not positive
  obtain ⟨k, hk⟩ : ∃ k : Nat, Min.min ((m.log2 : Int) - 52) (n.log2 - 52) = -k := by
    have hlog : m.log2 ≤ 52 := Nat.lt_succ_iff.mp ((Nat.log2_lt hm).mpr hm')
    exact ⟨(-Min.min ((m.log2 : Int) - 52) (n.log2 - 52)).toNat, by omega⟩
  have hsum : UnpackedFloat.add .binary64 (shape (ofInt a)) (shape (ofInt b)) =
      UnpackedFloat.normalize .binary64 ((a + b) * 2 ^ k) (-k) .positive := by
    rw [hshape, hshape', Int.add_mul, ← hsm, ← htn,
      ← apply_decreaseExponent s hm hm' (by omega : -(k : Int) ≤ m.log2 - 52),
      ← apply_decreaseExponent t hn hn' (by omega : -(k : Int) ≤ n.log2 - 52), ← hk]
    rfl
  rw [hsum, normalize_scaled hab, kept_shape]

lemma sub_zero_ofInt (ha : a.natAbs < 2 ^ 53) :
    UnpackedFloat.sub .binary64 (shape (ofInt a)) (.zero .positive) = shape (ofInt a) := by
  rcases ofInt_cases ha with rfl | ⟨s, n, hn, -, -, hshape⟩
  · rfl
  · rw [hshape]
    rfl

lemma sub_eq_add_opposite (a b : UnpackedFloat) :
    UnpackedFloat.sub .binary64 a b = UnpackedFloat.add .binary64 a b.neg := by
  cases a with
  | finite s m e hm =>
    cases b with
    | finite t n f hn =>
      change UnpackedFloat.normalize _ (_ - t.apply _) _ _ =
        UnpackedFloat.normalize _ (_ + (-t).apply _) _ _
      rw [neg_apply, ← Int.sub_eq_add_neg]
    | _ => rfl
  | _ => cases b <;> rfl

lemma ofInt_sub_eq_add (hb₀ : b ≠ 0) (hb : b.natAbs < 2 ^ 53) :
    ofInt a - ofInt b = ofInt a + ofInt (-b) := by
  refine shape_injective ?_
  obtain ⟨t, n, hn, rfl⟩ := exists_sign_apply hb₀
  rw [natAbs_apply] at hb
  rw [shape_sub, shape_add, ← neg_apply, shape_ofInt t hn hb, shape_ofInt (-t) hn hb,
    sub_eq_add_opposite]
  rfl

/-- A difference of integers is computed exactly. -/
theorem ofInt_sub (ha : a.natAbs < 2 ^ 53) (hb : b.natAbs < 2 ^ 53)
    (hab : (a - b).natAbs < 2 ^ 53) : ofInt a - ofInt b = ofInt (a - b) := by
  by_cases hb₀ : b = 0
  · subst hb₀
    refine shape_injective ?_
    rw [Int.sub_zero, shape_sub, shape_zero, sub_zero_ofInt ha, kept_shape]
  · rw [ofInt_sub_eq_add hb₀ hb, Int.sub_eq_add_neg]
    exact ofInt_add ha (by omega) (by omega)

/-- A product of an integer with a positive one is computed exactly. -/
theorem ofInt_mul (hb₀ : 0 < b) (ha : a.natAbs < 2 ^ 53) (hb : b.natAbs < 2 ^ 53)
    (hab : (a * b).natAbs < 2 ^ 53) : ofInt a * ofInt b = ofInt (a * b) := by
  refine shape_injective ?_
  obtain ⟨n, rfl⟩ := Int.eq_ofNat_of_zero_le hb₀.le
  have hn : n ≠ 0 := by omega
  have hshape' : shape (ofInt n) = .finite .positive (mantissa n) (n.log2 - 52)
    (mantissa_pos hn) := shape_ofInt .positive hn (by omega)
  change kept (.mul .binary64 (shape (ofInt a)) (shape (ofInt n))) = _
  rw [hshape']
  rcases ofInt_cases ha with rfl | ⟨s, m, hm, hm', rfl, hshape⟩
  · rw [Int.zero_mul]
    exact kept_zero .positive
  rw [← apply_mul, natAbs_apply] at hab
  have hne : m * n ≠ 0 := Nat.mul_ne_zero hm hn
  have hlogm : m.log2 ≤ 52 := Nat.lt_succ_iff.mp ((Nat.log2_lt hm).mpr hm')
  have hlogn : n.log2 ≤ 52 := Nat.lt_succ_iff.mp ((Nat.log2_lt hn).mpr (by omega))
  have hlog : m.log2 + n.log2 ≤ (m * n).log2 := by
    rw [Nat.le_log2 hne, Nat.pow_add]
    exact Nat.mul_le_mul (Nat.log2_self_le hm) (Nat.log2_self_le hn)
  have hsign : s * .positive = s := by cases s <;> rfl
  have hmantissas : mantissa m * mantissa n =
      m * n * 2 ^ (52 - m.log2 + (52 - n.log2)) := by
    unfold mantissa
    rw [Nat.pow_add]
    ring
  have hexponents : (m.log2 - 52 + (n.log2 - 52) : Int) =
      -(52 - m.log2 + (52 - n.log2) : Nat) := by omega
  have hproduct : UnpackedFloat.mul .binary64 (shape (ofInt (s.apply m)))
      (.finite .positive (mantissa n) (n.log2 - 52) (mantissa_pos hn)) =
        shape (ofInt (s.apply (m * n : Nat))) := by
    rw [hshape, shape_ofInt s hne hab, ← roundWithAccuracy_natural hne hab
      (by omega : 52 ≤ (m * n).log2 + (52 - m.log2 + (52 - n.log2))), ← hmantissas, ← hexponents,
      ← hsign]
    cases s <;> rfl
  rw [hproduct, kept_shape, apply_mul]

lemma ofInt_injective (ha : a.natAbs < 2 ^ 53) (hb : b.natAbs < 2 ^ 53)
    (h : ofInt a = ofInt b) : a = b := by
  have hlt := orderKey_ofInt_lt_iff ha hb
  have hgt := orderKey_ofInt_lt_iff hb ha
  rw [h] at hlt hgt
  omega

lemma eq_of_beq_ofInt (ha : a.natAbs < 2 ^ 53) (hb : b.natAbs < 2 ^ 53)
    (h : (ofInt a == ofInt b) = true) : a = b := by
  rcases ((beq_iff _ _).mp h).1 with hsame | ⟨s, t, hs, ht⟩
  · exact ofInt_injective ha hb (shape_injective hsame)
  · rcases ofInt_cases ha with rfl | ⟨_, _, _, _, _, hshape⟩
    · rcases ofInt_cases hb with rfl | ⟨_, _, _, _, _, hshape⟩
      · rfl
      · rw [hshape] at ht
        cases ht
    · rw [hshape] at hs
      cases hs

lemma parts_ofInt_ne_nan (ha : a.natAbs < 2 ^ 53) : parts (ofInt a) ≠ .nan :=
  parts_ne_nan_of_isFinite (isFinite_ofInt (by omega) (by omega))

lemma ofInt_lt (ha : a.natAbs < 2 ^ 53) (hb : b.natAbs < 2 ^ 53) (h : a < b) :
    ofInt a < ofInt b := by
  have hle := le_of_orderKey_le (parts_ofInt_ne_nan ha) (parts_ofInt_ne_nan hb)
    ((orderKey_ofInt_lt_iff ha hb).mpr h).le
  refine (lt_or_beq_of_le hle).resolve_right fun heq => ?_
  have := eq_of_beq_ofInt ha hb heq
  omega

/-- Integers of at most 53 bits compare as their numbers do. -/
theorem ofInt_lt_iff (ha : a.natAbs < 2 ^ 53) (hb : b.natAbs < 2 ^ 53) :
    ofInt a < ofInt b ↔ a < b := by
  refine ⟨fun h => ?_, ofInt_lt ha hb⟩
  by_contra hle
  rcases (Int.not_lt.mp hle).eq_or_lt with rfl | hlt
  · exact lt_irrefl _ (lt_iff.mp h).2.2
  · exact lt_irrefl _ (lt_iff.mp (lt_trans h (ofInt_lt hb ha hlt))).2.2

end

end TemporalAlgebra.Binary64
