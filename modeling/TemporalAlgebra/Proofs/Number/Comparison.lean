import TemporalAlgebra.Proofs.Number.Integral

/-!
# Numbers compared by their position

Comparison takes numbers apart, the total order compares their bits. Numbers that are not NaN and
stand in a row in the total order compare in the same way.
-/
namespace TemporalAlgebra.Binary64

open Float.Model (UnpackedFloat Format)
open Float.Model.UnpackedFloat

def signOf (negative : Bool) : Sign := if negative then .negative else .positive

/-- Position of a number up to its sign. -/
def magnitude (x : Float) : Nat := x.toBits.toNat % 2 ^ 63

lemma unpackExponent_toNat (x : Float) :
    (@unpackExponent .binary64 x.toBits.toBitVec).toNat =
      x.toBits.toNat / 2 ^ 52 % 2 ^ 11 := by
  unfold unpackExponent BitVec.extractLsb
  rw [BitVec.toNat_cast, BitVec.extractLsb'_toNat, Nat.shiftRight_eq_div_pow]
  rfl

lemma unpackMantissa_toNat (x : Float) :
    (@unpackMantissa .binary64 x.toBits.toBitVec).toNat = x.toBits.toNat % 2 ^ 52 := by
  unfold unpackMantissa BitVec.extractLsb
  rw [BitVec.toNat_cast, BitVec.extractLsb'_toNat, Nat.shiftRight_eq_div_pow, Nat.pow_zero,
    Nat.div_one]
  rfl

lemma unpackSign_eq (x : Float) :
    Sign.ofBitVec (@unpackSign .binary64 x.toBits.toBitVec) =
      signOf (decide (2 ^ 63 ≤ x.toBits.toNat)) := by
  have hlt := x.toBits.toNat_lt
  have hsign : (@unpackSign .binary64 x.toBits.toBitVec).toNat =
      x.toBits.toNat / 2 ^ 63 % 2 := by
    unfold unpackSign BitVec.extractLsb
    rw [BitVec.toNat_cast, BitVec.extractLsb'_toNat, Nat.shiftRight_eq_div_pow]
    rfl
  unfold Sign.ofBitVec signOf
  by_cases h : 2 ^ 63 ≤ x.toBits.toNat
  · rw [if_neg, if_pos (decide_eq_true h)]
    intro h0
    rw [h0] at hsign
    change 0 = _ at hsign
    omega
  · rw [if_pos, if_neg (by simpa using h)]
    refine BitVec.eq_of_toNat_eq ?_
    rw [hsign]
    change _ = 0
    omega

/-- A finite number with some sign, mantissa and exponent. -/
def finiteShape (negative : Bool) (m : Nat) (e : Int) : UnpackedFloat :=
  if h : 0 < m then .finite (signOf negative) m e h else .zero (signOf negative)

lemma finiteShape_of_pos {negative : Bool} {m : Nat} {e : Int} (h : 0 < m) :
    finiteShape negative m e = .finite (signOf negative) m e h := dif_pos h

def shapeOf : Parts → UnpackedFloat
  | .nan => .notANumber
  | .infinite negative => .infinity (signOf negative)
  | .finite negative m e => finiteShape negative m e

/-- A number is taken apart as its parts say. -/
lemma shape_eq (x : Float) : shape x = shapeOf (parts x) := by
  have hexponent := unpackExponent_toNat x
  have hmantissa := unpackMantissa_toNat x
  have hfull : @unpackExponent .binary64 x.toBits.toBitVec = -1#11 ↔
      x.toBits.toNat / 2 ^ 52 % 2 ^ 11 = 2047 := by
    rw [← BitVec.toNat_inj, hexponent]
    rfl
  have hnone : @unpackExponent .binary64 x.toBits.toBitVec = 0#11 ↔
      x.toBits.toNat / 2 ^ 52 % 2 ^ 11 = 0 := by
    rw [← BitVec.toNat_inj, hexponent]
    rfl
  have hzero : @unpackMantissa .binary64 x.toBits.toBitVec = 0#52 ↔
      x.toBits.toNat % 2 ^ 52 = 0 := by
    rw [← BitVec.toNat_inj, hmantissa]
    rfl
  change unpack .binary64 x.toBits.toBitVec = _
  unfold unpack parts shapeOf finiteShape
  dsimp only
  rw [unpackSign_eq]
  by_cases hE : x.toBits.toNat / 2 ^ 52 % 2 ^ 11 = 2047
  · rw [if_pos (hfull.mpr hE), if_pos hE]
    by_cases hM : x.toBits.toNat % 2 ^ 52 = 0
    · rw [if_pos (hzero.mpr hM), if_pos hM]
    · rw [if_neg (hzero.not.mpr hM), if_neg hM]
  · rw [if_neg (hfull.not.mpr hE), if_neg hE]
    by_cases hE' : x.toBits.toNat / 2 ^ 52 % 2 ^ 11 = 0
    · rw [if_pos (hnone.mpr hE'), if_pos hE']
      by_cases hM : x.toBits.toNat % 2 ^ 52 = 0
      · rw [dif_pos (hzero.mpr hM)]
        dsimp only
        rw [dif_neg (by omega)]
      · rw [dif_neg (hzero.not.mpr hM)]
        dsimp only
        rw [dif_pos (Nat.pos_of_ne_zero hM)]
        refine finite_congr hmantissa ?_
        rw [hexponent, hE']
        rfl
    · rw [if_neg (hnone.not.mpr hE'), if_neg hE']
      dsimp only
      rw [dif_pos (by omega)]
      refine finite_congr ?_ ?_
      · rw [BitVec.toNat_append, ← Nat.shiftLeft_add_eq_or_of_lt (BitVec.isLt _), hmantissa]
        change 2 ^ 52 + _ = _
        exact Nat.add_comm _ _
      · rw [hexponent]
        rfl

/-- Exponents and mantissas of finite numbers in the order of their magnitudes. -/
def LexLE (m : Nat) (e : Int) (n : Nat) (f : Int) : Prop :=
  (e < f ∨ e = f ∧ m ≤ n) ∧ (n = 0 → m = 0)

/-- Of finite numbers, the one with the smaller magnitude has the smaller exponent, or the same
exponent and the smaller mantissa. -/
lemma lexLE_of_magnitude_le {x y : Float} {s t : Bool} {m n : Nat} {e f : Int}
    (hx : parts x = .finite s m e) (hy : parts y = .finite t n f) (h : magnitude x ≤ magnitude y) :
    LexLE m e n f := by
  unfold magnitude at h
  unfold parts at hx hy
  dsimp only at hx hy
  have := x.toBits.toNat_lt
  have := y.toBits.toNat_lt
  unfold LexLE
  split_ifs at hx hy <;> simp only [Parts.finite.injEq] at hx hy <;> omega

lemma LexLE.compare_isLE {m n : Nat} {e f : Int} (h : LexLE m e n f) :
    ((compare e f).then (compare m n)).isLE = true := by
  rcases h.1 with hlt | ⟨rfl, hle⟩
  · rw [Int.compare_eq_lt.mpr hlt]
    rfl
  · rw [Int.compare_eq_eq.mpr rfl, Ordering.eq_then, Nat.isLE_compare]
    exact hle

lemma LexLE.positive_le {m n : Nat} {e f : Int} (h : LexLE m e n f) :
    UnpackedFloat.le (finiteShape false m e) (finiteShape false n f) = true := by
  rcases Nat.eq_zero_or_pos n with rfl | hn
  · rw [h.2 rfl]
    rfl
  · rw [finiteShape_of_pos hn]
    rcases Nat.eq_zero_or_pos m with rfl | hm
    · rfl
    · rw [finiteShape_of_pos hm]
      exact h.compare_isLE

lemma LexLE.negative_le {m n : Nat} {e f : Int} (h : LexLE m e n f) :
    UnpackedFloat.le (finiteShape true n f) (finiteShape true m e) = true := by
  rcases Nat.eq_zero_or_pos n with rfl | hn
  · rw [h.2 rfl]
    rfl
  · rw [finiteShape_of_pos hn]
    rcases Nat.eq_zero_or_pos m with rfl | hm
    · rfl
    · rw [finiteShape_of_pos hm]
      change ((compare f e).then (compare n m)).swap.isLE = true
      rw [Ordering.swap_then, Int.compare_swap, Nat.compare_swap]
      exact h.compare_isLE

lemma infinite_le {p : Parts} (h : p ≠ .nan) :
    UnpackedFloat.le (shapeOf (.infinite true)) (shapeOf p) = true := by
  cases p with
  | nan => exact absurd rfl h
  | infinite negative => cases negative <;> rfl
  | finite negative m e =>
    change UnpackedFloat.le _ (finiteShape negative m e) = true
    rcases Nat.eq_zero_or_pos m with rfl | hm
    · rfl
    · rw [finiteShape_of_pos hm]
      rfl

lemma le_infinite {p : Parts} (h : p ≠ .nan) :
    UnpackedFloat.le (shapeOf p) (shapeOf (.infinite false)) = true := by
  cases p with
  | nan => exact absurd rfl h
  | infinite negative => cases negative <;> rfl
  | finite negative m e =>
    change UnpackedFloat.le (finiteShape negative m e) _ = true
    rcases Nat.eq_zero_or_pos m with rfl | hm
    · rfl
    · rw [finiteShape_of_pos hm]
      rfl

/-- Negative numbers are below positive ones; zeros are equal. -/
lemma negative_le_positive (m : Nat) (e : Int) (n : Nat) (f : Int) :
    UnpackedFloat.le (finiteShape true m e) (finiteShape false n f) = true := by
  rcases Nat.eq_zero_or_pos m with rfl | hm <;> rcases Nat.eq_zero_or_pos n with rfl | hn
  · rfl
  · rw [finiteShape_of_pos hn]
    rfl
  · rw [finiteShape_of_pos hm]
    rfl
  · rw [finiteShape_of_pos hm, finiteShape_of_pos hn]
    rfl

/-- What the position of a number says of its parts. -/
lemma orderKey_of_parts (x : Float) :
    match parts x with
    | .nan => True
    | .infinite negative => orderKey x = if negative then -(2047 * 2 ^ 52) - 1 else 2047 * 2 ^ 52
    | .finite negative _ _ => magnitude x < 2047 * 2 ^ 52 ∧
        orderKey x = if negative then -(magnitude x : Int) - 1 else magnitude x := by
  obtain ⟨bits, hbits⟩ : ∃ bits, bits = x.toBits.toNat := ⟨_, rfl⟩
  have hlt : bits < 2 ^ 64 := hbits ▸ x.toBits.toNat_lt
  unfold parts orderKey magnitude
  rw [← hbits]
  dsimp only
  have hkey : (if 2 ^ 63 ≤ bits then -((bits - 2 ^ 63 : Nat) : Int) - 1 else bits) =
      if decide (2 ^ 63 ≤ bits) = true then -((bits % 2 ^ 63 : Nat) : Int) - 1
      else (bits % 2 ^ 63 : Nat) := by
    by_cases hsign : 2 ^ 63 ≤ bits
    · rw [if_pos hsign, if_pos (decide_eq_true hsign)]
      omega
    · rw [if_neg hsign, if_neg (by simpa using hsign)]
      omega
  rw [hkey]
  by_cases hexponent : bits / 2 ^ 52 % 2 ^ 11 = 2047
  · rw [if_pos hexponent]
    by_cases hfraction : bits % 2 ^ 52 = 0
    · have hmagnitude : bits % 2 ^ 63 = 2047 * 2 ^ 52 := by omega
      rw [if_pos hfraction, hmagnitude]
      rfl
    · rw [if_neg hfraction]
      trivial
  · have hmagnitude : bits % 2 ^ 63 < 2047 * 2 ^ 52 := by omega
    rw [if_neg hexponent]
    by_cases hnormal : bits / 2 ^ 52 % 2 ^ 11 = 0
    · rw [if_pos hnormal]
      exact ⟨hmagnitude, rfl⟩
    · rw [if_neg hnormal]
      exact ⟨hmagnitude, rfl⟩

/-- Numbers that are not NaN are in order if they stand so in the total order. -/
theorem le_of_orderKey_le {x y : Float} (hx : parts x ≠ .nan) (hy : parts y ≠ .nan)
    (h : orderKey x ≤ orderKey y) : x ≤ y := by
  suffices hle : UnpackedFloat.le (shape x) (shape y) = true from decide_eq_true hle
  have hxkey := orderKey_of_parts x
  have hykey := orderKey_of_parts y
  rw [shape_eq, shape_eq]
  cases hxp : parts x with
  | nan => exact absurd hxp hx
  | infinite s =>
    cases s with
    | true => exact infinite_le hy
    | false =>
      simp only [hxp] at hxkey
      cases hyp : parts y with
      | nan => exact absurd hyp hy
      | infinite t =>
        cases t with
        | false => rfl
        | true =>
          simp only [hyp] at hykey
          simp [hxkey, hykey] at h
      | finite t n f =>
        simp only [hyp] at hykey
        have := hykey.1
        cases t <;> simp [hxkey, hykey.2] at h <;> omega
  | finite s m e =>
    simp only [hxp] at hxkey
    cases hyp : parts y with
    | nan => exact absurd hyp hy
    | infinite t =>
      cases t with
      | false => exact le_infinite (by simp)
      | true =>
        simp only [hyp] at hykey
        have := hxkey.1
        cases s <;> simp [hxkey.2, hykey] at h <;> omega
    | finite t n f =>
      simp only [hyp] at hykey
      rw [hxkey.2, hykey.2] at h
      change UnpackedFloat.le (finiteShape s m e) (finiteShape t n f) = true
      cases s <;> cases t
      · exact (lexLE_of_magnitude_le hxp hyp (by simpa using h)).positive_le
      · simp at h
        omega
      · exact negative_le_positive m e n f
      · exact (lexLE_of_magnitude_le hyp hxp (by simpa using h)).negative_le

lemma isFinite_iff {x : Float} :
    isFinite x = true ↔ ∃ negative m e, parts x = .finite negative m e := by
  unfold isFinite
  cases parts x <;> simp

lemma parts_ne_nan_of_isFinite {x : Float} (h : isFinite x = true) : parts x ≠ .nan := by
  obtain ⟨negative, m, e, hparts⟩ := isFinite_iff.mp h
  simp [hparts]

lemma isNaN_eq_false {x : Float} (h : parts x ≠ .nan) : x.isNaN = false := by
  change (shape x).isNaN = false
  rw [shape_eq]
  cases hx : parts x with
  | nan => exact absurd hx h
  | infinite negative => rfl
  | finite negative m e =>
    change (finiteShape negative m e).isNaN = false
    rcases Nat.eq_zero_or_pos m with rfl | hm
    · rfl
    · rw [finiteShape_of_pos hm]
      rfl

lemma parts_eq_nan {x : Float} (h : shape x = .notANumber) : parts x = .nan := by
  by_contra hparts
  have hnumber : (shape x).isNaN = false := isNaN_eq_false hparts
  rw [h] at hnumber
  cases hnumber

lemma parts_infinity : parts infinity = .infinite false := by decide

lemma parts_neg_infinity : parts (-infinity) = .infinite true := by decide

lemma between_infinities {x : Float} (h : parts x ≠ .nan) : -infinity ≤ x ∧ x ≤ infinity := by
  have hpositive : shape infinity = shapeOf (.infinite false) := by
    rw [shape_eq, parts_infinity]
  have hnegative : shape (-infinity) = shapeOf (.infinite true) := by
    rw [shape_eq, parts_neg_infinity]
  have hle : UnpackedFloat.le (shape (-infinity)) (shape x) = true := by
    rw [hnegative, shape_eq]
    exact infinite_le h
  have hge : UnpackedFloat.le (shape x) (shape infinity) = true := by
    rw [hpositive, shape_eq]
    exact le_infinite h
  exact ⟨decide_eq_true hle, decide_eq_true hge⟩

end TemporalAlgebra.Binary64
