import Mathlib.Tactic.Linarith
import TemporalAlgebra.Proofs.Number.Exact

/-!
# Integers below quotients

A quotient of integers is rounded by less than a unit in its last place. That is not as far as to
the next integer, because the exact quotient differs from an integer that it is not by at least one
part of the divisor. So the greatest integer below the rounded quotient is that below the exact one.
-/
namespace TemporalAlgebra.Binary64

open Float.Model (Format UnpackedFloat totalExponent)
open Float.Model.UnpackedFloat

section

variable {x : Float} {s : Sign} {m : Nat} {e : Int} {hpos : 0 < m}

lemma parts_of_shape (h : shape x = .finite s m e hpos) :
    ∃ negative, parts x = .finite negative m e ∧ signOf negative = s := by
  rw [shape_eq] at h
  cases hparts : parts x with
  | nan =>
    rw [hparts] at h
    cases h
  | infinite negative =>
    rw [hparts] at h
    cases h
  | finite negative n f =>
    rw [hparts] at h
    change finiteShape negative n f = _ at h
    rcases Nat.eq_zero_or_pos n with rfl | hn
    · cases h
    · rw [finiteShape_of_pos hn] at h
      cases h
      exact ⟨negative, rfl, rfl⟩

lemma negative_of_parts {negative : Bool} (h : parts x = .finite negative m e) :
    negative = decide (2 ^ 63 ≤ x.toBits.toNat) := by
  unfold parts at h
  dsimp only at h
  split_ifs at h <;> exact (Parts.finite.inj h).1.symm

lemma neg_div_up (m : Nat) {unit : Nat} (hunit : 0 < unit) :
    -(((m + (unit - 1)) / unit : Nat) : Int) = -m / unit := by
  have hdiv := Nat.div_add_mod (m + (unit - 1)) unit
  have hmod := Nat.mod_lt (m + (unit - 1)) hunit
  generalize (m + (unit - 1)) / unit = q at hdiv ⊢
  have hsum : ((unit * q : Nat) : Int) = unit * q := Int.natCast_mul unit q
  refine le_antisymm (Int.le_ediv_of_mul_le (by omega) ?_)
    (Int.lt_add_one_iff.mp (Int.ediv_lt_of_lt_mul (by omega) ?_))
  · rw [Int.neg_mul, Int.mul_comm]
    omega
  · rw [Int.add_mul, Int.neg_mul, Int.mul_comm q, Int.one_mul]
    omega

lemma floor?_of_shape (h : shape x = .finite s m e hpos) (he : e ≤ 0) :
    floor? x = some (s.apply m / (2 ^ (-e).toNat : Nat)) := by
  obtain ⟨negative, hparts, rfl⟩ := parts_of_shape h
  unfold floor?
  rw [hparts]
  cases negative with
  | false =>
    change some ((Rounding.down.magnitude m e : Nat) : Int) = _
    rw [magnitude_of_nonpos .down he]
    rfl
  | true =>
    change some (-((Rounding.up.magnitude m e : Nat) : Int)) = _
    rw [magnitude_of_nonpos .up he, neg_div_up m (Nat.two_pow_pos _)]
    rfl

end

section

variable {a b : Int}

/-- An integer is the integer nearest to its number. -/
theorem nearest?_ofInt (ha : a.natAbs < 2 ^ 53) : nearest? (ofInt a) = some a := by
  rcases ofInt_cases ha with rfl | ⟨s, n, hn, hn', rfl, hshape⟩
  · decide +kernel
  obtain ⟨negative, hparts, rfl⟩ := parts_of_shape hshape
  unfold nearest?
  rw [hparts]
  dsimp only
  rw [magnitude_mantissa hn hn']
  cases negative <;> rfl

lemma roundDiv_bounds (num : Nat) {den : Nat} (h : 0 < den) :
    Decimal.roundDiv num den * den < num + den ∧ num < Decimal.roundDiv num den * den + den := by
  have hsum := Nat.div_add_mod' num den
  have hrest := Nat.mod_lt num h
  have hparity : num / den % 2 = 0 ∨ num / den % 2 = 1 := Nat.mod_two_eq_zero_or_one _
  unfold Decimal.roundDiv
  dsimp only
  split_ifs
  · omega
  · rw [Nat.add_mul]
    omega
  · rw [Nat.add_mul]
    rcases hparity with heven | hodd
    · rw [heven]
      omega
    · rw [hodd]
      omega

/-- A rounded quotient differs from the exact one by less than a unit in its last place. -/
lemma roundedOff_quotient_bounds (m k : Nat) {n : Nat} (hn : 0 < n) :
    roundedOff (m / n) k (accuracyOfFraction (m % n) n) * (n * 2 ^ k) < m + n * 2 ^ k ∧
      m < roundedOff (m / n) k (accuracyOfFraction (m % n) n) * (n * 2 ^ k) + n * 2 ^ k := by
  rw [roundedOff_quotient m k hn]
  exact roundDiv_bounds m (Nat.mul_pos hn (Nat.two_pow_pos k))

/-- What differs from a multiple of a quotient by less than that multiple of one part has the same
integer below it. -/
lemma ediv_eq_of_near {q d unit : Int} (hd : 0 < d) (hunit : d ≤ unit)
    (hlt : q * d < a * unit + d) (hgt : a * unit < q * d + d) : q / unit = a / d := by
  have hsum := Int.emod_add_mul_ediv a d
  have hlower := Int.emod_nonneg a hd.ne'
  have hupper := Int.emod_lt_of_pos a hd
  generalize a % d = r at hsum hlower hupper
  generalize a / d = p at hsum
  subst hsum
  refine le_antisymm (Int.lt_add_one_iff.mp (Int.ediv_lt_of_lt_mul (by omega) ?_))
    (Int.le_ediv_of_mul_le (by omega) ?_)
  · nlinarith
  · nlinarith

lemma apply_lt_add (s : Sign) {m n d : Nat} (h : m < n + d) (h' : n < m + d) :
    s.apply m < s.apply n + d := by
  cases s with
  | negative =>
    change -(m : Int) < -(n : Int) + d
    omega
  | positive =>
    change (m : Int) < n + d
    omega

lemma apply_double_ediv (s : Sign) (q k : Nat) :
    s.apply (q * 2 : Nat) / (2 ^ (k + 1) : Nat) = s.apply q / (2 ^ k : Nat) := by
  rw [apply_mul, Nat.pow_succ, Int.natCast_mul]
  exact Int.mul_ediv_mul_of_pos_left _ _ (by decide)

/-- A quotient with a numerator of fewer than 52 bits, rounded: it counts parts of one that are
smaller than one part of the divisor, and the count is right but for less than one. -/
lemma exists_floor?_quotient {s : Sign} {n d : Nat} (hn : n ≠ 0) (hn' : n < 2 ^ 51) (hd : d ≠ 0)
    (hd' : d < 2 ^ 53) : ∃ q k, d < 2 ^ k ∧ q * d < n * 2 ^ k + d ∧ n * 2 ^ k < q * d + d ∧
      floor? (ofInt (s.apply n) / ofInt d) = some (s.apply q / (2 ^ k : Nat)) ∧
      ∃ m e, ∃ hpos : 0 < m, shape (ofInt (s.apply n) / ofInt d) = .finite s m e hpos := by
  have hlogn : n.log2 ≤ 50 := Nat.lt_succ_iff.mp ((Nat.log2_lt hn).mpr hn')
  have hlogd : d.log2 ≤ 52 := Nat.lt_succ_iff.mp ((Nat.log2_lt hd).mpr hd')
  have hnum := log2_mantissa hn (by omega)
  have hden := log2_mantissa hd hd'
  obtain ⟨j, hj, hlog⟩ := log2_quotient hnum hden
  obtain ⟨m, e, hpos, hm, hlo, hhi, hsame, hround⟩ := exists_rounded (s := s)
    (e := (n.log2 - 52 : Int) - (d.log2 - 52) - 53) hlog (by omega) (by omega)
    (accuracyOfFraction (mantissa n * 2 ^ 53 % mantissa d) (mantissa d))
  have hbounds := roundedOff_quotient_bounds (mantissa n * 2 ^ 53) j (mantissa_pos hd)
  generalize roundedOff (mantissa n * 2 ^ 53 / mantissa d) j
    (accuracyOfFraction (mantissa n * 2 ^ 53 % mantissa d) (mantissa d)) = q at hsame hbounds
  -- the zeros behind the numerator that the divisor has too do not count
  obtain ⟨k, hk⟩ : ∃ k : Nat, k = 53 + d.log2 - n.log2 - j := ⟨_, rfl⟩
  have hnum' : mantissa n * 2 ^ 53 = n * 2 ^ k * 2 ^ (52 - d.log2 + j) := by
    rw [mantissa, Nat.mul_assoc, Nat.mul_assoc, ← Nat.pow_add, ← Nat.pow_add]
    congr 2
    omega
  have hden' : mantissa d * 2 ^ j = d * 2 ^ (52 - d.log2 + j) := by
    rw [mantissa, Nat.mul_assoc, ← Nat.pow_add]
  rw [hnum', hden', ← Nat.mul_assoc, ← Nat.add_mul, ← Nat.add_mul] at hbounds
  have hshape : shape (ofInt (s.apply n) / ofInt d) = .finite s m e hpos := by
    change kept (.div .binary64 (shape (ofInt (s.apply n))) (shape (ofInt (Sign.positive.apply d))))
      = _
    rw [shape_ofInt s hn (by omega), shape_ofInt .positive hd hd', div_finite hnum hden (by omega)]
    have hsign : s / .positive = s := by cases s <;> rfl
    rw [hsign, hround]
    exact unpack_pack hm hlo hhi hpos
  refine ⟨q, k, ?_, ?_, ?_, ?_, m, e, hpos, hshape⟩
  · calc d < 2 ^ (d.log2 + 1) := Nat.lt_log2_self
      _ ≤ 2 ^ k := Nat.pow_le_pow_right (by decide) (by omega)
  · exact Nat.lt_of_mul_lt_mul_right hbounds.1
  · exact Nat.lt_of_mul_lt_mul_right hbounds.2
  · rw [floor?_of_shape hshape (by omega)]
    rcases hsame with ⟨rfl, rfl⟩ | ⟨rfl, rfl, rfl⟩
    · congr 4
      omega
    · have hshift : (-((n.log2 - 52 : Int) - (d.log2 - 52) - 53 + j + 1)).toNat + 1 = k := by omega
      rw [← hshift]
      exact congrArg some (apply_double_ediv s (2 ^ 52) _).symm

lemma integral_some {x : Float} (h : a = 0 → x.toBits.toNat < 2 ^ 63) :
    integral x (some a) = ofInt a := by
  unfold integral
  split
  · rename_i heq
    cases heq
  · rename_i heq
    obtain rfl := Option.some.inj heq
    rw [if_pos (h rfl)]
    rfl
  · rename_i n hne heq
    obtain rfl := Option.some.inj heq
    rfl

/-- The greatest integer below the rounded quotient of two integers is that below the exact one. -/
theorem floor_div (ha : a.natAbs < 2 ^ 51) (hb₀ : 0 < b) (hb : b.natAbs < 2 ^ 53) :
    floor (ofInt a / ofInt b) = ofInt (a / b) := by
  obtain ⟨d, rfl⟩ := Int.eq_ofNat_of_zero_le hb₀.le
  have hd : d ≠ 0 := by omega
  by_cases ha₀ : a = 0
  · subst ha₀
    have hzero : ofInt 0 / ofInt d = ofInt 0 := by
      refine shape_injective ?_
      change kept (.div .binary64 (shape (ofInt 0)) (shape (ofInt (Sign.positive.apply d)))) = _
      rw [shape_ofInt .positive hd (by omega), shape_zero]
      exact kept_zero .positive
    rw [hzero, Int.zero_ediv]
    decide +kernel
  obtain ⟨s, n, hn, rfl⟩ := exists_sign_apply ha₀
  rw [natAbs_apply] at ha
  obtain ⟨q, k, hk, hlt, hgt, hfloor, m, e, hpos, hshape⟩ :=
    exists_floor?_quotient (s := s) hn ha hd (by omega)
  have hquot : s.apply q / (2 ^ k : Nat) = s.apply n / d := by
    refine ediv_eq_of_near hb₀ (by omega) ?_ ?_ <;> rw [← apply_mul, ← apply_mul]
    · exact apply_lt_add s hlt hgt
    · exact apply_lt_add s hgt hlt
  obtain ⟨negative, hparts, rfl⟩ := parts_of_shape hshape
  refine (congrArg _ (hfloor.trans (congrArg some hquot))).trans (integral_some fun hzero => ?_)
  cases negative with
  | false =>
    have := negative_of_parts hparts
    simpa using this.symm
  | true =>
    have : -(n : Int) / d < 0 := Int.ediv_neg_of_neg_of_pos (by omega) hb₀
    change -(n : Int) / d = 0 at hzero
    omega

end

end TemporalAlgebra.Binary64
