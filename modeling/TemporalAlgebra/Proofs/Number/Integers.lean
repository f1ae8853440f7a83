import TemporalAlgebra.Proofs.Number.ValueOrder

/-!
# Integers next to numbers

Every finite number has a greatest integer below it and an integer nearest to it, the one farther
from zero if two are as near. Both are those of the rational that the number stands for, and so is
the bounded integer that a number is brought back to.
-/
namespace TemporalAlgebra

lemma Signed.val_clamp (w : ℕ) (n : ℤ) :
    (clamp n : Signed w).val = max (-2 ^ w) (min n (2 ^ w - 1)) := by
  have hpos : (0 : ℤ) < 2 ^ w := Int.pow_pos (by decide)
  unfold clamp
  split_ifs <;> dsimp only <;> omega

namespace Binary64

open Float.Model.UnpackedFloat

/-- An integer nearest to a rational; of two it is the one farther from zero. -/
structure RoundsAway (q : ℚ) (n : ℤ) : Prop where
  close : |(n : ℚ) - q| ≤ 1 / 2
  away : |(n : ℚ) - q| = 1 / 2 → |q| ≤ |(n : ℚ)|

def halfAway (q : ℚ) : ℤ := if q < 0 then -⌊-q + 1 / 2⌋ else ⌊q + 1 / 2⌋

section

variable {p q : ℚ} {n : ℤ}

lemma halfAway_of_nonneg (hq : 0 ≤ q) : halfAway q = ⌊q + 1 / 2⌋ := if_neg hq.not_gt

lemma halfAway_neg (q : ℚ) : halfAway (-q) = -halfAway q := by
  rcases lt_trichotomy q 0 with h | rfl | h
  · rw [halfAway_of_nonneg (neg_nonneg.mpr h.le), halfAway, if_pos h, neg_neg]
  · rw [neg_zero, halfAway_of_nonneg le_rfl]
    norm_num
  · rw [halfAway_of_nonneg h.le, halfAway, if_pos (neg_neg_iff_pos.mpr h), neg_neg]

lemma RoundsAway.neg (h : RoundsAway q n) : RoundsAway (-q) (-n) := by
  have hsame : |((-n : ℤ) : ℚ) - -q| = |(n : ℚ) - q| := by
    rw [Int.cast_neg, neg_sub_neg, abs_sub_comm]
  refine ⟨hsame ▸ h.close, fun hhalf => ?_⟩
  rw [abs_neg, Int.cast_neg, abs_neg]
  exact h.away (hsame ▸ hhalf)

lemma roundsAway_iff_of_nonneg (hq : 0 ≤ q) : RoundsAway q n ↔ n = ⌊q + 1 / 2⌋ := by
  rw [eq_comm, Int.floor_eq_iff]
  constructor
  · intro h
    obtain ⟨hlow, hhigh⟩ := abs_le.mp h.close
    refine ⟨by linarith, (by linarith : q + 1 / 2 ≤ n + 1).lt_of_ne fun heq => ?_⟩
    -- the integer below a half is nearer to zero than the half
    have hbelow : (n : ℚ) - q = -(1 / 2) := by linarith
    have hsign : 0 ≤ n := by
      have hn : ((-1 : ℤ) : ℚ) < n := by push_cast; linarith
      have := Int.cast_lt.mp hn
      omega
    have haway := h.away (by rw [hbelow]; norm_num)
    rw [abs_of_nonneg hq, abs_of_nonneg (Int.cast_nonneg hsign)] at haway
    linarith
  · rintro ⟨hlow, hhigh⟩
    refine ⟨abs_le.mpr ⟨by linarith, by linarith⟩, fun hhalf => ?_⟩
    have hn : (n : ℚ) = q + 1 / 2 := by
      rcases eq_or_eq_neg_of_abs_eq hhalf with h | h <;> linarith
    rw [abs_of_nonneg hq, hn, abs_of_nonneg (by linarith)]
    linarith

lemma roundsAway_iff : RoundsAway q n ↔ n = halfAway q := by
  rcases le_or_gt 0 q with hq | hq
  · rw [halfAway_of_nonneg hq, roundsAway_iff_of_nonneg hq]
  · have hpos : 0 ≤ -q := neg_nonneg.mpr hq.le
    rw [← neg_neg q, halfAway_neg, halfAway_of_nonneg hpos, ← neg_eq_iff_eq_neg,
      ← roundsAway_iff_of_nonneg hpos]
    exact ⟨fun h => by simpa using h.neg, fun h => by simpa using h.neg⟩

lemma halfAway_mono (h : p ≤ q) : halfAway p ≤ halfAway q := by
  unfold halfAway
  split_ifs with hp hq hq
  · exact neg_le_neg (Int.floor_mono (by linarith))
  · have hleft : 0 ≤ ⌊-p + 1 / 2⌋ := Int.floor_nonneg.mpr (by linarith)
    have hright : 0 ≤ ⌊q + 1 / 2⌋ := Int.floor_nonneg.mpr (by linarith)
    omega
  · exact absurd (h.trans_lt hq) hp
  · exact Int.floor_mono (by linarith)

end

section

variable {m : ℕ} {e : ℤ}

lemma magnitude_cases (mode : Rounding) (m : ℕ) (e : ℤ) :
    (∃ n : ℕ, (m : ℚ) * 2 ^ e = n ∧ mode.magnitude m e = n) ∨
      ∃ k : ℕ, (m : ℚ) * 2 ^ e = m / (2 * 2 ^ k : ℕ) ∧ e ≤ 0 ∧ 2 ^ (-e).toNat = 2 * 2 ^ k := by
  rcases le_or_gt 0 e with he | he
  · refine Or.inl ⟨m * 2 ^ e.toNat, ?_, if_pos he⟩
    rw [Nat.cast_mul, Nat.cast_pow, Nat.cast_two, ← zpow_natCast, Int.toNat_of_nonneg he]
  · obtain ⟨k, rfl⟩ : ∃ k : ℕ, e = -((k + 1 : ℕ) : ℤ) := ⟨(-e - 1).toNat, by omega⟩
    refine Or.inr ⟨k, ?_, he.le, ?_⟩
    · rw [zpow_neg, zpow_natCast, ← div_eq_mul_inv, pow_succ']
      push_cast
      rfl
    · rw [neg_neg, Int.toNat_natCast, pow_succ']

lemma magnitude_down (m : ℕ) (e : ℤ) :
    (Rounding.down.magnitude m e : ℤ) = ⌊(m : ℚ) * 2 ^ e⌋ := by
  obtain ⟨n, hq, hn⟩ | ⟨k, hq, he, hunit⟩ := magnitude_cases .down m e
  · rw [hq, hn, Int.floor_natCast]
  · rw [hq, magnitude_of_nonpos .down he, Rat.floor_natCast_div_natCast]
    dsimp only
    rw [hunit, Int.natCast_div]

lemma magnitude_up (m : ℕ) (e : ℤ) : (Rounding.up.magnitude m e : ℤ) = ⌈(m : ℚ) * 2 ^ e⌉ := by
  obtain ⟨n, hq, hn⟩ | ⟨k, hq, he, hunit⟩ := magnitude_cases .up m e
  · rw [hq, hn, Int.ceil_natCast]
  · have hneg := neg_div_up m (Nat.mul_pos two_pos (Nat.two_pow_pos k))
    rw [hq, magnitude_of_nonpos .up he]
    dsimp only
    rw [hunit, ← neg_inj, hneg, ← Int.floor_neg, ← neg_div]
    exact_mod_cast (Rat.floor_intCast_div_natCast (-(m : ℤ)) (2 * 2 ^ k)).symm

lemma magnitude_halfUp (m : ℕ) (e : ℤ) :
    (Rounding.halfUp.magnitude m e : ℤ) = ⌊(m : ℚ) * 2 ^ e + 1 / 2⌋ := by
  obtain ⟨n, hq, hn⟩ | ⟨k, hq, he, hunit⟩ := magnitude_cases .halfUp m e
  · rw [hq, hn, Int.floor_natCast_add, add_eq_left.mpr]
    norm_num
  · have hsum : (m : ℚ) / (2 * 2 ^ k : ℕ) + 1 / 2 = (m + 2 ^ k : ℕ) / (2 * 2 ^ k : ℕ) := by
      push_cast
      field_simp
    rw [hq, magnitude_of_nonpos .halfUp he, hsum, Rat.floor_natCast_div_natCast]
    dsimp only
    rw [hunit, Nat.mul_div_cancel_left _ two_pos, Int.natCast_div]

end

section

variable {x y : Float} {n : ℤ}

lemma value_of_parts {negative : Bool} {m : ℕ} {e : ℤ} (h : parts x = .finite negative m e) :
    value x = if negative then -((m : ℚ) * 2 ^ e) else m * 2 ^ e := by
  have hshape : shape x = finiteShape negative m e := by rw [shape_eq, h]; rfl
  unfold value
  rw [hshape]
  rcases Nat.eq_zero_or_pos m with rfl | hm
  · have hzero : finiteShape negative 0 e = .zero (signOf negative) := dif_neg (lt_irrefl 0)
    rw [hzero, Nat.cast_zero, zero_mul, neg_zero, ite_self]
    rfl
  · rw [finiteShape_of_pos hm]
    cases negative with
    | false => exact one_mul _
    | true => exact neg_one_mul _

lemma nearest?_eq (hx : isFinite x = true) : nearest? x = some (halfAway (value x)) := by
  obtain ⟨negative, m, e, hparts⟩ := isFinite_iff.mp hx
  have hpos : (0 : ℚ) ≤ m * 2 ^ e := mul_nonneg (Nat.cast_nonneg m) (zpow_nonneg two_pos.le e)
  have hmagnitude : (Rounding.halfUp.magnitude m e : ℤ) = halfAway (m * 2 ^ e) :=
    (magnitude_halfUp m e).trans (halfAway_of_nonneg hpos).symm
  unfold nearest?
  rw [hparts, value_of_parts hparts]
  cases negative with
  | false => exact congrArg some hmagnitude
  | true => exact congrArg some ((congrArg Neg.neg hmagnitude).trans (halfAway_neg _).symm)

lemma nearest?_eq_some_iff :
    nearest? x = some n ↔ isFinite x = true ∧ RoundsAway (value x) n := by
  rw [roundsAway_iff]
  cases hx : isFinite x with
  | true =>
    rw [nearest?_eq hx, Option.some.injEq, eq_comm]
    exact (and_iff_right rfl).symm
  | false =>
    have hnone : nearest? x = none := by
      unfold isFinite at hx
      unfold nearest?
      cases hparts : parts x <;> simp [hparts] at hx ⊢
    simp [hnone]

lemma floor?_eq (hx : isFinite x = true) : floor? x = some ⌊value x⌋ := by
  obtain ⟨negative, m, e, hparts⟩ := isFinite_iff.mp hx
  unfold floor?
  rw [hparts, value_of_parts hparts]
  cases negative with
  | false => exact congrArg some (magnitude_down m e)
  | true =>
    refine congrArg some ?_
    rw [if_pos rfl, Int.floor_neg, ← magnitude_up]
    rfl

lemma val_toSigned {w : ℕ} (hx : isFinite x = true) :
    (toSigned x : Signed w).val =
      Max.max (-2 ^ w) (Min.min (halfAway (value x)) (2 ^ w - 1)) := by
  obtain ⟨negative, m, e, hparts⟩ := isFinite_iff.mp hx
  have hnearest := nearest?_eq hx
  unfold nearest? at hnearest
  unfold toSigned
  rw [hparts] at hnearest ⊢
  rw [← Option.some.inj hnearest]
  exact Signed.val_clamp w _

end

end Binary64

end TemporalAlgebra
