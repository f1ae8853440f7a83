import TemporalAlgebra.Proofs.Number.Arithmetic

/-!
# The order of values

Finite numbers compare as the rationals that they stand for, and so do their absolute values.
-/
namespace TemporalAlgebra.Binary64

open Float.Model (UnpackedFloat)
open Float.Model.UnpackedFloat

variable {x y : Float}

lemma isFinite_of_shape (hx : (shape x).isFinite = true) : isFinite x = true := by
  rw [shape_eq] at hx
  cases hparts : parts x with
  | finite negative m e => exact isFinite_iff.mpr ⟨negative, m, e, hparts⟩
  | _ =>
    rw [hparts] at hx
    cases hx

lemma isFinite_abs (hx : (shape x).isFinite = true) : (shape x.abs).isFinite = true := by
  rw [shape_abs]
  rcases finite_cases hx with ⟨s, hx₀⟩ | ⟨s, m, e, hm, hx₀, hcx, -⟩
  · rw [hx₀]
    exact congrArg UnpackedFloat.isFinite (kept_zero .positive)
  · have hkept : kept (UnpackedFloat.finite s m e hm).abs = .finite .positive m e hm :=
      hcx.kept_eq (canonical_of_shape hx₀).2
    rw [hx₀, hkept]
    rfl

lemma value_abs (hx : (shape x).isFinite = true) : value x.abs = |value x| := by
  rcases finite_cases hx with ⟨s, hx₀⟩ | ⟨s, m, e, hm, hx₀, hcx, hvx⟩
  · have habs : shape x.abs = .zero .positive := by
      rw [shape_abs, hx₀]
      exact kept_zero .positive
    rw [value_of_zero hx₀, value_of_zero habs, abs_zero]
  · have habs : shape x.abs = .finite .positive m e hm := by
      rw [shape_abs, hx₀]
      exact hcx.kept_eq (canonical_of_shape hx₀).2
    have hnonneg : (0 : ℚ) ≤ m * 2 ^ e := mul_nonneg (Nat.cast_nonneg m) (zpow_nonneg two_pos.le e)
    rw [hvx, abs_mul, abs_factor, abs_of_nonneg hnonneg]
    unfold value
    rw [habs]
    rfl

lemma Canonical.lt_of_lt {m n : ℕ} {e f : ℤ} (hm : Canonical m e) (hn : Canonical n f)
    (h : e < f ∨ e = f ∧ m < n) : (m : ℚ) * 2 ^ e < n * 2 ^ f := by
  have hpow : (0 : ℚ) < 2 ^ e := zpow_pos two_pos e
  rcases h with hlt | ⟨rfl, hlt⟩
  · have hfull : 2 ^ 52 ≤ n := hn.full.resolve_right fun h => by have := hm.le; omega
    calc (m : ℚ) * 2 ^ e < 2 ^ (53 : ℤ) * 2 ^ e :=
          mul_lt_mul_of_pos_right (by exact_mod_cast hm.lt) hpow
      _ = 2 ^ (53 + e) := (two_zpow_add 53 e).symm
      _ ≤ 2 ^ (52 + f) := two_zpow_le (by omega)
      _ = 2 ^ (52 : ℤ) * 2 ^ f := two_zpow_add 52 f
      _ ≤ n * 2 ^ f :=
          mul_le_mul_of_nonneg_right (by exact_mod_cast hfull) (zpow_nonneg two_pos.le f)
  · exact mul_lt_mul_of_pos_right (by exact_mod_cast hlt) hpow

lemma kind_of_isFinite (hx : (shape x).isFinite = true) :
    kind (shape x) = -1 ∧ value x < 0 ∨ kind (shape x) = 0 ∧ value x = 0 ∨
      kind (shape x) = 1 ∧ 0 < value x := by
  rcases finite_cases hx with ⟨s, hx₀⟩ | ⟨s, m, e, hm, hx₀, -, hvx⟩
  · rw [value_of_zero hx₀, hx₀]
    exact Or.inr (Or.inl ⟨rfl, rfl⟩)
  · have hpos : (0 : ℚ) < m * 2 ^ e := mul_pos (Nat.cast_pos.mpr hm) (zpow_pos two_pos e)
    rw [hvx, hx₀]
    cases s with
    | negative => exact Or.inl ⟨rfl, mul_neg_of_neg_of_pos neg_one_lt_zero hpos⟩
    | positive => exact Or.inr (Or.inr ⟨rfl, mul_pos one_pos hpos⟩)

/-- Numbers of one kind are in the order of the rationals that they stand for. -/
lemma value_lt_of_withinKind (hx : (shape x).isFinite = true) (hy : (shape y).isFinite = true)
    (hkind : kind (shape x) = kind (shape y))
    (h : withinKind (shape x) < withinKind (shape y)) : value x < value y := by
  rcases finite_cases hx with ⟨s, hx₀⟩ | ⟨s, m, e, hm, hx₀, hcx, hvx⟩ <;>
    rcases finite_cases hy with ⟨t, hy₀⟩ | ⟨t, n, f, hn, hy₀, hcy, hvy⟩ <;>
    rw [hx₀, hy₀] at hkind h
  · exact absurd h (lt_irrefl _)
  · cases t <;> cases hkind
  · cases s <;> cases hkind
  rw [hvx, hvy]
  cases s with
  | negative =>
    cases t with
    | positive => cases hkind
    | negative =>
      change toLex (-e, -(m : ℤ)) < toLex (-f, -(n : ℤ)) at h
      rw [Prod.Lex.toLex_lt_toLex] at h
      change -1 * ((m : ℚ) * 2 ^ e) < -1 * (n * 2 ^ f)
      rw [neg_one_mul, neg_one_mul, neg_lt_neg_iff]
      exact hcy.lt_of_lt hcx (by omega)
  | positive =>
    cases t with
    | negative => cases hkind
    | positive =>
      change toLex (e, (m : ℤ)) < toLex (f, (n : ℤ)) at h
      rw [Prod.Lex.toLex_lt_toLex] at h
      change 1 * ((m : ℚ) * 2 ^ e) < 1 * (n * 2 ^ f)
      rw [one_mul, one_mul]
      exact hcx.lt_of_lt hcy (by omega)

lemma value_lt_of_lt (hx : (shape x).isFinite = true) (hy : (shape y).isFinite = true)
    (h : x < y) : value x < value y := by
  obtain ⟨-, -, hlt⟩ := lt_iff.mp h
  rw [standing, standing, Prod.Lex.toLex_lt_toLex] at hlt
  rcases hlt with hkind | ⟨hkind, hwithin⟩
  · change kind (shape x) < kind (shape y) at hkind
    rcases kind_of_isFinite hx with ⟨hkx, hvx⟩ | ⟨hkx, hvx⟩ | ⟨hkx, hvx⟩ <;>
      rcases kind_of_isFinite hy with ⟨hky, hvy⟩ | ⟨hky, hvy⟩ | ⟨hky, hvy⟩ <;>
      first | omega | linarith
  · exact value_lt_of_withinKind hx hy hkind hwithin

lemma value_eq_of_same (h : Same (shape x) (shape y)) : value x = value y := by
  rcases h with h | ⟨s, t, hs, ht⟩
  · unfold value
    rw [h]
  · rw [value_of_zero hs, value_of_zero ht]

lemma value_le_of_le (hx : (shape x).isFinite = true) (hy : (shape y).isFinite = true)
    (h : x ≤ y) : value x ≤ value y := by
  rcases lt_or_beq_of_le h with hlt | hbeq
  · exact (value_lt_of_lt hx hy hlt).le
  · exact (value_eq_of_same ((beq_iff x y).mp hbeq).1).le

lemma le_of_value_le (hx : (shape x).isFinite = true) (hy : (shape y).isFinite = true)
    (h : value x ≤ value y) : x ≤ y := by
  have hnx := parts_ne_nan_of_isFinite (isFinite_of_shape hx)
  have hny := parts_ne_nan_of_isFinite (isFinite_of_shape hy)
  rcases le_total (orderKey x) (orderKey y) with hkey | hkey
  · exact le_of_orderKey_le hnx hny hkey
  · rcases lt_or_beq_of_le (le_of_orderKey_le hny hnx hkey) with hlt | hbeq
    · exact absurd (value_lt_of_lt hy hx hlt) h.not_gt
    · exact le_of_lt_or_beq (Or.inr (beq_symm hbeq))

lemma lt_of_value_lt (hx : (shape x).isFinite = true) (hy : (shape y).isFinite = true)
    (h : value x < value y) : x < y := by
  refine (lt_or_beq_of_le (le_of_value_le hx hy h.le)).resolve_right fun hbeq => ?_
  exact h.ne (value_eq_of_same ((beq_iff x y).mp hbeq).1)

lemma isFinite_of_abs_le (hy : (shape y).isFinite = true) (h : x.abs ≤ y) :
    (shape x).isFinite = true := by
  have hle : UnpackedFloat.le (kept (shape x).abs) (shape y) = true := of_decide_eq_true h
  cases hx : shape x with
  | zero s => rfl
  | finite s m e hpos => rfl
  | notANumber =>
    rw [hx] at hle
    cases hle
  | infinity s =>
    have hinfinity : kept (UnpackedFloat.infinity s).abs = .infinity .positive :=
      kept_infinity .positive
    rw [hx, hinfinity] at hle
    rcases finite_cases hy with ⟨t, hy₀⟩ | ⟨t, n, f, hn, hy₀, -, -⟩ <;> rw [hy₀] at hle <;>
      cases t <;> cases hle

lemma shape_one : shape 1.0 = .finite .positive (2 ^ 52) (-52) (by decide) := rfl

lemma value_zero : value 0.0 = 0 := value_of_zero (s := .positive) rfl

lemma value_one : value 1.0 = 1 := by
  unfold value
  rw [shape_one]
  change (1 : ℚ) * ((2 ^ 52 : ℕ) * 2 ^ (-52 : ℤ)) = 1
  norm_num

lemma abs_value_lt (x : Float) : |value x| < 2 ^ (1024 : ℤ) := by
  have hzero : |(0 : ℚ)| < 2 ^ (1024 : ℤ) := by
    rw [abs_zero]
    exact zpow_pos two_pos _
  unfold value
  cases h : shape x with
  | finite s m e hpos =>
    obtain ⟨hcanonical, he⟩ := canonical_of_shape h
    have hpow : (0 : ℚ) < 2 ^ e := zpow_pos two_pos e
    change |factor s * (m * 2 ^ e)| < _
    rw [abs_mul, abs_factor, one_mul, abs_of_nonneg (mul_nonneg (Nat.cast_nonneg m) hpow.le)]
    calc (m : ℚ) * 2 ^ e < 2 ^ (53 : ℤ) * 2 ^ e :=
          mul_lt_mul_of_pos_right (by exact_mod_cast hcanonical.lt) hpow
      _ = 2 ^ (53 + e) := (two_zpow_add 53 e).symm
      _ ≤ 2 ^ (1024 : ℤ) := two_zpow_le (by omega)
  | _ => exact hzero

lemma Rounds.isFinite_of_le {a : UnpackedFloat} {q : ℚ} (h : Rounds a q)
    (hy : (shape y).isFinite = true) (hq : |q| ≤ |value y|) : a.isFinite = true := by
  have habs : nearest |value y| = |value y| := by
    rw [← value_abs hy]
    exact nearest_value y.abs
  refine h.isFinite (lt_of_le_of_lt ?_ (abs_value_lt y))
  rw [← habs]
  exact abs_nearest_le hq

end TemporalAlgebra.Binary64
