import TemporalAlgebra.Proofs.Number.Quotient
import TemporalAlgebra.Proofs.Number.ValueOrder
import TemporalAlgebra.Value.Basic

/-!
# Interpolated numbers

A number that is interpolated between two others lies next to their chord, with an error that is
small next to the larger of them. Where it is finite, it is so at every earlier time as well.
-/
namespace TemporalAlgebra

open Binary64

namespace Binary64

open Float.Model (UnpackedFloat)

lemma abs_nearest_sub_le_add_one (q : ℚ) : |nearest q - q| ≤ (|q| + 1) / 2 ^ 53 := by
  have hleast : (2 : ℚ) ^ (-1074 : ℤ) ≤ 2 ^ (-52 : ℤ) := two_zpow_le (by decide)
  have herror := abs_nearest_sub_le q
  generalize (2 : ℚ) ^ (-1074 : ℤ) = least at hleast herror
  norm_num at hleast herror ⊢
  linarith only [hleast, herror]

lemma nearest_one : nearest 1 = 1 := by
  rw [← value_one, nearest_value]

lemma one_le_nearest {q : ℚ} (hq : 1 ≤ q) : 1 ≤ nearest q := by
  rw [← nearest_one]
  exact nearest_mono hq

lemma nearest_monotone : Monotone nearest := fun _ _ => nearest_mono

section

variable {p q r fraction bound : ℚ}

lemma abs_nearest_lt (hp : |nearest p| < bound) (hq : |nearest q| < bound)
    (hr : r ∈ Set.uIcc p q) : |nearest r| < bound := by
  rcases Set.mem_uIcc.mp (nearest_monotone.mapsTo_uIcc hr) with h | h
  · exact (abs_le_max_abs_abs h.1 h.2).trans_lt (max_lt hp hq)
  · exact (abs_le_max_abs_abs h.1 h.2).trans_lt (max_lt hq hp)

lemma abs_div_sub_div_le {m n error : ℚ} (hn : 0 < n) (hnonneg : 0 ≤ p) (hpq : p ≤ q)
    (hq : 0 < q) (hhalf : q ≤ 2 * n) (hm : |m - p| ≤ error * q) (hnq : |n - q| ≤ error * q) :
    |m / n - p / q| ≤ 4 * error := by
  have hsame : m / n - p / q = ((m - p) - p / q * (n - q)) / n := by
    field_simp
    ring
  have hscaled : |p / q * (n - q)| ≤ |n - q| := by
    rw [abs_mul, abs_of_nonneg (div_nonneg hnonneg hq.le)]
    exact mul_le_of_le_one_left (abs_nonneg _) ((div_le_one hq).mpr hpq)
  have hsmall : |(m - p) - p / q * (n - q)| ≤ 2 * error * q := by
    have := abs_sub (m - p) (p / q * (n - q))
    linarith only [this, hscaled, hm, hnq]
  have herror : 0 ≤ error := nonneg_of_mul_nonneg_left ((abs_nonneg _).trans hm) hq
  rw [hsame, abs_div, abs_of_pos hn, div_le_iff₀ hn]
  calc |(m - p) - p / q * (n - q)| ≤ 2 * error * q := hsmall
    _ ≤ 2 * error * (2 * n) := mul_le_mul_of_nonneg_left hhalf (by linarith only [herror])
    _ = 4 * error * n := by ring

/-- The three roundings of a fraction of the way. -/
lemma quotient_spec (hp : 1 ≤ p) (hpq : p ≤ q) :
    0 ≤ nearest (nearest p / nearest q) ∧ nearest (nearest p / nearest q) ≤ 1 ∧
      |nearest (nearest p / nearest q) - p / q| ≤ 10 / 2 ^ 53 := by
  have hp₀ : 0 ≤ p := zero_le_one.trans hp
  have hq₀ : 0 < q := zero_lt_one.trans_le (hp.trans hpq)
  have hn₀ : 0 < nearest q := zero_lt_one.trans_le (one_le_nearest (hp.trans hpq))
  have herrorp := abs_nearest_sub_le_add_one p
  have herrorq := abs_nearest_sub_le_add_one q
  rw [abs_of_nonneg hp₀] at herrorp
  rw [abs_of_pos hq₀] at herrorq
  have hhalf : q ≤ 2 * nearest q := by
    have := (abs_le.mp herrorq).1
    norm_num at this
    linarith only [this, hp, hpq]
  have hquotient : |nearest p / nearest q - p / q| ≤ 4 * (2 / 2 ^ 53) :=
    abs_div_sub_div_le hn₀ hp₀ hpq hq₀ hhalf (by linarith only [herrorp, hp, hpq])
      (by linarith only [herrorq, hp, hpq])
  have hle : nearest p / nearest q ≤ 1 := (div_le_one hn₀).mpr (nearest_mono hpq)
  have hnonneg : 0 ≤ nearest p / nearest q := div_nonneg (nearest_nonneg hp₀) hn₀.le
  refine ⟨nearest_nonneg hnonneg, ?_, ?_⟩
  · rw [← nearest_one]
    exact nearest_mono hle
  · have herror := abs_nearest_sub_le_add_one (nearest p / nearest q)
    rw [abs_of_nonneg hnonneg] at herror
    have := abs_sub_le (nearest (nearest p / nearest q)) (nearest p / nearest q) (p / q)
    linarith only [this, herror, hquotient, hle]

/-- The three roundings of an interpolation, at a fraction that is rounded too. -/
lemma abs_chord_sub_le (hp : |p| ≤ bound) (hq : |q| ≤ bound) (hnonneg : 0 ≤ r) (hle : r ≤ 1)
    (hr : |r - fraction| ≤ 10 / 2 ^ 53) :
    |nearest (p + nearest (nearest (q - p) * r)) - (p + (q - p) * fraction)| ≤
      (bound + 1) / 2 ^ 48 := by
  have hbound : 0 ≤ bound := (abs_nonneg _).trans hp
  obtain ⟨d, hd⟩ : ∃ d, nearest (q - p) = d := ⟨_, rfl⟩
  obtain ⟨m, hm⟩ : ∃ m, nearest (d * r) = m := ⟨_, rfl⟩
  have herrord := abs_nearest_sub_le_add_one (q - p)
  have herrorm := abs_nearest_sub_le_add_one (d * r)
  have herrors := abs_nearest_sub_le_add_one (p + m)
  rw [hd] at herrord ⊢
  rw [hm] at herrorm ⊢
  have hrise : |q - p| ≤ 2 * bound := by
    rw [two_mul]
    exact (abs_sub _ _).trans (add_le_add hq hp)
  have hrounded : |d| ≤ 2 * bound + (2 * bound + 1) / 2 ^ 53 := by
    have := abs_add_le (d - (q - p)) (q - p)
    rw [sub_add_cancel] at this
    linarith only [this, herrord, hrise]
  have hscaled : |d * r| ≤ |d| := by
    rw [abs_mul, abs_of_nonneg hnonneg]
    exact mul_le_of_le_one_right (abs_nonneg _) hle
  have hsum : |p + m| ≤ bound + |d| + (|d| + 1) / 2 ^ 53 := by
    have hm := abs_add_le (m - d * r) (d * r)
    rw [sub_add_cancel] at hm
    linarith only [hm, abs_add_le p m, herrorm, hscaled, hp]
  have hslope : |d * (r - fraction)| ≤ |d| * (10 / 2 ^ 53) := by
    rw [abs_mul]
    exact mul_le_mul_of_nonneg_left hr (abs_nonneg _)
  have hchord : |(d - (q - p)) * fraction| ≤ (2 * bound + 1) / 2 ^ 53 * 2 := by
    have hfraction : |fraction| ≤ 2 := by
      have hr := abs_le.mp hr
      norm_num at hr
      exact abs_le.mpr ⟨by linarith only [hr.2, hnonneg], by linarith only [hr.1, hle]⟩
    rw [abs_mul]
    exact mul_le_mul (by linarith only [herrord, hrise]) hfraction (abs_nonneg _)
      (by linarith only [hbound])
  -- one term for each rounding, and one for the fraction
  have hsplit : nearest (p + m) - (p + (q - p) * fraction) =
      nearest (p + m) - (p + m) + (m - d * r) + d * (r - fraction) +
        (d - (q - p)) * fraction := by ring
  rw [hsplit]
  refine (abs_add_le _ _).trans ((add_le_add_left (abs_add_three _ _ _) _).trans ?_)
  linarith only [herrors, hsum, herrorm, hscaled, hslope, hchord, hrounded, hbound]

end

section

variable {x y r r' : Float}

/-- Nearer to the start an interpolated number is finite too. -/
lemma isFinite_lerp_of_le (h : (shape (lerp x y r')).isFinite = true)
    (hr : (shape r).isFinite = true) (hnonneg : 0 ≤ value r) (hle : value r ≤ value r') :
    (shape (lerp x y r)).isFinite = true := by
  obtain ⟨hx, hproduct'⟩ := isFinite_of_add h
  obtain ⟨hd, hr'⟩ := isFinite_of_mul hproduct'
  have hp' := (rounds_mul hd hr').value_eq hproduct'
  have hs' := (rounds_add hx hproduct').value_eq h
  have hway : value (y - x) * value r ∈ Set.uIcc 0 (value (y - x) * value r') := by
    rw [Set.mem_uIcc]
    rcases le_total 0 (value (y - x)) with hrise | hfall
    · exact Or.inl ⟨mul_nonneg hrise hnonneg, mul_le_mul_of_nonneg_left hle hrise⟩
    · exact Or.inr ⟨mul_le_mul_of_nonpos_left hle hfall,
        mul_nonpos_of_nonpos_of_nonneg hfall hnonneg⟩
  have hproduct : (shape ((y - x) * r)).isFinite = true := by
    apply (rounds_mul hd hr).isFinite
    refine abs_nearest_lt ?_ ?_ hway
    · rw [nearest_zero, abs_zero]
      exact zpow_pos two_pos _
    · rw [← hp']
      exact abs_value_lt _
  -- rounded too, the product lies on the way, and so does the sum
  have hsum : value x + value ((y - x) * r) ∈
      Set.uIcc (value x) (value x + value ((y - x) * r')) := by
    have hrounded := nearest_monotone.mapsTo_uIcc hway
    rw [nearest_zero, ← (rounds_mul hd hr).value_eq hproduct, ← hp'] at hrounded
    rw [Set.mem_uIcc] at hrounded ⊢
    simpa using hrounded
  apply (rounds_add hx hproduct).isFinite
  refine abs_nearest_lt ?_ ?_ hsum
  · rw [nearest_value]
    exact abs_value_lt x
  · rw [← hs']
    exact abs_value_lt _

lemma value_lerp (h : (shape (lerp x y r)).isFinite = true) (hy : (shape y).isFinite = true) :
    value (lerp x y r) =
      nearest (value x + nearest (nearest (value y - value x) * value r)) := by
  obtain ⟨hx, hproduct⟩ := isFinite_of_add h
  obtain ⟨hd, hr⟩ := isFinite_of_mul hproduct
  rw [← (rounds_sub hy hx).value_eq hd, ← (rounds_mul hd hr).value_eq hproduct]
  exact (rounds_add hx hproduct).value_eq h

end

lemma shape_tolerance :
    ∃ hpos, shape tolerance = .finite .positive 4722366482869645 (-72) hpos :=
  ⟨by decide, rfl⟩

lemma value_tolerance_le : value tolerance ≤ 1 / 10 ^ 6 := by
  obtain ⟨hpos, h⟩ := shape_tolerance
  unfold value
  rw [h]
  change 1 * (((4722366482869645 : ℕ) : ℚ) * 2 ^ (-72 : ℤ)) ≤ _
  norm_num

lemma isFinite_tolerance : (shape tolerance).isFinite = true := by
  obtain ⟨hpos, h⟩ := shape_tolerance
  rw [h]
  rfl

section

variable {x y : Float}

/-- Finite numbers are equal within the tolerance only to finite ones. -/
lemma abs_sub_le_of_nearlyEqual (h : nearlyEqual x y = true) :
    (shape x).isFinite = true ∧ (shape y).isFinite = true ∧
      |value x - value y| ≤ 1 / 10 ^ 6 + 2 / 2 ^ 53 := by
  have hle : (x - y).abs ≤ tolerance := of_decide_eq_true h
  have hd := isFinite_of_abs_le isFinite_tolerance hle
  obtain ⟨hx, hy⟩ := isFinite_of_sub hd
  refine ⟨hx, hy, ?_⟩
  have hvalue := value_le_of_le (isFinite_abs hd) isFinite_tolerance hle
  rw [value_abs hd, (rounds_sub hx hy).value_eq hd] at hvalue
  have herror := abs_nearest_sub_le_add_one (value x - value y)
  have hsum := abs_sub_le_iff.mp (abs_abs_sub_abs_le_abs_sub (nearest (value x - value y))
    (value x - value y))
  linarith only [hvalue, value_tolerance_le, herror, hsum.2]

lemma nearlyEqual_self (hx : (shape x).isFinite = true) : nearlyEqual x x = true := by
  obtain ⟨s, hs⟩ := shape_sub_of_same hx (Same.refl _)
  obtain ⟨hpos, htolerance⟩ := shape_tolerance
  have habs : shape (x - x).abs = .zero .positive := by
    rw [shape_abs, hs]
    exact kept_zero .positive
  have hle : UnpackedFloat.le (shape (x - x).abs) (shape tolerance) = true := by
    rw [habs, htolerance]
    rfl
  exact decide_eq_true (decide_eq_true hle)

end

end Binary64

namespace Timestamp

variable {a b t u : Timestamp}

/-- The exact fraction of the way at which a timestamp lies between two others. -/
def fraction (t a b : Timestamp) : ℚ :=
  ((t.micros - a.micros : ℤ) : ℚ) / (b.micros - a.micros : ℤ)

lemma value_way {n : ℤ} (hlow : 0 ≤ n) (hhigh : n < 2 ^ 63) :
    (shape (ofInt n)).isFinite = true ∧ value (ofInt n) = Binary64.nearest n := by
  obtain ⟨m, rfl⟩ := Int.eq_ofNat_of_zero_le hlow
  refine ⟨isFinite_shape (isFinite_ofInt (by omega) (by omega)), ?_⟩
  rw [value_ofInt (by omega), Int.cast_natCast]

lemma value_quotient (hat : a < t) (htb : t < b) (hspan : b.micros - a.micros < 2 ^ 63) :
    value (t.quotient a b) =
      Binary64.nearest (Binary64.nearest (t.micros - a.micros : ℤ) /
        Binary64.nearest (b.micros - a.micros : ℤ)) := by
  have hat' : a.micros < t.micros := hat
  have htb' : t.micros < b.micros := htb
  obtain ⟨hway, hvalue⟩ := value_way (n := t.micros - a.micros) (by omega) (by omega)
  obtain ⟨hstop, hvalue'⟩ := value_way (n := b.micros - a.micros) (by omega) hspan
  have hne : value (ofInt (b.micros - a.micros)) ≠ 0 := by
    have := one_le_nearest (q := (b.micros - a.micros : ℤ)) (by exact_mod_cast (by omega))
    rw [hvalue']
    linarith only [this]
  have hfinite := isFinite_quotient hat htb
  have hquotient : t.quotient a b =
      ofInt (t.micros - a.micros) / ofInt (b.micros - a.micros) := if_neg (by omega)
  rw [hquotient] at hfinite ⊢
  rw [← hvalue, ← hvalue']
  exact (rounds_div hway hstop hne).value_eq hfinite

lemma quotient_mono (hat : a < t) (htu : t ≤ u) (hub : u < b)
    (hspan : b.micros - a.micros < 2 ^ 63) : value (t.quotient a b) ≤ value (u.quotient a b) := by
  have hat' : a.micros < t.micros := hat
  have htu' : t.micros ≤ u.micros := htu
  have hub' : u.micros < b.micros := hub
  rw [value_quotient hat (show t.micros < b.micros by omega) hspan,
    value_quotient (show a.micros < u.micros by omega) hub hspan]
  apply nearest_mono
  apply div_le_div_of_nonneg_right
  · exact nearest_mono (by exact_mod_cast (by omega))
  · exact nearest_nonneg (by exact_mod_cast (by omega))

/-- The fraction of the way is near the exact one, and the way ends at one. -/
lemma quotient_near (hat : a < t) (htb : t < b) (hspan : b.micros - a.micros < 2 ^ 63) :
    0 ≤ value (t.quotient a b) ∧ value (t.quotient a b) ≤ 1 ∧
      |value (t.quotient a b) - t.fraction a b| ≤ 10 / 2 ^ 53 := by
  have hat' : a.micros < t.micros := hat
  have htb' : t.micros < b.micros := htb
  rw [value_quotient hat htb hspan]
  unfold fraction
  obtain ⟨n, hn⟩ : ∃ n : ℚ, ((t.micros - a.micros : ℤ) : ℚ) = n := ⟨_, rfl⟩
  obtain ⟨d, hd⟩ : ∃ d : ℚ, ((b.micros - a.micros : ℤ) : ℚ) = d := ⟨_, rfl⟩
  have hone : 1 ≤ n := by
    rw [← hn]
    exact_mod_cast (by omega)
  have hnd : n ≤ d := by
    rw [← hn, ← hd]
    exact_mod_cast (by omega)
  rw [hn, hd]
  exact quotient_spec hone hnd

lemma fraction_mul (hau : a < u) : t.fraction a u * u.fraction a b = t.fraction a b := by
  have hau' : a.micros < u.micros := hau
  have hne : ((u.micros - a.micros : ℤ) : ℚ) ≠ 0 := by
    exact_mod_cast (by omega)
  unfold fraction
  rw [div_mul_div_comm, mul_comm, mul_div_mul_left _ _ hne]

lemma fraction_bounds (hat : a < t) (htb : t < b) : 0 ≤ t.fraction a b ∧ t.fraction a b ≤ 1 := by
  have hat' : a.micros < t.micros := hat
  have htb' : t.micros < b.micros := htb
  have hpos : (0 : ℚ) < (b.micros - a.micros : ℤ) := by exact_mod_cast (by omega)
  unfold fraction
  refine ⟨div_nonneg ?_ hpos.le, (div_le_one hpos).mpr ?_⟩ <;> exact_mod_cast (by omega)

end Timestamp

end TemporalAlgebra
