import TemporalAlgebra.Proofs.Number.ValueOrder

/-!
# Results that grow

A sum does not fall when what is added grows, nor does a product with a positive number, also where
they become infinite. Counting on by one leads to a greater number or nowhere.
-/
namespace TemporalAlgebra.Binary64

open Float.Model (UnpackedFloat)
open Float.Model.UnpackedFloat

variable {x y z : Float} {q : ℚ}

/-- What is not below a finite number, though it may be too large. -/
inductive Above (x y : Float) : Prop
  | finite (hy : (shape y).isFinite = true) (h : value x ≤ value y)
  | infinite (hy : shape y = .infinity .positive)

lemma lt_of_infinite (hx : (shape x).isFinite = true) (hy : shape y = .infinity .positive) :
    x < y := by
  refine lt_iff.mpr ⟨fun h => ?_, fun h => ?_, ?_⟩
  · rw [h] at hx
    cases hx
  · rw [hy] at h
    cases h
  · rw [standing, standing, Prod.Lex.toLex_lt_toLex, hy]
    refine Or.inl (show kind (shape x) < 2 from ?_)
    rcases kind_of_isFinite hx with h | h | h <;> omega

lemma Above.le (h : Above x y) (hx : (shape x).isFinite = true) : x ≤ y := by
  rcases h with ⟨hy, hle⟩ | hy
  · exact le_of_value_le hx hy hle
  · exact le_of_lt_or_beq (Or.inl (lt_of_infinite hx hy))

lemma Above.lt (h : Above x y) (hx : (shape x).isFinite = true)
    (hlt : (shape y).isFinite = true → value x < value y) : x < y := by
  rcases h with ⟨hy, -⟩ | hy
  · exact lt_of_value_lt hx hy (hlt hy)
  · exact lt_of_infinite hx hy

lemma Rounds.above (h : Rounds (shape y) q) (hle : value x ≤ nearest q) : Above x y := by
  rcases h with ⟨hy, hread⟩ | ⟨s, hy, hlarge⟩
  · exact .finite hy (hle.trans hread.ge)
  · cases s with
    | positive => exact .infinite hy
    | negative =>
      have hlow := (abs_lt.mp (abs_value_lt x)).1
      change _ ≤ -1 * nearest q at hlarge
      linarith

lemma Above.add_one (hx : (shape x).isFinite = true) : Above x (x + 1.0) := by
  refine (rounds_add hx rfl).above ?_
  calc value x = nearest (value x) := (nearest_value x).symm
    _ ≤ nearest (value x + value 1.0) := nearest_mono (by rw [value_one]; linarith)

lemma Above.mul_right (h : Above x y) (hx : (shape x).isFinite = true)
    (hz : (shape z).isFinite = true) (hpos : 0 < value z) (hxz : (shape (x * z)).isFinite = true) :
    Above (x * z) (y * z) := by
  rcases h with ⟨hy, hle⟩ | hy
  · refine (rounds_mul hy hz).above ?_
    rw [(rounds_mul hx hz).value_eq hxz]
    exact nearest_mono (mul_le_mul_of_nonneg_right hle hpos.le)
  · refine .infinite ?_
    change kept (.mul .binary64 (shape y) (shape z)) = _
    rw [hy]
    rcases finite_cases hz with ⟨t, hz₀⟩ | ⟨t, n, f, hn, hz₀, -, hvz⟩
    · exact absurd (value_of_zero hz₀) hpos.ne'
    · rw [hz₀]
      cases t with
      | positive => exact kept_infinity .positive
      | negative =>
        have hneg : value z ≤ 0 := by
          rw [hvz]
          exact mul_nonpos_of_nonpos_of_nonneg neg_one_lt_zero.le
            (mul_nonneg (Nat.cast_nonneg n) (zpow_nonneg two_pos.le f))
        exact absurd hneg hpos.not_ge

lemma Above.add_left (h : Above x y) (hx : (shape x).isFinite = true)
    (hz : (shape z).isFinite = true) (hzx : (shape (z + x)).isFinite = true) :
    Above (z + x) (z + y) := by
  rcases h with ⟨hy, hle⟩ | hy
  · refine (rounds_add hz hy).above ?_
    rw [(rounds_add hz hx).value_eq hzx]
    exact nearest_mono (by linarith)
  · refine .infinite ?_
    change kept (.add .binary64 (shape z) (shape y)) = _
    rw [hy]
    rcases finite_cases hz with ⟨t, hz₀⟩ | ⟨t, n, f, hn, hz₀, -, -⟩ <;> rw [hz₀] <;>
      exact kept_infinity .positive

lemma add_of_infinite {s : Sign} (hx : shape x = .infinity s) (hy : (shape y).isFinite = true) :
    x + y = x := by
  have hsum : shape (x + y) = .infinity s := by
    change kept (.add .binary64 (shape x) (shape y)) = _
    rcases finite_cases hy with ⟨t, hy₀⟩ | ⟨t, n, f, hn, hy₀, -, -⟩ <;> rw [hx, hy₀] <;>
      exact kept_infinity s
  exact shape_injective (hsum.trans hx.symm)

lemma div_of_infinite {s : Sign} (hx : shape x = .infinity s) (hy : (shape y).isFinite = true) :
    ∃ t, shape (x / y) = .infinity t := by
  change ∃ t, kept (.div .binary64 (shape x) (shape y)) = _
  rcases finite_cases hy with ⟨t, hy₀⟩ | ⟨t, n, f, hn, hy₀, -, -⟩ <;> rw [hx, hy₀] <;>
    exact ⟨_, kept_infinity _⟩

lemma Above.not_lt (h : Above x y) (hx : (shape x).isFinite = true) : ¬y < x := by
  intro hlt
  rcases h with ⟨hy, hle⟩ | hy
  · exact (value_lt_of_lt hy hx hlt).not_ge hle
  · exact lt_irrefl _ (lt_iff.mp (lt_trans (lt_of_infinite hx hy) hlt)).2.2

lemma Above.parts_ne_nan (h : Above x y) : parts y ≠ .nan := by
  intro hnan
  have hy : shape y = .notANumber := by
    rw [shape_eq, hnan]
    rfl
  rcases h with ⟨hfinite, -⟩ | hinfinite
  · rw [hy] at hfinite
    cases hfinite
  · rw [hy] at hinfinite
    cases hinfinite

/-- Counting on from a number leads to a greater one or stays there. -/
lemma add_one_cases (x : Float) : orderKey x < orderKey (x + 1.0) ∨ x + 1.0 = x := by
  cases hx : (shape x).isFinite with
  | false =>
    right
    cases hshape : shape x with
    | notANumber => exact shape_injective ((nan_add_left hshape 1.0).trans hshape.symm)
    | infinity s => exact add_of_infinite hshape rfl
    | zero s =>
      rw [hshape] at hx
      cases hx
    | finite s m e hpos =>
      rw [hshape] at hx
      cases hx
  | true =>
    have habove := Above.add_one hx
    refine (lt_or_ge (orderKey x) (orderKey (x + 1.0))).imp_right fun hkey => ?_
    have hle : x + 1.0 ≤ x := le_of_orderKey_le habove.parts_ne_nan
      (parts_ne_nan_of_isFinite (isFinite_of_shape hx)) hkey
    have hbeq := (lt_or_beq_of_le hle).resolve_left (habove.not_lt hx)
    rcases ((beq_iff _ _).mp hbeq).1 with hsame | ⟨s, t, hsum, hzero⟩
    · exact shape_injective hsame
    · -- counting on from zero leads to one
      have hfinite : (shape (x + 1.0)).isFinite = true := by
        rw [hsum]
        rfl
      have hvalue := (rounds_add hx rfl).value_eq hfinite
      rw [value_of_zero hsum, value_of_zero hzero, zero_add, nearest_value, value_one] at hvalue
      exact absurd hvalue zero_ne_one

end TemporalAlgebra.Binary64
