import TemporalAlgebra.Proofs.Number.Order

/-!
# Fractions of a way

A number between zero and one is a fraction of a way. What is clamped to these ends is one, unless
it is no number at all.
-/
namespace TemporalAlgebra.Binary64

variable {r : Float}

/-- A fraction of a way, between zero and one. -/
structure OnWay (r : Float) : Prop where
  nonneg : (0.0 : Float) ≤ r
  le_one : r ≤ 1.0

lemma onWay_zero : OnWay 0.0 := ⟨by decide +kernel, by decide +kernel⟩

lemma onWay_one : OnWay 1.0 := ⟨by decide +kernel, by decide +kernel⟩

/-- A fraction of a way, or a NaN. -/
structure Fraction (r : Float) : Prop where
  not_neg : ¬r < 0.0
  not_above : ¬(1.0 : Float) < r

lemma fraction_zero : Fraction 0.0 := ⟨by decide +kernel, by decide +kernel⟩

lemma fraction_one : Fraction 1.0 := ⟨by decide +kernel, by decide +kernel⟩

lemma OnWay.fraction (h : OnWay r) : Fraction r :=
  ⟨Binary64.not_lt_of_le h.nonneg, Binary64.not_lt_of_le h.le_one⟩

lemma Fraction.onWay (h : Fraction r) (hr : shape r ≠ .notANumber) : OnWay r := by
  obtain ⟨hzero, hone⟩ := not_nan_of_lt (show (0.0 : Float) < 1.0 by decide +kernel)
  exact ⟨Binary64.le_of_not_lt hzero hr h.not_neg, Binary64.le_of_not_lt hr hone h.not_above⟩

/-- What is clamped to the ends of the way is a fraction of it. -/
lemma fraction_clamp (x : Float) : Fraction (clamp x 0.0 1.0) := by
  have hraised : ¬(if x < 0.0 then 0.0 else x) < 0.0 := by
    split
    · exact fraction_zero.not_neg
    · assumption
  unfold clamp
  dsimp only
  generalize (if x < 0.0 then 0.0 else x) = raised at hraised ⊢
  split
  · exact fraction_one
  · rename_i hnot
    exact ⟨hraised, hnot⟩

end TemporalAlgebra.Binary64
