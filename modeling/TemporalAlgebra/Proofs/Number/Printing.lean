import TemporalAlgebra.Proofs.Number.Integers
import TemporalAlgebra.Proofs.Number.Written

/-!
# Numbers printed with decimals

A finite number is printed as the decimal number next to it that has at most the given count of
decimals, and of two that are as near as the one whose last digit is even. The text holds nothing
that could be left out, so what is rounded to the same decimal number is printed as the same text.
-/
namespace TemporalAlgebra

namespace Binary64

/-- An integer nearest to a rational; of two it is the even one. -/
structure RoundsEven (q : ℚ) (n : ℤ) : Prop where
  close : |(n : ℚ) - q| ≤ 1 / 2
  even : |(n : ℚ) - q| = 1 / 2 → Even n

section

variable {q : ℚ} {m n : ℤ}

lemma RoundsEven.neg (h : RoundsEven q n) : RoundsEven (-q) (-n) := by
  have hsame : |((-n : ℤ) : ℚ) - -q| = |(n : ℚ) - q| := by
    rw [Int.cast_neg, neg_sub_neg, abs_sub_comm]
  exact ⟨hsame ▸ h.close, fun hhalf => (h.even (hsame ▸ hhalf)).neg⟩

lemma RoundsEven.le (hm : RoundsEven q m) (hn : RoundsEven q n) : m ≤ n := by
  by_contra hlt
  obtain ⟨-, hmhigh⟩ := abs_le.mp hm.close
  obtain ⟨hnlow, -⟩ := abs_le.mp hn.close
  -- both lie half way from the rational, on either side of it
  have hnext : ((n + 1 : ℤ) : ℚ) ≤ m := Int.cast_le.mpr (not_le.mp hlt)
  push_cast at hnext
  have hmeven := hm.even (by rw [abs_of_nonneg] <;> linarith)
  have hneven := hn.even (by rw [abs_of_nonpos] <;> linarith)
  have hgap : m = n + 1 := by
    have hle : (m : ℚ) ≤ ((n + 1 : ℤ) : ℚ) := by push_cast; linarith
    have := Int.cast_le.mp hle
    omega
  obtain ⟨a, ha⟩ := hmeven
  obtain ⟨b, hb⟩ := hneven
  omega

lemma RoundsEven.unique (hm : RoundsEven q m) (hn : RoundsEven q n) : m = n :=
  le_antisymm (hm.le hn) (hn.le hm)

lemma roundsEven_halfEven (q : ℚ) : RoundsEven q (halfEven q) := by
  refine ⟨abs_halfEven_sub_le q, fun hhalf => ?_⟩
  have hsum := Int.floor_add_fract q
  have hnonneg := Int.fract_nonneg q
  have hlt := Int.fract_lt_one q
  unfold halfEven at hhalf ⊢
  split_ifs at hhalf ⊢ with hless hmore
  · rw [abs_of_nonpos] at hhalf <;> linarith
  · push_cast at hhalf
    rw [abs_of_nonneg] at hhalf <;> linarith
  · exact ⟨(⌊q⌋ + ⌊q⌋ % 2) / 2, by omega⟩

/-- What is rounded to decimals is the integer nearest to the number in units of the last one. -/
lemma roundsEven_scaled (m : ℕ) (e : ℤ) (places : ℕ) :
    RoundsEven (m * 2 ^ e * 10 ^ places) (Decimal.scaled m e places) := by
  have heq : (Decimal.scaled m e places : ℤ) = halfEven (m * 2 ^ e * 10 ^ places) := by
    unfold Decimal.scaled
    split_ifs with he
    · obtain ⟨k, rfl⟩ := Int.eq_ofNat_of_zero_le he
      have hcast : (m : ℚ) * 2 ^ (k : ℤ) * 10 ^ places = ((m * 2 ^ k * 10 ^ places : ℕ) : ℤ) := by
        push_cast
        rw [zpow_natCast]
      rw [hcast, halfEven_intCast]
      rfl
    · obtain ⟨k, rfl⟩ : ∃ k : ℕ, e = -(k : ℤ) := ⟨(-e).toNat, by omega⟩
      have hcast : (m : ℚ) * 2 ^ (-(k : ℤ)) * 10 ^ places =
          (m * 10 ^ places : ℕ) / (2 ^ k : ℕ) := by
        push_cast
        rw [zpow_neg, zpow_natCast, div_eq_mul_inv, mul_right_comm]
      rw [hcast, halfEven_div _ (Nat.two_pow_pos k)]
      simp
  rw [heq]
  exact roundsEven_halfEven _

end

end Binary64

namespace Decimal

open Binary64 (RoundsEven isFinite parts)

variable {x : Float}

lemma exists_written (hx : isFinite x = true) (places : ℕ) : ∃ (n : ℤ) (w : Written),
    RoundsEven (Binary64.value x * 10 ^ places) n ∧ w.amount = n / 10 ^ places ∧
      (fixed x places).toList = w.text ∧ w.Tidy ∧ w.fraction.length ≤ places := by
  obtain ⟨negative, m, e, hparts⟩ := Binary64.isFinite_iff.mp hx
  obtain ⟨w, htidy, hlength, hamount, htext⟩ :=
    Written.exists_tidy negative (scaled m e places) places
  have hfixed : (fixed x places).toList = w.text := by
    unfold fixed
    rw [hparts, ← htext]
    exact String.toList_ofList
  have hround := Binary64.roundsEven_scaled m e places
  refine ⟨if negative then -scaled m e places else scaled m e places, w, ?_, ?_, hfixed, htidy,
    hlength⟩
  · rw [Binary64.value_of_parts hparts]
    cases negative with
    | false => exact hround
    | true =>
      rw [if_pos rfl, if_pos rfl, neg_mul]
      exact hround.neg
  · rw [hamount]
    cases negative with
    | false => simp
    | true => simp [neg_div]

/-- A finite number is printed as the decimal number nearest to it with at most `places` decimals, and
of two as the even one. A text with a point ends with a digit other than zero, an integer has all its
digits, and no zero has a sign. Whatever is rounded to the same decimal number, also to another
count of decimals, is printed as the same text. -/
theorem printing_rounds_and_trims (places : ℕ) (hx : isFinite x = true) :
    ∃ (n : ℤ) (w : Written), RoundsEven (Binary64.value x * 10 ^ places) n ∧
      (fixed x places).toList = w.text ∧ w.amount = n / 10 ^ places ∧
      w.Tidy ∧ w.fraction.length ≤ places ∧ fixed x places ≠ "-0" ∧
      ('.' ∈ (fixed x places).toList →
        ∃ c, (fixed x places).toList.getLast? = some c ∧ isDigit c = true ∧ c ≠ '0') ∧
      ('.' ∉ (fixed x places).toList → ∃ k : ℤ, (n : ℚ) / 10 ^ places = k) ∧
      (∀ k : ℤ, (n : ℚ) / 10 ^ places = k → fixed x places = ofInt k) ∧
      ∀ (y : Float) (others : ℕ) (m : ℤ), isFinite y = true →
        RoundsEven (Binary64.value y * 10 ^ others) m →
          (fixed y others = fixed x places ↔ (m : ℚ) / 10 ^ others = n / 10 ^ places) := by
  obtain ⟨n, w, hround, hamount, htext, htidy, hlength⟩ := exists_written hx places
  refine ⟨n, w, hround, htext, hamount, htidy, hlength, ?_, ?_, ?_, ?_, ?_⟩
  · intro hzero
    have hw : w = Written.negativeZero :=
      Written.text_injective (htext.symm.trans (congrArg String.toList hzero))
    exact htidy.sign (hw ▸ rfl) (Written.amount_eq_zero_iff.mpr (hw ▸ rfl))
  · rw [htext]
    exact htidy.getLast?_text
  · rw [htext, Written.point_mem_text, not_not]
    intro hnone
    exact ⟨_, hamount.symm.trans (Written.amount_of_whole hnone)⟩
  · intro k hk
    have hw : w = Written.integer k :=
      htidy.eq_of_amount_eq (Written.tidy_integer k)
        (hamount.trans (hk.trans (Written.amount_integer k).symm))
    rw [← String.toList_inj, htext, hw, Written.text_integer]
  · intro y others m hy hm
    obtain ⟨l, v, hround', hamount', htext', htidy', -⟩ := exists_written hy others
    obtain rfl := hm.unique hround'
    rw [← hamount, ← hamount', ← String.toList_inj, htext, htext']
    exact ⟨fun h => congrArg Written.amount (Written.text_injective h), fun h =>
      congrArg Written.text (htidy'.eq_of_amount_eq htidy h)⟩

/-- Half way between two integers the even one is printed, with the zeros at its end, and so is that
integer itself with decimals. -/
theorem tie_printed_even : isFinite (-1200.5) = true ∧ fixed (-1200.5) 0 = "-1200" ∧
    isFinite (-1200.0) = true ∧ fixed (-1200.0) 3 = fixed (-1200.5) 0 := by
  have hfinite : isFinite (-1200.5) = true := by decide
  have hwhole : isFinite (-1200.0) = true := by decide
  obtain ⟨n, w, hround, -, -, -, -, -, -, -, hinteger, hsame⟩ := printing_rounds_and_trims 0 hfinite
  have hparts : parts (-1200.5) = .finite true (2401 * 2 ^ 41) (-42) := by decide
  have hvalue : Binary64.value (-1200.5) = -1200.5 := by
    rw [Binary64.value_of_parts hparts]
    norm_num
  have hn : n = -1200 := by
    refine hround.unique ⟨?_, fun _ => by decide⟩
    rw [hvalue]
    norm_num
  have hparts' : parts (-1200.0) = .finite true (75 * 2 ^ 46) (-42) := by decide
  have hround' : RoundsEven (Binary64.value (-1200.0) * 10 ^ 3) (-1200000) := by
    rw [Binary64.value_of_parts hparts']
    constructor <;> norm_num
  have hdigits : digits 1200 = ['1', '2', '0', '0'] := by
    rw [digits_of_le (by decide), digits_of_le (by decide), digits_of_le (by decide),
      digits_of_lt (by decide)]
    rfl
  refine ⟨hfinite, (hinteger n (by simp)).trans ?_, hwhole, (hsame _ 3 _ hwhole hround').mpr ?_⟩
  · rw [hn, ← String.toList_inj, toList_ofInt, if_pos (by decide)]
    exact congrArg ('-' :: ·) hdigits
  · rw [hn]
    norm_num

end Decimal

end TemporalAlgebra
