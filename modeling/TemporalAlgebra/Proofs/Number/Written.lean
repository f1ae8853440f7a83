import Mathlib.Algebra.Order.Field.Rat
import Mathlib.Data.List.DropRight
import Mathlib.Tactic.Positivity
import TemporalAlgebra.Proofs.Number.Numerals

/-!
# Decimal numbers as they are written

A decimal number is written with a sign or none, digits, and perhaps more digits after a point. Its
text tells all of these. Zeros at the end of the decimals can be left out without changing the
number, and then nothing but the number decides how it is written.
-/
namespace TemporalAlgebra.Decimal

/-- How a decimal number is written: its sign, the digits before the point and those after it. -/
@[ext]
structure Written where
  negative : Bool
  whole : List Char
  fraction : List Char
  numeral_whole : Numeral whole
  numeral_fraction : Numeral fraction
  whole_ne_nil : whole ≠ []

namespace Written

/-- The text without its sign. There is no point if no digits come after it. -/
def unsigned (w : Written) : List Char :=
  w.whole ++ if w.fraction = [] then [] else '.' :: w.fraction

def text (w : Written) : List Char := if w.negative then '-' :: w.unsigned else w.unsigned

def coefficient (w : Written) : ℕ := value (w.whole ++ w.fraction)

def amount (w : Written) : ℚ :=
  (if w.negative then -1 else 1) * (w.coefficient / 10 ^ w.fraction.length)

/-- There are no zeros in front of other digits and none at the end of the decimals. -/
structure Short (w : Written) : Prop where
  whole : w.whole.head? = some '0' → w.whole = ['0']
  fraction : w.fraction.getLast? ≠ some '0'

/-- Nothing is written that could be left out: no such zeros, and no sign of zero. -/
structure Tidy (w : Written) : Prop extends Short w where
  sign : w.negative = true → w.amount ≠ 0

variable {v w : Written}

lemma takeWhile_unsigned (w : Written) : w.unsigned.takeWhile isDigit = w.whole ∧
    w.unsigned.dropWhile isDigit = if w.fraction = [] then [] else '.' :: w.fraction := by
  have hpoint : isDigit '.' = false := by decide
  unfold unsigned
  rw [List.takeWhile_append_of_pos w.numeral_whole, List.dropWhile_append_of_pos w.numeral_whole]
  split_ifs with h
  · exact ⟨List.append_nil _, rfl⟩
  · rw [List.takeWhile_cons_of_neg (by simp [hpoint]), List.dropWhile_cons_of_neg (by simp [hpoint])]
    exact ⟨List.append_nil _, rfl⟩

lemma head?_unsigned (w : Written) : w.unsigned.head? ≠ some '-' := by
  intro h
  unfold unsigned at h
  rw [List.head?_append_of_ne_nil _ w.whole_ne_nil] at h
  exact absurd (w.numeral_whole '-' (List.mem_of_mem_head? h)) (by decide)

lemma head?_text (w : Written) : w.text.head? = some '-' ↔ w.negative = true := by
  unfold text
  split_ifs with h
  · exact iff_of_true rfl h
  · exact iff_of_false w.head?_unsigned h

lemma text_injective (h : w.text = v.text) : w = v := by
  have hsign : w.negative = v.negative := by
    rw [Bool.eq_iff_iff, ← head?_text, ← head?_text, h]
  have hunsigned : w.unsigned = v.unsigned := by
    unfold text at h
    rw [hsign] at h
    split_ifs at h
    · exact List.tail_eq_of_cons_eq h
    · exact h
  obtain ⟨hw, hwrest⟩ := w.takeWhile_unsigned
  obtain ⟨hv, hvrest⟩ := v.takeWhile_unsigned
  refine Written.ext hsign (by rw [← hw, ← hv, hunsigned]) ?_
  rw [hunsigned, hvrest] at hwrest
  split_ifs at hwrest with hnone hnone' hnone'
  · rw [hnone, hnone']
  · exact (List.tail_eq_of_cons_eq hwrest).symm

lemma Short.length_le (h : w.Short)
    (hsame : w.coefficient * 10 ^ v.fraction.length = v.coefficient * 10 ^ w.fraction.length) :
    w.fraction.length ≤ v.fraction.length := by
  by_contra hlt
  obtain ⟨k, hk⟩ : ∃ k, w.fraction.length = k + 1 + v.fraction.length :=
    ⟨w.fraction.length - v.fraction.length - 1, by omega⟩
  have hne : w.fraction ≠ [] := List.length_pos_iff.mp (by omega)
  have hpow : 0 < 10 ^ v.fraction.length := Nat.pow_pos (by decide)
  have hten : w.coefficient = v.coefficient * 10 ^ k * 10 := by
    refine Nat.eq_of_mul_eq_mul_right hpow ?_
    rw [hsame, hk]
    ring
  have hlast := (w.numeral_whole.append w.numeral_fraction).getLast?_eq_zero
    (List.append_ne_nil_of_right_ne_nil _ hne) ⟨_, hten.trans (mul_comm _ _)⟩
  rw [List.getLast?_append_of_ne_nil _ hne] at hlast
  exact h.fraction hlast

lemma coefficient_eq (w : Written) :
    w.coefficient = value w.whole * 10 ^ w.fraction.length + value w.fraction :=
  value_append _ _

lemma coefficient_div (w : Written) : w.coefficient / 10 ^ w.fraction.length = value w.whole := by
  have hpow : 0 < 10 ^ w.fraction.length := Nat.pow_pos (by decide)
  rw [coefficient_eq, mul_comm, Nat.mul_add_div hpow,
    Nat.div_eq_of_lt (value_lt w.numeral_fraction), Nat.add_zero]

lemma Short.whole_eq (h : w.Short) : w.whole = digits (value w.whole) :=
  w.numeral_whole.eq_digits w.whole_ne_nil h.whole

lemma Short.eq_of_coefficient_eq (hw : w.Short) (hv : v.Short)
    (hlen : w.fraction.length = v.fraction.length) (h : w.coefficient = v.coefficient) :
    w.whole = v.whole ∧ w.fraction = v.fraction := by
  have hwhole : value w.whole = value v.whole := by
    rw [← coefficient_div, ← coefficient_div, hlen, h]
  rw [coefficient_eq, coefficient_eq, hlen, hwhole] at h
  constructor
  · rw [hw.whole_eq, hv.whole_eq, hwhole]
  · exact w.numeral_fraction.eq_of_value_eq v.numeral_fraction hlen (Nat.add_left_cancel h)

lemma amount_nonneg (h : w.negative = false) : 0 ≤ w.amount := by
  unfold amount
  rw [h, if_neg Bool.false_ne_true, one_mul]
  positivity

lemma amount_nonpos (h : w.negative = true) : w.amount ≤ 0 := by
  unfold amount
  rw [h, if_pos rfl, neg_one_mul, Left.neg_nonpos_iff]
  positivity

lemma amount_eq_zero_iff : w.amount = 0 ↔ w.coefficient = 0 := by
  have hsign : (if w.negative then -1 else 1 : ℚ) ≠ 0 := by split_ifs <;> norm_num
  have hpow : (10 : ℚ) ^ w.fraction.length ≠ 0 := by positivity
  unfold amount
  rw [mul_eq_zero, or_iff_right hsign, div_eq_zero_iff, or_iff_left hpow, Nat.cast_eq_zero]

lemma Tidy.negative_iff (h : w.Tidy) : w.negative = true ↔ w.amount < 0 := by
  constructor
  · intro hneg
    exact (amount_nonpos hneg).lt_of_ne (h.sign hneg)
  · intro hneg
    by_contra hpos
    exact hneg.not_ge (amount_nonneg (Bool.eq_false_iff.mpr hpos))

/-- There is only one tidy way to write a number. -/
lemma Tidy.eq_of_amount_eq (hw : w.Tidy) (hv : v.Tidy) (h : w.amount = v.amount) : w = v := by
  have hsign : w.negative = v.negative := by
    rw [Bool.eq_iff_iff, hw.negative_iff, hv.negative_iff, h]
  have hsize : (w.coefficient : ℚ) / 10 ^ w.fraction.length =
      v.coefficient / 10 ^ v.fraction.length := by
    unfold amount at h
    rw [hsign] at h
    refine mul_left_cancel₀ ?_ h
    split_ifs <;> norm_num
  have hsame : w.coefficient * 10 ^ v.fraction.length = v.coefficient * 10 ^ w.fraction.length := by
    rw [div_eq_div_iff (by positivity) (by positivity)] at hsize
    exact_mod_cast hsize
  have hlen : w.fraction.length = v.fraction.length :=
    le_antisymm (hw.length_le hsame) (hv.length_le hsame.symm)
  rw [hlen] at hsame
  have hcoefficient := Nat.eq_of_mul_eq_mul_right (Nat.pow_pos (by decide)) hsame
  obtain ⟨hwhole, hfraction⟩ := hw.eq_of_coefficient_eq hv.toShort hlen hcoefficient
  exact Written.ext hsign hwhole hfraction

end Written

section

variable {as cs : List Char} {c : Char}

/-- Zeros are dropped behind the last other character only. -/
lemma dropTrailingZeros_append (as cs : List Char) (hc : c ≠ '0') :
    dropTrailingZeros (as ++ c :: cs) = as ++ c :: dropTrailingZeros cs := by
  have hneg : ¬(fun c => c == '0') c = true := by simpa using hc
  change (as ++ c :: cs).rdropWhile _ = as ++ c :: cs.rdropWhile _
  induction cs using List.reverseRecOn with
  | nil => rw [List.rdropWhile_concat_neg (fun c => c == '0') _ _ hneg, List.rdropWhile_nil]
  | append_singleton ds d ih =>
    rw [← List.cons_append, ← List.append_assoc, List.rdropWhile_concat, List.rdropWhile_concat, ih]
    split_ifs
    · rfl
    · simp

lemma getLast?_dropTrailingZeros (cs : List Char) : (dropTrailingZeros cs).getLast? ≠ some '0' := by
  change (cs.rdropWhile _).getLast? ≠ _
  rcases eq_or_ne (cs.rdropWhile fun c => c == '0') [] with hnil | hne
  · rw [hnil]
    exact nofun
  · have hlast := List.rdropWhile_last_not _ _ hne
    rw [List.getLast?_eq_some_getLast hne, Ne, Option.some.injEq]
    simpa using hlast

lemma dropTrailingPoints_numeral (as : List Char) (hc : Numeral cs) (hne : cs ≠ []) :
    dropTrailingPoints (as ++ cs) = as ++ cs := by
  obtain rfl | ⟨ds, d, rfl⟩ := List.eq_nil_or_concat' cs
  · exact absurd rfl hne
  have hd : ¬(fun c => c == '.') d = true := by
    intro h
    have hdigit := hc.last
    rw [beq_iff_eq.mp h] at hdigit
    exact absurd hdigit (by decide)
  change (as ++ (ds ++ [d])).rdropWhile _ = _
  rw [← List.append_assoc, List.rdropWhile_concat_neg (fun c => c == '.') _ _ hd]

end

namespace Written

variable {v w : Written}

/-- Without the zeros at the end of the decimals. -/
def shortened (w : Written) : Written where
  negative := w.negative
  whole := w.whole
  fraction := dropTrailingZeros w.fraction
  numeral_whole := w.numeral_whole
  numeral_fraction := numeral_dropTrailingZeros w.numeral_fraction
  whole_ne_nil := w.whole_ne_nil

/-- Without the sign of zero. -/
def settled (w : Written) : Written where
  negative := w.negative && w.coefficient != 0
  whole := w.whole
  fraction := w.fraction
  numeral_whole := w.numeral_whole
  numeral_fraction := w.numeral_fraction
  whole_ne_nil := w.whole_ne_nil

lemma amount_shortened (w : Written) : w.shortened.amount = w.amount := by
  obtain ⟨k, hsplit, -⟩ := exists_zeros w.fraction
  have hcoefficient : w.coefficient = w.shortened.coefficient * 10 ^ k := by
    unfold coefficient
    rw [hsplit, ← List.append_assoc, value_append, value_zeros, List.length_replicate, Nat.add_zero]
    rfl
  have hlength : w.fraction.length = w.shortened.fraction.length + k := by
    conv_lhs => rw [hsplit, List.length_append, List.length_replicate]
    rfl
  have hpow : (10 : ℚ) ^ k ≠ 0 := by positivity
  unfold amount
  rw [hcoefficient, hlength, pow_add, Nat.cast_mul, Nat.cast_pow, Nat.cast_ofNat,
    mul_div_mul_right _ _ hpow]
  rfl

lemma amount_settled (w : Written) : w.settled.amount = w.amount := by
  have hcoefficient : w.settled.coefficient = w.coefficient := rfl
  unfold amount
  rcases eq_or_ne w.coefficient 0 with hzero | hne
  · rw [hcoefficient, hzero, Nat.cast_zero, zero_div, zero_div, mul_zero, mul_zero]
  · have hsign : w.settled.negative = w.negative := by
      change (w.negative && w.coefficient != 0) = w.negative
      rw [bne_iff_ne.mpr hne, Bool.and_true]
    rw [hcoefficient, hsign]
    rfl

/-- A sign, if there is one, and the digits before the point. -/
def front (w : Written) : List Char := if w.negative then '-' :: w.whole else w.whole

lemma text_eq (w : Written) :
    w.text = w.front ++ if w.fraction = [] then [] else '.' :: w.fraction := by
  unfold text front unsigned
  split_ifs <;> rfl

lemma exists_front (w : Written) : ∃ sign, w.front = sign ++ w.whole := by
  unfold front
  split_ifs
  · exact ⟨['-'], rfl⟩
  · exact ⟨[], rfl⟩

lemma point_notMem_front (w : Written) : '.' ∉ w.front := by
  have hwhole : '.' ∉ w.whole := fun h => absurd (w.numeral_whole '.' h) (by decide)
  unfold front
  split_ifs
  · exact List.not_mem_cons_of_ne_of_not_mem (by decide) hwhole
  · exact hwhole

lemma point_mem_text (w : Written) : '.' ∈ w.text ↔ w.fraction ≠ [] := by
  rw [text_eq, List.mem_append, or_iff_right w.point_notMem_front]
  split_ifs with h
  · exact iff_of_false List.not_mem_nil fun hne => hne h
  · exact iff_of_true List.mem_cons_self h

/-- Zeros behind the point are dropped, with the point if there is nothing else behind it. Zeros in
front of it are kept. -/
lemma trimPlaces_text (w : Written) : trimPlaces w.text = w.shortened.text := by
  have hfront : w.shortened.front = w.front := rfl
  have hfraction : w.shortened.fraction = dropTrailingZeros w.fraction := rfl
  unfold trimPlaces
  rcases eq_or_ne w.fraction [] with hnone | hsome
  · rw [if_neg fun h => w.point_mem_text.mp h hnone]
    refine congrArg text (Written.ext rfl rfl ?_)
    rw [hfraction, hnone]
    rfl
  rw [if_pos (w.point_mem_text.mpr hsome), w.shortened.text_eq, hfront, hfraction, text_eq,
    if_neg hsome, dropTrailingZeros_append _ _ (by decide)]
  rcases eq_or_ne (dropTrailingZeros w.fraction) [] with hzeros | hkept
  · -- the point is left behind the digits in front of it
    obtain ⟨sign, hsign⟩ := w.exists_front
    have hdrop : dropTrailingPoints (w.front ++ ['.']) = dropTrailingPoints w.front :=
      List.rdropWhile_concat_pos (fun c => c == '.') _ _ rfl
    rw [hzeros, if_pos rfl, List.append_nil, hdrop, hsign]
    exact dropTrailingPoints_numeral sign w.numeral_whole w.whole_ne_nil
  · rw [if_neg hkept, List.append_cons]
    exact dropTrailingPoints_numeral _ (numeral_dropTrailingZeros w.numeral_fraction) hkept

example : trimPlaces "1200".toList = "1200".toList ∧ trimPlaces "1200.00".toList = "1200".toList ∧
    trimPlaces "-0.050".toList = "-0.05".toList := by decide

def negativeZero : Written where
  negative := true
  whole := ['0']
  fraction := []
  numeral_whole := List.forall_mem_singleton.mpr (by decide)
  numeral_fraction := List.forall_mem_nil _
  whole_ne_nil := List.cons_ne_nil _ _

lemma Short.eq_zero (h : w.Short) (hzero : w.coefficient = 0) :
    w.whole = ['0'] ∧ w.fraction = [] := by
  have hwhole : value w.whole = 0 := by rw [← coefficient_div, hzero, Nat.zero_div]
  rw [coefficient_eq, hwhole, Nat.zero_mul, Nat.zero_add] at hzero
  constructor
  · rw [h.whole_eq, hwhole, digits_zero]
  · by_contra hne
    exact h.fraction (w.numeral_fraction.getLast?_eq_zero hne (hzero ▸ Nat.dvd_zero 10))

/-- Only zero loses its sign. -/
lemma Short.text_settled (h : w.Short) :
    (if w.text = ['-', '0'] then ['0'] else w.text) = w.settled.text := by
  split_ifs with htext
  · obtain rfl : w = negativeZero := text_injective htext
    rfl
  · have hsign : (w.negative && w.coefficient != 0) = w.negative := by
      rw [Bool.and_eq_left_iff_imp]
      intro hneg
      rw [bne_iff_ne]
      intro hzero
      obtain ⟨hwhole, hfraction⟩ := h.eq_zero hzero
      refine htext ?_
      unfold text unsigned
      rw [hneg, hwhole, hfraction]
      rfl
    exact congrArg text (Written.ext hsign.symm rfl rfl)

lemma Short.tidy_settled (h : w.Short) : w.settled.Tidy := by
  refine ⟨⟨h.whole, h.fraction⟩, fun hneg hzero => ?_⟩
  rw [amount_settled, amount_eq_zero_iff] at hzero
  change (w.negative && w.coefficient != 0) = true at hneg
  rw [hzero, bne_self_eq_false, Bool.and_false] at hneg
  cases hneg

lemma length_shortened_le (w : Written) : w.shortened.fraction.length ≤ w.fraction.length := by
  obtain ⟨k, hsplit, -⟩ := exists_zeros w.fraction
  conv_rhs => rw [hsplit, List.length_append]
  exact Nat.le_add_right _ _

/-- `n / 10 ^ places` with all decimals. -/
def full (negative : Bool) (n places : ℕ) : Written where
  negative := negative
  whole := digits (n / 10 ^ places)
  fraction := if places = 0 then [] else padded places (n % 10 ^ places)
  numeral_whole := numeral_digits _
  numeral_fraction := by
    split_ifs
    · exact List.forall_mem_nil _
    · exact numeral_padded _ _
  whole_ne_nil := digits_ne_nil _

section

variable (negative : Bool) (n places : ℕ)

lemma text_full :
    (full negative n places).text =
      if negative then '-' :: withPlaces n places else withPlaces n places := by
  have hunsigned : (full negative n places).unsigned = withPlaces n places := by
    unfold unsigned full withPlaces
    dsimp only
    split_ifs with hplaces hnone hnone
    · rfl
    · exact absurd rfl hnone
    · exact absurd hnone (padded_ne_nil _ _)
    · rfl
  unfold text
  rw [hunsigned]
  rfl

lemma length_full : (full negative n places).fraction.length = places := by
  unfold full
  dsimp only
  split_ifs with h
  · exact h.symm
  · exact length_padded (Nat.pos_of_ne_zero h) (Nat.mod_lt _ (Nat.pow_pos (by decide)))

lemma coefficient_full : (full negative n places).coefficient = n := by
  have hfraction : value (full negative n places).fraction = n % 10 ^ places := by
    unfold full
    dsimp only
    split_ifs with h
    · rw [h, Nat.pow_zero, Nat.mod_one]
      rfl
    · exact value_padded _ _
  have hwhole : value (full negative n places).whole = n / 10 ^ places := value_digits _
  rw [coefficient_eq, length_full, hfraction, hwhole, mul_comm, Nat.div_add_mod]

lemma amount_full : (full negative n places).amount =
    (if negative then -1 else 1) * (n / 10 ^ places) := by
  unfold amount
  rw [coefficient_full, length_full]
  rfl

lemma exists_tidy : ∃ w : Written, w.Tidy ∧ w.fraction.length ≤ places ∧
    w.amount = (if negative then -1 else 1) * (n / 10 ^ places) ∧
    let text := trimPlaces (if negative then '-' :: withPlaces n places else withPlaces n places)
    (if text = ['-', '0'] then ['0'] else text) = w.text := by
  have hshort : (full negative n places).shortened.Short :=
    ⟨digits_of_head?, getLast?_dropTrailingZeros _⟩
  refine ⟨(full negative n places).shortened.settled, hshort.tidy_settled,
    (length_shortened_le _).trans (length_full negative n places).le, ?_, ?_⟩
  · rw [amount_settled, amount_shortened, amount_full]
  · rw [← text_full, trimPlaces_text]
    exact hshort.text_settled

end

def integer (k : ℤ) : Written where
  negative := decide (k < 0)
  whole := digits k.natAbs
  fraction := []
  numeral_whole := numeral_digits _
  numeral_fraction := List.forall_mem_nil _
  whole_ne_nil := digits_ne_nil _

lemma text_integer (k : ℤ) : (integer k).text = (ofInt k).toList := by
  have hunsigned : (integer k).unsigned = digits k.natAbs := List.append_nil _
  have hsign : (integer k).negative = decide (k < 0) := rfl
  rw [toList_ofInt, text, hunsigned, hsign]
  simp only [decide_eq_true_eq]

lemma amount_of_whole (h : w.fraction = []) :
    w.amount = ((if w.negative then -1 else 1) * (w.coefficient : ℤ) : ℤ) := by
  unfold amount
  rw [h, List.length_nil, pow_zero, div_one]
  split_ifs <;> push_cast <;> rfl

lemma amount_integer (k : ℤ) : (integer k).amount = k := by
  have hcoefficient : (integer k).coefficient = k.natAbs := by
    have hdigits : (integer k).whole ++ (integer k).fraction = digits k.natAbs := List.append_nil _
    rw [coefficient, hdigits, value_digits]
  have hsign : (integer k).negative = decide (k < 0) := rfl
  rw [amount_of_whole rfl, hcoefficient, hsign, Int.cast_inj]
  split_ifs with h <;> rw [decide_eq_true_eq] at h <;> omega

lemma tidy_integer (k : ℤ) : (integer k).Tidy := by
  refine ⟨⟨digits_of_head?, nofun⟩, fun hneg hzero => ?_⟩
  rw [amount_integer, Int.cast_eq_zero] at hzero
  have : k < 0 := of_decide_eq_true hneg
  omega

lemma Tidy.getLast?_text (h : w.Tidy) (hpoint : '.' ∈ w.text) :
    ∃ c, w.text.getLast? = some c ∧ isDigit c = true ∧ c ≠ '0' := by
  have hne := w.point_mem_text.mp hpoint
  have hlast := List.getLast?_eq_some_getLast hne
  refine ⟨w.fraction.getLast hne, ?_, w.numeral_fraction _ (List.getLast_mem hne), fun hzero => ?_⟩
  · rw [text_eq, if_neg hne, List.append_cons, List.getLast?_append_of_ne_nil _ hne, hlast]
  · rw [hzero] at hlast
    exact h.fraction hlast

end Written

end TemporalAlgebra.Decimal
