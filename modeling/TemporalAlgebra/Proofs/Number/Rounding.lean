import Mathlib.Tactic.SplitIfs
import TemporalAlgebra.Number.Decimal
import TemporalAlgebra.Proofs.Number.Integral

/-!
# Integers rounded to numbers

An integer of more than 53 bits is rounded to the nearest number, ties to even. Rounding does not
change the order of integers, though it may make them equal.
-/
namespace TemporalAlgebra

namespace Decimal

lemma roundDiv_bounds (num den : Nat) :
    num / den ≤ roundDiv num den ∧ roundDiv num den ≤ num / den + 1 := by
  unfold roundDiv
  dsimp only
  split_ifs <;> omega

lemma roundDiv_mul_eq_iff {num den : Nat} (h : 0 < den) :
    roundDiv num den * den = num ↔ den ∣ num := by
  constructor
  · exact fun heq => Dvd.intro_left _ heq
  · rintro ⟨quotient, rfl⟩
    unfold roundDiv
    dsimp only
    rw [Nat.mul_div_cancel_left _ h, Nat.mul_mod_right, if_pos (by omega), Nat.mul_comm]

lemma roundDiv_mono {m n : Nat} (den : Nat) (h : m ≤ n) : roundDiv m den ≤ roundDiv n den := by
  rcases (Nat.div_le_div_right (c := den) h).eq_or_lt with heq | hlt
  · have hmod : m % den ≤ n % den := by
      have hm := Nat.div_add_mod m den
      have hn := Nat.div_add_mod n den
      rw [heq] at hm
      omega
    -- The quotients are the same, so the remainders decide.
    unfold roundDiv
    dsimp only
    rw [heq]
    split_ifs <;> omega
  · calc roundDiv m den ≤ m / den + 1 := (roundDiv_bounds m den).2
      _ ≤ n / den := hlt
      _ ≤ roundDiv n den := (roundDiv_bounds n den).1

end Decimal

namespace Binary64

open Float.Model (Format UnpackedFloat totalExponent)
open Float.Model.UnpackedFloat

/-- A quotient of which two bits are kept behind the integer: whether the rest is half a unit or
more, and whether it is neither nothing nor half a unit. -/
def quotientBits (num den : Nat) : ExtendedMantissa :=
  ⟨num / den, decide (den ≤ 2 * (num % den)), decide (2 * (num % den) % den ≠ 0)⟩

lemma shiftRightOne_quotientBits (num : Nat) {den : Nat} (h : 0 < den) :
    (quotientBits num den).shiftRightOne = quotientBits num (den * 2) := by
  have hlt : num % den < den := Nat.mod_lt _ h
  have hmod : num % (den * 2) = num % den + den * (num / den % 2) := Nat.mod_mul
  have hquot : num / (den * 2) = num / den / 2 := (Nat.div_div_eq_div_mul ..).symm
  unfold quotientBits ExtendedMantissa.shiftRightOne
  rw [hquot, hmod]
  generalize num % den = r at hlt ⊢
  have hrest : 2 * (r + den * (num / den % 2)) % (den * 2) = 2 * r := by
    rw [Nat.mul_add, ← Nat.mul_assoc, Nat.mul_comm 2 den, Nat.add_mul_mod_self_left,
      Nat.mod_eq_of_lt (by omega)]
  have hsticky : (decide (den ≤ 2 * r) || decide (2 * r % den ≠ 0)) = decide (2 * r ≠ 0) := by
    by_cases h : den ≤ 2 * r
    · simp only [h, decide_true, Bool.true_or, true_eq_decide_iff]
      omega
    · simp only [h, decide_false, Bool.false_or, Nat.mod_eq_of_lt (Nat.lt_of_not_le h)]
  rw [hrest]
  dsimp only
  rw [hsticky]
  rcases Nat.mod_two_eq_zero_or_one (num / den) with hbit | hbit <;> rw [hbit] <;> simp <;> omega

lemma shift_quotientBits (num k : Nat) {den : Nat} (h : 0 < den) :
    quotientBits num den >>> k = quotientBits num (den * 2 ^ k) := by
  induction k with
  | zero =>
    rw [Nat.pow_zero, Nat.mul_one]
    rfl
  | succ k ih =>
    change (quotientBits num den >>> k).shiftRightOne = _
    rw [ih, shiftRightOne_quotientBits num (Nat.mul_pos h (Nat.two_pow_pos k)), Nat.pow_succ,
      Nat.mul_assoc]

lemma ofMantissaAndAccuracy_quotient (num : Nat) {den : Nat} (h : 0 < den) :
    ExtendedMantissa.ofMantissaAndAccuracy (num / den) (accuracyOfFraction (num % den) den) =
      quotientBits num den := by
  have hlt : num % den < den := Nat.mod_lt _ h
  unfold quotientBits accuracyOfFraction
  generalize num % den = r at hlt ⊢
  by_cases hzero : r = 0
  · subst hzero
    rw [if_pos rfl, decide_eq_false (by omega), decide_eq_false (by simp)]
    rfl
  rw [if_neg hzero]
  rcases Nat.lt_trichotomy (2 * r) den with hrest | hrest | hrest
  · rw [Nat.compare_eq_lt.mpr hrest, decide_eq_false (by omega), Nat.mod_eq_of_lt hrest,
      decide_eq_true (by omega)]
    rfl
  · rw [Nat.compare_eq_eq.mpr hrest, hrest, Nat.mod_self, decide_eq_true (by omega)]
    rfl
  · have hmod : 2 * r % den = 2 * r - den := by
      rw [Nat.mod_eq_sub_mod (by omega), Nat.mod_eq_of_lt (by omega)]
    rw [Nat.compare_eq_gt.mpr hrest, decide_eq_true (by omega), hmod, decide_eq_true (by omega)]
    rfl

lemma roundedMantissa_quotientBits (num : Nat) {den : Nat} (h : 0 < den) :
    (quotientBits num den).roundedMantissa = Decimal.roundDiv num den := by
  have hlt : num % den < den := Nat.mod_lt _ h
  unfold quotientBits ExtendedMantissa.roundedMantissa Decimal.roundDiv
  dsimp only
  generalize num % den = r at hlt ⊢
  generalize num / den = q
  rcases Nat.lt_trichotomy (2 * r) den with h | h | h
  · rw [if_pos h, decide_eq_false (by omega), Nat.mod_eq_of_lt h]
    by_cases hr : 2 * r = 0
    · rw [decide_eq_false (by omega)]
      rfl
    · rw [decide_eq_true hr]
      rfl
  · rw [if_neg (by omega), if_neg (by omega), decide_eq_true (by omega), h, Nat.mod_self]
    rfl
  · have hmod : 2 * r % den = 2 * r - den := by
      rw [Nat.mod_eq_sub_mod (by omega), Nat.mod_eq_of_lt (by omega)]
    rw [if_neg (by omega), if_pos h, decide_eq_true (by omega), hmod, decide_eq_true (by omega)]
    rfl

/-- A natural number of which the last bits are shifted out. -/
def shifted (n k : Nat) : ExtendedMantissa :=
  ExtendedMantissa.ofMantissaAndAccuracy n .exact >>> k

lemma shifted_succ (n k : Nat) : shifted n (k + 1) = (shifted n k).shiftRightOne := rfl

lemma shifted_eq (n k : Nat) : shifted n k = quotientBits n (2 ^ k) := by
  have hwhole : ExtendedMantissa.ofMantissaAndAccuracy n .exact = quotientBits n 1 := by
    unfold quotientBits
    rw [Nat.div_one, Nat.mod_one]
    rfl
  rw [shifted, hwhole, shift_quotientBits n k Nat.one_pos, Nat.one_mul]

lemma rounded_shifted (n k : Nat) : (shifted n k).roundedMantissa = Decimal.roundDiv n (2 ^ k) := by
  rw [shifted_eq, roundedMantissa_quotientBits n (Nat.two_pow_pos k)]

lemma shift_zeros_more (n j k : Nat) :
    ExtendedMantissa.ofMantissaAndAccuracy (n * 2 ^ j) .exact >>> (j + k) = shifted n k := by
  induction k with
  | zero => exact shift_zeros n j
  | succ k ih =>
    rw [shifted_succ, ← ih]
    rfl

lemma mantissa_shift (em : ExtendedMantissa) (k : Nat) :
    (em >>> k).mantissa = em.mantissa / 2 ^ k := by
  induction k with
  | zero => exact (Nat.div_one _).symm
  | succ k ih =>
    change (em >>> k).mantissa / 2 = _
    rw [ih, Nat.div_div_eq_div_mul, Nat.pow_succ]

lemma roundedMantissa_bounds (em : ExtendedMantissa) :
    em.mantissa ≤ em.roundedMantissa ∧ em.roundedMantissa ≤ em.mantissa + 1 := by
  obtain ⟨mantissa, round, sticky⟩ := em
  unfold ExtendedMantissa.roundedMantissa
  cases round <;> cases sticky
  · exact ⟨le_rfl, Nat.le_succ _⟩
  · exact ⟨le_rfl, Nat.le_succ _⟩
  · change mantissa ≤ mantissa + mantissa % 2 ∧ mantissa + mantissa % 2 ≤ mantissa + 1
    omega
  · exact ⟨Nat.le_succ _, le_rfl⟩

/-- A mantissa of which the last bits are shifted out, rounded as its accuracy says. -/
def roundedOff (m k : Nat) (accuracy : Accuracy) : Nat :=
  (ExtendedMantissa.ofMantissaAndAccuracy m accuracy >>> k).roundedMantissa

lemma roundedOff_quotient (num k : Nat) {den : Nat} (h : 0 < den) :
    roundedOff (num / den) k (accuracyOfFraction (num % den) den) =
      Decimal.roundDiv num (den * 2 ^ k) := by
  rw [roundedOff, ofMantissaAndAccuracy_quotient num h, shift_quotientBits num k h,
    roundedMantissa_quotientBits num (Nat.mul_pos h (Nat.two_pow_pos k))]

lemma rounded_bounds (m k : Nat) (accuracy : Accuracy) :
    m / 2 ^ k ≤ roundedOff m k accuracy ∧ roundedOff m k accuracy ≤ m / 2 ^ k + 1 := by
  have hbounds := roundedMantissa_bounds (ExtendedMantissa.ofMantissaAndAccuracy m accuracy >>> k)
  have hmantissa : (ExtendedMantissa.ofMantissaAndAccuracy m accuracy).mantissa = m := by
    cases accuracy with
    | exact => rfl
    | inexact o => cases o <;> rfl
  rwa [mantissa_shift, hmantissa] at hbounds

/-- A mantissa that was rounded up to a power of two loses its last bit, and its exponent grows by
one. -/
lemma exists_settled {q : Nat} {e : Int} (hlo : 2 ^ 52 ≤ q) (hhi : q ≤ 2 ^ 53) (he : -1074 ≤ e)
    (he' : e ≤ 970) : ∃ m e', m.log2 = 52 ∧ -1074 ≤ e' ∧ e' ≤ 971 ∧
      (m = q ∧ e' = e ∨ q = 2 ^ 53 ∧ m = 2 ^ 52 ∧ e' = e + 1) ∧
      shiftToTargetExponent .binary64 q e .exact =
        (ExtendedMantissa.ofMantissaAndAccuracy m .exact, e') := by
  rcases Nat.lt_or_ge q (2 ^ 53) with hlt | hge
  · have hlog : q.log2 = 52 := (Nat.log2_eq_iff (by omega)).mpr ⟨hlo, hlt⟩
    have hshift := shiftToTarget hlog he 0
    rw [Nat.pow_zero, Nat.mul_one, Int.natCast_zero, Int.sub_zero] at hshift
    exact ⟨q, e, hlog, he, by omega, Or.inl ⟨rfl, rfl⟩, hshift⟩
  · obtain rfl : q = 2 ^ 52 * 2 ^ 1 := by omega
    have hlog : (2 ^ 52).log2 = 52 := by decide
    have hshift := shiftToTarget hlog (by omega : -1074 ≤ e + 1) 1
    rw [Int.natCast_one, Int.add_sub_cancel] at hshift
    exact ⟨2 ^ 52, e + 1, hlog, by omega, by omega, Or.inr ⟨rfl, rfl, rfl⟩, hshift⟩

lemma quotient_bounds {n k : Nat} (hne : n ≠ 0) (hlog : n.log2 = 52 + k) :
    2 ^ 52 ≤ n / 2 ^ k ∧ n / 2 ^ k < 2 ^ 53 := by
  obtain ⟨hlo, hhi⟩ := (Nat.log2_eq_iff hne).mp hlog
  constructor
  · rwa [Nat.le_div_iff_mul_le (Nat.two_pow_pos k), ← Nat.pow_add]
  · have hexponent : 53 + k = 52 + k + 1 := by omega
    rwa [Nat.div_lt_iff_lt_mul (Nat.two_pow_pos k), ← Nat.pow_add, hexponent]

lemma exists_rounded {s : Sign} {m k : Nat} {e : Int} (hlog : m.log2 = 52 + k)
    (he : -1074 ≤ e + k) (he' : e + k ≤ 970) (accuracy : Accuracy) :
    ∃ m' e', ∃ hpos : 0 < m', m'.log2 = 52 ∧ -1074 ≤ e' ∧ e' ≤ 971 ∧
      (m' = roundedOff m k accuracy ∧ e' = e + k ∨
        roundedOff m k accuracy = 2 ^ 53 ∧ m' = 2 ^ 52 ∧ e' = e + k + 1) ∧
      roundWithAccuracy .binary64 s m e accuracy = .finite s m' e' hpos := by
  have hne : m ≠ 0 := by
    rintro rfl
    rw [Nat.log2_zero] at hlog
    omega
  have hquot := quotient_bounds hne hlog
  have hrounded := rounded_bounds m k accuracy
  have htarget : Format.binary64.targetExponent (totalExponent m e) = e + k := by
    change Max.max ((m.log2 : Int) + 1 + e - 53) (-1074) = e + k
    omega
  have hamount : (e + k - e).toNat = k := by omega
  have hfirst : shiftToTargetExponent .binary64 m e accuracy =
      (ExtendedMantissa.ofMantissaAndAccuracy m accuracy >>> k, e + k) := by
    unfold shiftToTargetExponent shiftToExponent
    simp only [htarget, hamount]
  obtain ⟨m', e', hm, hlo, hhi, hsame, hsecond⟩ := exists_settled
    (q := roundedOff m k accuracy) (e := e + k) (by omega) (by omega) he he'
  have hpos : 0 < m' := Nat.pos_of_ne_zero (mantissa_bounds hm).1
  exact ⟨m', e', hpos, hm, hlo, hhi, hsame, roundWithAccuracy_eq hfirst hsecond hpos⟩

/-- A natural number of more than 53 bits, with zeros behind it or none, is rounded to a mantissa of
53 bits. -/
lemma exists_roundWithAccuracy {n k : Nat} (hlog : n.log2 = 52 + k) (hk : k ≤ 970) (j : Nat) :
    ∃ m e, ∃ hpos : 0 < m, m.log2 = 52 ∧ -1074 ≤ e ∧ e ≤ 971 ∧
      place m e = place (Decimal.roundDiv n (2 ^ k)) k ∧
      roundWithAccuracy .binary64 .positive (n * 2 ^ j) (-j) .exact =
        .finite .positive m e hpos := by
  have hne : n ≠ 0 := by
    rintro rfl
    rw [Nat.log2_zero] at hlog
    omega
  have hlogj : (n * 2 ^ j).log2 = 52 + (j + k) := by
    rw [log2_mul_two_pow hne, hlog]
    omega
  have hrounded : roundedOff (n * 2 ^ j) (j + k) .exact = Decimal.roundDiv n (2 ^ k) := by
    rw [roundedOff, shift_zeros_more, rounded_shifted]
  obtain ⟨m, e, hpos, hm, he, he', hsame, hround⟩ := exists_rounded (s := .positive)
    (e := -(j : Int)) hlogj (by omega) (by omega) .exact
  rw [hrounded] at hsame
  refine ⟨m, e, hpos, hm, he, he', ?_, hround⟩
  rcases hsame with ⟨rfl, rfl⟩ | ⟨hq, rfl, rfl⟩
  · congr 1
    omega
  · rw [hq]
    unfold place biased
    omega

lemma ofInt_large {n : Nat} (hn : 2 ^ 53 ≤ n) : ofInt n = Float.ofModel (Float.Model.pack
    (roundWithAccuracy .binary64 .positive (n * 2 ^ 53) (-(53 : Nat)) .exact)) := by
  have hne : n ≠ 0 := by omega
  have hproduct : UnpackedFloat.ofScientific .binary64 n 0 =
      roundWithAccuracy .binary64 .positive ((n <<< 53) * 1) (-(53 : Nat) + 0) .exact := by
    unfold UnpackedFloat.ofScientific
    rw [dif_neg hne, if_neg (by decide), if_neg, if_pos le_rfl]
    · rfl
    · change ¬(0 : Int) < -(2 ^ 11 + n.log2)
      omega
  change Float.ofScientific n false 0 = _
  unfold Float.ofScientific
  rw [dif_neg (by omega)]
  change Float.ofModel (Float.Model.pack (UnpackedFloat.ofScientific .binary64 n 0)) = _
  rw [hproduct, Nat.shiftLeft_eq, Nat.mul_one, Int.add_zero]

/-- Place of a positive integer among the numbers, after rounding. -/
def rank (n : Nat) : Nat :=
  if n < 2 ^ 53 then position n
  else place (Decimal.roundDiv n (2 ^ (n.log2 - 52))) (n.log2 - 52 : Nat)

lemma exists_ofInt_eq {n : Nat} (hn : n ≠ 0) (hn' : n < 2 ^ 64) : ∃ m e, ∃ hpos : 0 < m,
    m.log2 = 52 ∧ -1074 ≤ e ∧ e ≤ 971 ∧ place m e = rank n ∧
      ofInt n = Float.ofModel (Float.Model.pack (.finite .positive m e hpos)) := by
  have hlog := (Nat.log2_lt hn).mpr hn'
  by_cases hsmall : n < 2 ^ 53
  · rw [rank, if_pos hsmall]
    have hlog := (Nat.log2_lt hn).mpr hsmall
    have hmantissa := log2_mantissa hn hsmall
    have hpos : 0 < mantissa n := Nat.pos_of_ne_zero (mantissa_bounds hmantissa).1
    exact ⟨mantissa n, n.log2 - 52, hpos, hmantissa, by omega, by omega, rfl,
      ofInt_natural hn hsmall hpos⟩
  · rw [rank, if_neg hsmall]
    have hlarge := Nat.not_lt.mp hsmall
    have hbits : 53 ≤ n.log2 := (Nat.le_log2 hn).mpr hlarge
    obtain ⟨m, e, hpos, hm, he, he', hplace, hround⟩ := exists_roundWithAccuracy
      (n := n) (k := n.log2 - 52) (by omega) (by omega) 53
    exact ⟨m, e, hpos, hm, he, he', hplace, (ofInt_large hlarge).trans
      (congrArg (fun f => Float.ofModel (Float.Model.pack f)) hround)⟩

lemma rank_bounds {n : Nat} (hn : n ≠ 0) :
    biased (n.log2 - 52) * 2 ^ 52 ≤ rank n ∧ rank n ≤ (biased (n.log2 - 52) + 1) * 2 ^ 52 := by
  unfold rank
  split
  · rename_i hsmall
    obtain ⟨-, hlo, hhi⟩ := mantissa_bounds (log2_mantissa hn hsmall)
    unfold position place
    omega
  · rename_i hlarge
    have hbits : 53 ≤ n.log2 := (Nat.le_log2 hn).mpr (Nat.not_lt.mp hlarge)
    have hexponent : ((n.log2 - 52 : Nat) : Int) = n.log2 - 52 := by omega
    have hhi : n / 2 ^ (n.log2 - 52) < 2 ^ 53 := by
      rw [Nat.div_lt_iff_lt_mul (Nat.two_pow_pos _), ← Nat.pow_add]
      exact (Nat.log2_lt hn).mp (by omega)
    have hrounded := (Decimal.roundDiv_bounds n (2 ^ (n.log2 - 52))).2
    rw [hexponent]
    unfold place
    omega

lemma rank_mono {m n : Nat} (hm : m ≠ 0) (h : m < n) : rank m ≤ rank n := by
  have hn : n ≠ 0 := by omega
  have hlog : m.log2 ≤ n.log2 := (Nat.le_log2 hn).mpr ((Nat.log2_self_le hm).trans h.le)
  rcases hlog.eq_or_lt with heq | hlt
  · have hsmall : m < 2 ^ 53 ↔ n < 2 ^ 53 := by
      rw [← Nat.log2_lt hm, ← Nat.log2_lt hn, heq]
    unfold rank
    rw [heq]
    by_cases hn' : n < 2 ^ 53
    · rw [if_pos (hsmall.mpr hn'), if_pos hn']
      exact (position_lt hm hn' h).le
    · rw [if_neg (hsmall.not.mpr hn'), if_neg hn']
      have := Decimal.roundDiv_mono (2 ^ (n.log2 - 52)) h.le
      unfold place
      omega
  · have hbiased : biased (m.log2 - 52) + 1 ≤ biased (n.log2 - 52) := by
      unfold biased
      omega
    calc rank m ≤ (biased (m.log2 - 52) + 1) * 2 ^ 52 := (rank_bounds hm).2
      _ ≤ biased (n.log2 - 52) * 2 ^ 52 := Nat.mul_le_mul_right _ hbiased
      _ ≤ rank n := (rank_bounds hn).1

lemma orderKey_ofInt {n : Nat} (hn : n ≠ 0) (hn' : n < 2 ^ 64) :
    0 < rank n ∧ rank n < 2047 * 2 ^ 52 ∧ orderKey (ofInt n) = rank n ∧
      orderKey (ofInt (-n)) = -rank n - 1 := by
  obtain ⟨m, e, hpos, hm, he, he', hplace, hof⟩ := exists_ofInt_eq hn hn'
  rw [ofInt_negative hn, hof, ← hplace]
  exact ⟨place_pos he, place_lt hm he', orderKey_positive hm he' hpos,
    orderKey_negative hm he he' hpos⟩

/-- The integers of at most 64 bits are in the order of their numbers, some of which are equal. -/
theorem orderKey_ofInt_le {m n : Int} (hm : -2 ^ 64 < m) (hn : n < 2 ^ 64) (h : m ≤ n) :
    orderKey (ofInt m) ≤ orderKey (ofInt n) := by
  rcases h.eq_or_lt with rfl | hlt
  · exact le_rfl
  have hgap : (0 : Int) ≤ 1 := by decide
  refine (Int.add_zero _).symm.trans_le (orderKey_ofInt_add_le rank (2 ^ 64) hgap
    (fun k hk hk' => ?_) (fun hk _ hlt => ?_) hm hn hlt)
  · exact ⟨(orderKey_ofInt hk hk').1, (orderKey_ofInt hk hk').2.2⟩
  · have := rank_mono hk hlt
    omega

lemma isFinite_of_orderKey {x : Float} (hlo : -(2047 * 2 ^ 52) ≤ orderKey x)
    (hhi : orderKey x < 2047 * 2 ^ 52) : isFinite x = true := by
  have hbits := x.toBits.toNat_lt
  have hexponent : x.toBits.toNat / 2 ^ 52 % 2 ^ 11 ≠ 2047 := by
    unfold orderKey at hlo hhi
    dsimp only at hlo hhi
    split at hlo <;> rename_i h <;> simp only [h, if_true, if_false] at hhi <;> omega
  unfold isFinite parts
  dsimp only
  rw [if_neg hexponent]
  split <;> rename_i heq <;> split at heq <;> simp_all

lemma orderKey_ofInt_bounds {n : Int} (hn : -2 ^ 64 < n) (hn' : n < 2 ^ 64) :
    -(2047 * 2 ^ 52) ≤ orderKey (ofInt n) ∧ orderKey (ofInt n) < 2047 * 2 ^ 52 := by
  rcases lt_trichotomy n 0 with h | rfl | h
  · obtain ⟨k, rfl⟩ : ∃ k : Nat, n = -k := ⟨n.natAbs, by omega⟩
    obtain ⟨hpos, hlt, -, hkey⟩ := orderKey_ofInt (n := k) (by omega) (by omega)
    omega
  · have hzero : orderKey (ofInt 0) = 0 := rfl
    omega
  · obtain ⟨k, rfl⟩ := Int.eq_ofNat_of_zero_le h.le
    obtain ⟨hpos, hlt, hkey, -⟩ := orderKey_ofInt (n := k) (by omega) (by omega)
    omega

/-- No integer of at most 64 bits is too large for a number. -/
theorem isFinite_ofInt {n : Int} (hn : -2 ^ 64 < n) (hn' : n < 2 ^ 64) :
    isFinite (ofInt n) = true :=
  isFinite_of_orderKey (orderKey_ofInt_bounds hn hn').1 (orderKey_ofInt_bounds hn hn').2

end Binary64

end TemporalAlgebra
