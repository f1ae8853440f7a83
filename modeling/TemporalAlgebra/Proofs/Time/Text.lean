import TemporalAlgebra.Proofs.Number.Numerals
import TemporalAlgebra.Proofs.Outcome
import TemporalAlgebra.Proofs.Text.Split
import TemporalAlgebra.Proofs.Time.Calendar
import TemporalAlgebra.Time.Timestamp

/-!
# Dates and times of day read back

A date of the calendar is read back from its text, with a sign before long and negative years, and
so is a time of day, with its fraction.
-/
namespace TemporalAlgebra

open Decimal

/-- The characters that dates and times of day are written in: digits and a few marks. -/
def isTimeChar (c : Char) : Bool := isDigit c || c == '-' || c == '+' || c == ':' || c == '.'

lemma isTimeChar_of_isDigit {c : Char} (h : isDigit c = true) : isTimeChar c = true := by
  unfold isTimeChar
  rw [h]
  rfl

lemma forall_isTimeChar (p : Char → Prop)
    (hall : ∀ n < 64, isTimeChar (Char.ofNat n) = true → p (Char.ofNat n)) {c : Char}
    (h : isTimeChar c = true) : p c := by
  have hlt : c.toNat < 64 := by
    unfold isTimeChar at h
    simp only [Bool.or_eq_true, beq_iff_eq] at h
    rcases h with (((h | rfl) | rfl) | rfl) | rfl
    · unfold isDigit at h
      have hle : c.toNat ≤ 57 := (of_decide_eq_true h).2
      omega
    all_goals decide
  have hc := hall c.toNat hlt
  rw [Char.ofNat_toNat] at hc
  exact hc h

/-- The characters of a timestamp are printable ASCII without meaning in the text around it. -/
lemma isTimeChar_spec {c : Char} (h : isTimeChar c = true) : c.toNat < 128 ∧
    Text.isBlank c = false ∧ Text.isNeutral c = true ∧ c ≠ '@' ∧ c ≠ 'T' := by
  refine forall_isTimeChar (fun c => c.toNat < 128 ∧ Text.isBlank c = false ∧
    Text.isNeutral c = true ∧ c ≠ '@' ∧ c ≠ 'T') ?_ h
  decide

lemma isTimeChar_padded (width n : Nat) : ∀ c ∈ padded width n, isTimeChar c = true :=
  fun c hc => isTimeChar_of_isDigit (numeral_padded width n c hc)

namespace Field

/-- A text does not go on with a digit. -/
def Stops (rest : List Char) : Prop := ∀ c ∈ rest.head?, isDigit c = false

lemma stops_nil : Stops [] := fun _ h => nomatch h

lemma stops_cons {c : Char} (h : isDigit c = false) (rest : List Char) : Stops (c :: rest) := by
  intro d hd
  rwa [← Option.some.inj hd]

section

variable {ds rest : List Char} (hd : Numeral ds) (hne : ds ≠ [])
include hd hne

lemma trimStart_numeral : Text.trimStart (ds ++ rest) = ds ++ rest := by
  apply Text.trimStart_eq_self
  intro c hc
  rw [List.head?_append_of_ne_nil _ hne] at hc
  exact (isTimeChar_spec (isTimeChar_of_isDigit (hd c (List.mem_of_mem_head? hc)))).2.1

lemma digits_append {w : Option Nat} (hw : ∀ n ∈ w, ds.length ≤ n) (hv : value ds < 2 ^ 63)
    (hrest : Stops rest) : digits w (ds ++ rest) = .ok (value ds, rest) := by
  have hstop : rest.takeWhile isDigit = [] := by
    cases rest with
    | nil => rfl
    | cons c rest => exact List.takeWhile_cons_of_neg (by simp [hrest c rfl])
  have hrun : (ds ++ rest).takeWhile isDigit = ds := by
    rw [List.takeWhile_append_of_pos hd, hstop, List.append_nil]
  have htaken : ∀ n ∈ w, ds.take n = ds := fun n hn => List.take_of_length_le (hw n hn)
  unfold digits
  rw [hrun, if_neg (by simp [hne])]
  cases w with
  | none =>
    dsimp only
    rw [if_neg (by simpa using hne), if_pos hv, List.drop_left]
  | some n =>
    simp only [htaken n rfl]
    rw [if_neg (by simpa using hne), if_pos hv, List.drop_left]

end

lemma digits_padded {w : Option Nat} {width n : Nat} {rest : List Char}
    (hw : ∀ k ∈ w, (padded width n).length ≤ k) (hn : n < 2 ^ 63) (hrest : Stops rest) :
    digits w (padded width n ++ rest) = .ok (n, rest) := by
  have hvalue := value_padded width n
  have hread := digits_append (numeral_padded width n) (padded_ne_nil width n) hw
    (lt_of_eq_of_lt hvalue hn) hrest
  rwa [hvalue] at hread

lemma trimStart_padded (width n : Nat) (rest : List Char) :
    Text.trimStart (padded width n ++ rest) = padded width n ++ rest :=
  trimStart_numeral (numeral_padded width n) (padded_ne_nil width n)

lemma number_padded {lo hi n : Nat} {rest : List Char} (hlo : lo ≤ n) (hhi : n ≤ hi)
    (hhi' : hi < 100) (hrest : Stops rest) : number lo hi (padded 2 n ++ rest) = .ok (n, rest) := by
  have hlen : (padded 2 n).length = 2 := length_padded (by decide) (by omega)
  have hdigits : digits (some 2) (padded 2 n ++ rest) = .ok (n, rest) :=
    digits_padded (by simp [hlen]) (by omega) hrest
  unfold number
  rw [trimStart_padded, bind_of_ok hdigits]
  exact if_pos ⟨hlo, hhi⟩

lemma separator_cons (mark : Char) (rest : List Char) :
    separator mark (mark :: rest) = .ok rest := if_pos (beq_self_eq_true mark)

lemma year_unsigned {n : Nat} {rest : List Char} (hn : n ≤ 9999) (hrest : Stops rest) :
    year (padded 4 n ++ rest) = .ok ((n : Int), rest) := by
  have hlen : (padded 4 n).length = 4 := length_padded (by decide) (by omega)
  have hdigits : digits (some 4) (padded 4 n ++ rest) = .ok (n, rest) :=
    digits_padded (by simp [hlen]) (by omega) hrest
  have hrange : -2 ^ 31 ≤ (n : Int) ∧ (n : Int) < 2 ^ 31 := by omega
  have hhead : ∀ c ∈ (padded 4 n ++ rest).head?, isDigit c = true := by
    intro c hc
    rw [List.head?_append_of_ne_nil _ (padded_ne_nil 4 n)] at hc
    exact numeral_padded 4 n c (List.mem_of_mem_head? hc)
  unfold year
  rw [trimStart_padded]
  -- A digit is no sign.
  split
  · next heq =>
    rw [heq] at hhead
    exact absurd (hhead '-' rfl) (by decide)
  · next heq =>
    rw [heq] at hhead
    exact absurd (hhead '+' rfl) (by decide)
  · simp only [hdigits, Except.map, bind, Except.bind]
    exact if_pos hrange

lemma year_signed {y : Int} {rest : List Char} (hy : -2 ^ 31 ≤ y ∧ y < 2 ^ 31)
    (hrest : Stops rest) :
    year ((if y < 0 then '-' else '+') :: padded 4 y.natAbs ++ rest) = .ok (y, rest) := by
  have hdigits : digits none (padded 4 y.natAbs ++ rest) = .ok (y.natAbs, rest) :=
    digits_padded (by simp) (by omega) hrest
  have htrim {sign : Char} (hs : Text.isBlank sign = false) :
      Text.trimStart (sign :: padded 4 y.natAbs ++ rest) = sign :: (padded 4 y.natAbs ++ rest) :=
    Text.trimStart_eq_self fun c hc => Option.some.inj hc ▸ hs
  rcases lt_or_ge y 0 with hneg | hpos
  · have hvalue : -(y.natAbs : Int) = y := by omega
    rw [if_pos hneg]
    unfold year
    simp only [htrim (show Text.isBlank '-' = false by decide), hdigits, Except.map, bind,
      Except.bind, hvalue]
    exact if_pos hy
  · have hvalue : (y.natAbs : Int) = y := by omega
    rw [if_neg (by omega)]
    unfold year
    simp only [htrim (show Text.isBlank '+' = false by decide), hdigits, Except.map, bind,
      Except.bind, hvalue]
    exact if_pos hy

lemma year_text {y : Int} (h : CivilDate.firstYear ≤ y ∧ y ≤ CivilDate.lastYear)
    {rest : List Char} (hrest : Stops rest) :
    year (CivilDate.yearText y ++ rest) = .ok (y, rest) := by
  have hlower : -262143 ≤ y := h.1
  have hupper : y ≤ 262142 := h.2
  unfold CivilDate.yearText
  split
  · next hshort =>
    have hread := year_unsigned (n := y.natAbs) (by omega) hrest
    rwa [Int.natAbs_of_nonneg hshort.1] at hread
  · exact year_signed (by omega) hrest

lemma date_text {d : CivilDate} (h : d.isValid = true) : date d.text = .ok d := by
  obtain ⟨hyear, hmonth, hday⟩ := CivilDate.bounds_of_isValid h
  have hhyphen (rest : List Char) : Stops ('-' :: rest) := stops_cons rfl rest
  have hlast : number 1 31 (padded 2 d.day) = .ok (d.day, []) := by
    have hread := number_padded hday.1 hday.2 (by decide) stops_nil
    rwa [List.append_nil] at hread
  unfold date CivilDate.text
  rw [bind_of_ok (year_text hyear (hhyphen _))]
  dsimp only
  rw [bind_of_ok (separator_cons _ _),
    bind_of_ok (number_padded hmonth.1 hmonth.2 (by decide) (hhyphen _))]
  dsimp only
  rw [bind_of_ok (separator_cons _ _), bind_of_ok hlast]
  exact if_pos h

open Timestamp in
/-- A fraction of a second is read in nanoseconds. -/
lemma fraction_text {ds : List Char} (hd : Numeral ds) (hlen : ds.length ≤ 9) :
    fraction (fractionText ds) = .ok (value ds * 10 ^ (9 - ds.length), []) := by
  unfold fractionText
  cases hempty : ds.isEmpty with
  | true =>
    obtain rfl := List.isEmpty_iff.mp hempty
    rfl
  | false =>
    have hne : ds ≠ [] := by simpa using hempty
    have hvalue : value ds < 2 ^ 63 :=
      (value_lt hd).trans_le ((Nat.pow_le_pow_right (by decide) hlen).trans (by decide))
    have hread : digits (some 9) ds = .ok (value ds, []) := by
      have hdigits := digits_append (w := some 9) hd hne (by simpa using hlen) hvalue stops_nil
      rwa [List.append_nil] at hdigits
    simp only [Bool.false_eq_true, if_false]
    rw [fraction, bind_of_ok hread]
    rfl

open Timestamp in
/-- A time of day is read back from its seconds and the digits of a fraction. -/
lemma timeWithSeconds_text {seconds : Nat} (h : seconds < 86400) {ds : List Char}
    (hd : Numeral ds) (hlen : ds.length ≤ 9) :
    timeWithSeconds (clockText seconds ++ fractionText ds) =
      .ok ⟨seconds, value ds * 10 ^ (9 - ds.length)⟩ := by
  have hcolon (rest : List Char) : Stops (':' :: rest) := stops_cons rfl rest
  have hpoint : Stops (fractionText ds) := by
    unfold fractionText
    split
    · exact stops_nil
    · exact stops_cons rfl ds
  have htext : clockText seconds ++ fractionText ds = padded 2 (seconds / 3600) ++
      ':' :: (padded 2 (seconds / 60 % 60) ++ ':' :: (padded 2 (seconds % 60) ++
        fractionText ds)) := by
    unfold clockText
    simp only [List.append_assoc, List.cons_append]
  unfold timeWithSeconds
  rw [htext, bind_of_ok (number_padded (Nat.zero_le _) (by omega) (by decide) (hcolon _))]
  dsimp only
  rw [bind_of_ok (separator_cons _ _),
    bind_of_ok (number_padded (Nat.zero_le _) (by omega) (by decide) (hcolon _))]
  dsimp only
  rw [bind_of_ok (separator_cons _ _),
    bind_of_ok (number_padded (Nat.zero_le _) (by omega) (by decide) hpoint)]
  dsimp only
  rw [bind_of_ok (fraction_text hd hlen)]
  dsimp only
  have hseconds : ((seconds / 3600 : Nat) * 3600 + (seconds / 60 % 60 : Nat) * 60 +
      (seconds % 60 : Nat) : Int) = seconds := by omega
  rw [bind_of_ok (show finish [] = .ok () from rfl), if_neg (by omega), hseconds]
  rfl

lemma clockText_chars (seconds : Nat) : ∀ c ∈ clockText seconds, isTimeChar c = true := by
  intro c hc
  unfold clockText at hc
  rw [List.mem_append, List.mem_cons, List.mem_append, List.mem_cons] at hc
  rcases hc with hc | rfl | hc | rfl | hc
  · exact isTimeChar_padded 2 _ c hc
  · rfl
  · exact isTimeChar_padded 2 _ c hc
  · rfl
  · exact isTimeChar_padded 2 _ c hc

end Field

lemma CivilDate.text_ne_nil (d : CivilDate) : d.text ≠ [] :=
  List.append_ne_nil_of_right_ne_nil _ (List.cons_ne_nil _ _)

lemma CivilDate.text_chars (d : CivilDate) : ∀ c ∈ d.text, isTimeChar c = true := by
  have hyear : ∀ c ∈ yearText d.year, isTimeChar c = true := by
    unfold yearText
    split
    · exact isTimeChar_padded 4 _
    · refine List.forall_mem_cons.mpr ⟨?_, isTimeChar_padded 4 _⟩
      split <;> decide
  intro c hc
  unfold CivilDate.text at hc
  rw [List.mem_append, List.mem_cons, List.mem_append, List.mem_cons] at hc
  rcases hc with hc | rfl | hc | rfl | hc
  · exact hyear c hc
  · rfl
  · exact isTimeChar_padded 2 _ c hc
  · rfl
  · exact isTimeChar_padded 2 _ c hc

end TemporalAlgebra
