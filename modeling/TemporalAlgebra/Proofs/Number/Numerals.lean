import Mathlib.Data.List.Basic
import Mathlib.Data.List.Induction
import Mathlib.Data.List.TakeWhile
import Mathlib.Tactic.Common
import Mathlib.Tactic.Ring
import TemporalAlgebra.Number.Decimal

/-!
# Numerals

The digits of a number are read back, also with zeros in front and without those at their end. A
numeral without zeros in front consists of the digits of its value.
-/
namespace TemporalAlgebra.Decimal

def Numeral (cs : List Char) : Prop := ∀ c ∈ cs, isDigit c = true

lemma Numeral.append {cs ds : List Char} (hc : Numeral cs) (hd : Numeral ds) :
    Numeral (cs ++ ds) := fun c h => (List.mem_append.mp h).elim (hc c) (hd c)

lemma Numeral.left {cs ds : List Char} (h : Numeral (cs ++ ds)) : Numeral cs :=
  fun c hc => h c (List.mem_append_left _ hc)

lemma Numeral.last {cs : List Char} {c : Char} (h : Numeral (cs ++ [c])) : isDigit c = true :=
  h c (List.mem_append_right _ (List.mem_singleton_self c))

lemma Numeral.all {cs : List Char} (h : Numeral cs) : cs.all isDigit = true :=
  List.all_eq_true.mpr h

lemma numeral_zeros (k : Nat) : Numeral (List.replicate k '0') := by
  intro c hc
  rw [List.eq_of_mem_replicate hc]
  decide

lemma digitChar_spec (d : Nat) :
    isDigit (digitChar d) = true ∧ (digitChar d).toNat - 48 = d % 10 := by
  have hall : ∀ r < 10, isDigit (Char.ofNat (48 + r)) = true ∧
      (Char.ofNat (48 + r)).toNat - 48 = r := by decide
  exact hall (d % 10) (Nat.mod_lt d (by decide))

/-- What holds of numbers of one digit and passes on to numbers with one digit more holds of all
numbers. -/
@[elab_as_elim]
lemma induction_on_digits {p : Nat → Prop} (one : ∀ n < 10, p n)
    (more : ∀ n, 10 ≤ n → p (n / 10) → p n) (n : Nat) : p n := by
  induction n using Nat.strong_induction_on with
  | _ n ih =>
    by_cases h : n < 10
    · exact one n h
    · exact more n (Nat.le_of_not_lt h) (ih (n / 10) (by omega))

lemma digitsOnto_eq (n : Nat) (rest : List Char) : digitsOnto n rest = digits n ++ rest := by
  induction n using induction_on_digits generalizing rest with
  | one n h =>
    unfold digits digitsOnto
    rw [dif_pos h, dif_pos h]
    rfl
  | more n h ih =>
    unfold digits
    rw [digitsOnto, dif_neg (by omega), ih]
    rw [digitsOnto, dif_neg (by omega), ih, List.append_assoc]
    rfl

lemma digits_of_lt {n : Nat} (h : n < 10) : digits n = [digitChar n] := by
  unfold digits digitsOnto
  rw [dif_pos h]

lemma digits_of_le {n : Nat} (h : 10 ≤ n) : digits n = digits (n / 10) ++ [digitChar (n % 10)] := by
  rw [← digitsOnto_eq, digits, digitsOnto, dif_neg (by omega)]

lemma numeral_digits (n : Nat) : Numeral (digits n) := by
  have hlast (d : Nat) : Numeral [digitChar d] := List.forall_mem_singleton.mpr (digitChar_spec d).1
  induction n using induction_on_digits with
  | one n h =>
    rw [digits_of_lt h]
    exact hlast n
  | more n h ih =>
    rw [digits_of_le h]
    exact ih.append (hlast _)

lemma digits_ne_nil (n : Nat) : digits n ≠ [] := by
  rcases Nat.lt_or_ge n 10 with h | h
  · simp [digits_of_lt h]
  · simp [digits_of_le h]

lemma length_digits_le {n k : Nat} (hk : 0 < k) (h : n < 10 ^ k) : (digits n).length ≤ k := by
  induction n using induction_on_digits generalizing k with
  | one n hn =>
    rw [digits_of_lt hn]
    exact hk
  | more n hn ih =>
    obtain ⟨k, rfl⟩ := Nat.exists_eq_succ_of_ne_zero hk.ne'
    have hpos : 0 < k := by
      rcases Nat.eq_zero_or_pos k with rfl | hpos
      · omega
      · exact hpos
    have := ih hpos (by rw [Nat.pow_succ] at h; omega)
    rw [digits_of_le hn, List.length_append]
    exact Nat.succ_le_succ this

lemma value_snoc (cs : List Char) (c : Char) :
    value (cs ++ [c]) = 10 * value cs + (c.toNat - 48) := by
  unfold value
  rw [List.foldl_append]
  rfl

lemma value_append (cs ds : List Char) :
    value (cs ++ ds) = value cs * 10 ^ ds.length + value ds := by
  induction ds using List.reverseRecOn with
  | nil => simp [value]
  | append_singleton ds d ih =>
    rw [← List.append_assoc, value_snoc, ih, value_snoc, List.length_append, List.length_singleton]
    ring

lemma value_zeros (k : Nat) : value (List.replicate k '0') = 0 := by
  induction k with
  | zero => rfl
  | succ k ih =>
    rw [List.replicate_succ', value_append, ih]
    rfl

lemma value_digits (n : Nat) : value (digits n) = n := by
  have hlast (d : Nat) : value [digitChar d] = d % 10 := by
    change 10 * 0 + ((digitChar d).toNat - 48) = d % 10
    rw [(digitChar_spec d).2, Nat.mul_zero, Nat.zero_add]
  induction n using induction_on_digits with
  | one n h => rw [digits_of_lt h, hlast, Nat.mod_eq_of_lt h]
  | more n h ih =>
    rw [digits_of_le h, value_append, ih, hlast, List.length_singleton]
    omega

lemma numeral_padded (width n : Nat) : Numeral (padded width n) :=
  (numeral_zeros _).append (numeral_digits n)

lemma value_padded (width n : Nat) : value (padded width n) = n := by
  rw [padded, value_append, value_zeros, value_digits, Nat.zero_mul, Nat.zero_add]

lemma padded_ne_nil (width n : Nat) : padded width n ≠ [] :=
  List.append_ne_nil_of_right_ne_nil _ (digits_ne_nil n)

lemma length_padded {width n : Nat} (hw : 0 < width) (h : n < 10 ^ width) :
    (padded width n).length = width := by
  have := length_digits_le hw h
  rw [padded, List.length_append, List.length_replicate]
  omega

lemma exists_zeros (cs : List Char) : ∃ k, cs = dropTrailingZeros cs ++ List.replicate k '0' ∧
    value cs = value (dropTrailingZeros cs) * 10 ^ k := by
  let zeros := cs.reverse.takeWhile (· == '0')
  have hzeros : zeros = List.replicate zeros.length '0' := by
    rw [List.eq_replicate_iff]
    exact ⟨rfl, fun c hc => beq_iff_eq.mp (List.mem_takeWhile_imp (p := (· == '0')) hc)⟩
  have hsplit : cs = dropTrailingZeros cs ++ List.replicate zeros.length '0' := by
    have happend : zeros ++ cs.reverse.dropWhile (· == '0') = cs.reverse :=
      List.takeWhile_append_dropWhile
    rw [← List.reverse_inj, List.reverse_append, List.reverse_replicate, ← hzeros,
      dropTrailingZeros, List.reverse_reverse, happend]
  refine ⟨zeros.length, hsplit, ?_⟩
  conv_lhs => rw [hsplit]
  rw [value_append, value_zeros, List.length_replicate, Nat.add_zero]

lemma numeral_dropTrailingZeros {cs : List Char} (h : Numeral cs) :
    Numeral (dropTrailingZeros cs) := by
  obtain ⟨k, hk, -⟩ := exists_zeros cs
  exact Numeral.left (hk ▸ h)

section

variable {c : Char} {cs ds : List Char} {n : ℕ}

lemma isDigit_spec (h : isDigit c = true) : c.toNat - 48 < 10 ∧ c.toNat = 48 + (c.toNat - 48) := by
  have hrange : '0' ≤ c ∧ c ≤ '9' := of_decide_eq_true h
  have hlow : 48 ≤ c.toNat := hrange.1
  have hhigh : c.toNat ≤ 57 := hrange.2
  omega

lemma digitChar_of_isDigit (h : isDigit c = true) : digitChar (c.toNat - 48) = c := by
  obtain ⟨hlt, hc⟩ := isDigit_spec h
  unfold digitChar
  rw [Nat.mod_eq_of_lt hlt, ← hc, Char.ofNat_toNat]

lemma value_lt (h : Numeral cs) : value cs < 10 ^ cs.length := by
  induction cs using List.reverseRecOn with
  | nil => exact Nat.one_pos
  | append_singleton cs c ih =>
    have hinit := ih h.left
    have hlast := (isDigit_spec h.last).1
    rw [value_snoc, List.length_append, List.length_singleton, pow_succ]
    omega

lemma Numeral.eq_of_value_eq (hc : Numeral cs) (hd : Numeral ds) (hlen : cs.length = ds.length)
    (h : value cs = value ds) : cs = ds := by
  induction cs using List.reverseRecOn generalizing ds with
  | nil => exact (List.eq_nil_of_length_eq_zero hlen.symm).symm
  | append_singleton cs c ih =>
    obtain ⟨ds, d, rfl⟩ : ∃ es e, ds = es ++ [e] := by
      rcases List.eq_nil_or_concat' ds with rfl | ⟨es, e, rfl⟩
      · simp at hlen
      · exact ⟨es, e, rfl⟩
    have hclt := (isDigit_spec hc.last).1
    have hdlt := (isDigit_spec hd.last).1
    rw [value_snoc, value_snoc] at h
    have hinit : cs = ds := ih hc.left hd.left (by simpa using hlen) (by omega)
    have hlast : c.toNat - 48 = d.toNat - 48 := by omega
    rw [hinit, ← digitChar_of_isDigit hc.last, ← digitChar_of_isDigit hd.last, hlast]

lemma Numeral.getLast?_eq_zero (hc : Numeral cs) (hne : cs ≠ []) (h : 10 ∣ value cs) :
    cs.getLast? = some '0' := by
  obtain rfl | ⟨ds, d, rfl⟩ := List.eq_nil_or_concat' cs
  · exact absurd rfl hne
  have hlt := (isDigit_spec hc.last).1
  rw [value_snoc] at h
  have hzero : d.toNat - 48 = 0 := by omega
  rw [List.getLast?_concat, ← digitChar_of_isDigit hc.last, hzero]
  rfl

lemma head?_digits (hn : 0 < n) : (digits n).head? ≠ some '0' := by
  induction n using induction_on_digits with
  | one n h =>
    have hall : ∀ d < 10, 0 < d → digitChar d ≠ '0' := by decide
    rw [digits_of_lt h, List.head?_singleton, Ne, Option.some.injEq]
    exact hall n h hn
  | more n h ih =>
    rw [digits_of_le h, List.head?_append_of_ne_nil _ (digits_ne_nil _)]
    exact ih (by omega)

lemma digits_zero : digits 0 = ['0'] := by
  rw [digits_of_lt (by decide)]
  rfl

/-- The digits of a number start with a zero only if it is zero. -/
lemma digits_of_head? (h : (digits n).head? = some '0') : digits n = ['0'] := by
  rcases Nat.eq_zero_or_pos n with rfl | hpos
  · exact digits_zero
  · exact absurd h (head?_digits hpos)

lemma Numeral.eq_digits (hc : Numeral cs) (hne : cs ≠ [])
    (hhead : cs.head? = some '0' → cs = ['0']) : cs = digits (value cs) := by
  induction cs using List.reverseRecOn with
  | nil => exact absurd rfl hne
  | append_singleton ds d ih =>
    have hlt := (isDigit_spec hc.last).1
    rw [value_snoc]
    rcases eq_or_ne ds [] with rfl | hds
    · have hsingle : 10 * value [] + (d.toNat - 48) = d.toNat - 48 := Nat.zero_add _
      rw [hsingle, digits_of_lt hlt, digitChar_of_isDigit hc.last, List.nil_append]
    have hzero : ds.head? ≠ some '0' := by
      intro h
      have hsingle := hhead (by rwa [List.head?_append_of_ne_nil _ hds])
      exact hds (List.eq_nil_of_length_eq_zero (by simpa using congrArg List.length hsingle))
    have hinit : ds = digits (value ds) := ih hc.left hds fun h => absurd h hzero
    have hpos : 0 < value ds := by
      refine Nat.pos_of_ne_zero fun h => hzero ?_
      rw [hinit, h, digits_zero]
      rfl
    have hdiv : (10 * value ds + (d.toNat - 48)) / 10 = value ds := by omega
    have hmod : (10 * value ds + (d.toNat - 48)) % 10 = d.toNat - 48 := by omega
    rw [digits_of_le (by omega), hdiv, hmod, ← hinit, digitChar_of_isDigit hc.last]

end

lemma readNat?_digits (n : Nat) : readNat? (digits n) = some n := by
  unfold readNat?
  rw [if_neg (by simpa using digits_ne_nil n), if_pos (numeral_digits n).all, value_digits]

lemma toList_ofInt (n : Int) :
    (ofInt n).toList = if n < 0 then '-' :: digits n.natAbs else digits n.natAbs := by
  unfold ofInt ofNat
  split
  · rw [String.toList_append, String.toList_ofList, String.toList_ofList]
    rfl
  · rw [String.toList_ofList]

lemma toList_ofInt_ne_nil (n : Int) : (ofInt n).toList ≠ [] := by
  rw [toList_ofInt]
  split
  · exact List.cons_ne_nil _ _
  · exact digits_ne_nil _

/-- Integers are read back from their text. -/
theorem readInt?_ofInt (n : Int) : readInt? (ofInt n).toList = some n := by
  rw [toList_ofInt]
  split
  · next h =>
    rw [readInt?, readNat?_digits]
    change some (-(n.natAbs : Int)) = some n
    rw [Option.some.injEq]
    omega
  · next h =>
    have hdigits := numeral_digits n.natAbs
    have hread := readNat?_digits n.natAbs
    -- A digit is no sign.
    unfold readInt?
    split
    · next heq =>
      rw [heq] at hdigits
      exact absurd (hdigits '-' (by simp)) (by decide)
    · next heq =>
      rw [heq] at hdigits
      exact absurd (hdigits '+' (by simp)) (by decide)
    · rw [hread, Option.map_some, Option.some.injEq]
      exact Int.natAbs_of_nonneg (by omega)

lemma readSigned?_ofInt {w : Nat} (a : Signed w) : readSigned? (ofInt a.val).toList = some a := by
  unfold readSigned?
  rw [readInt?_ofInt]
  exact Signed.ofInt?_eq_some.mpr rfl

end TemporalAlgebra.Decimal
