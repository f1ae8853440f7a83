import TemporalAlgebra.Proofs.SpanSet.Identities
import TemporalAlgebra.Proofs.Span.Canonical
import TemporalAlgebra.Proofs.Temporal.Applying
import TemporalAlgebra.Proofs.Temporal.ValueRestriction

/-!
# Quotients over time

Before integers are divided over time, the divisor is restricted to the time of the dividend and
then to zero. Both restrictions are exact, so that a division by zero is refused if and only if the
divisor is zero somewhere at the common time. Otherwise the only quotient that can be refused is the
one that is out of range, again at the common time: no value outside of it matters, and none at a
bound that is excluded.
-/
namespace TemporalAlgebra

/-- The quotient of integers is in range, but for that of the least integer and minus one. -/
lemma Signed.ofInt?_tdiv_eq_none {w : Nat} {x y : Signed w} (hy : y.val ≠ 0) :
    (Signed.ofInt? (x.val.tdiv y.val) : Option (Signed w)) = none ↔
      x.val = -2 ^ w ∧ y.val = -1 := by
  have hx := x.lower
  have hx' := x.upper
  rw [Signed.ofInt?_eq_none]
  by_cases hone : y.val = -1
  · rw [hone, Int.tdiv_neg, Int.tdiv_one]
    omega
  · refine iff_of_false (not_not.mpr ?_) fun h => hone h.2
    by_cases hone' : y.val = 1
    · rw [hone', Int.tdiv_one]
      exact ⟨hx, hx'⟩
    · have hq : (x.val.tdiv y.val).natAbs = x.val.natAbs / y.val.natAbs := Int.natAbs_tdiv _ _
      have hhalf : x.val.natAbs / y.val.natAbs ≤ x.val.natAbs / 2 :=
        Nat.div_le_div_left (by omega) (by omega)
      have hpos : (0 : Int) < 2 ^ w := Int.pow_pos (by decide)
      omega

namespace Temporal

open Sequence

section

variable {V : Type} [NumericValue V] [StepValue V] {a b : Temporal V}

/-- The divisor is zero at a place at which the dividend is defined. -/
def MeetsZero (a b : Temporal V) : Prop := ∃ n, a.Covers n ∧ b.Takes n NumericValue.zero

/-- The part of the divisor that is zero has time in common with the dividend if and only if the
divisor is zero where the dividend is defined. -/
lemma meetsZero_iff (ha : a.WellFormed) (hb : b.WellFormed) : MeetsZero a b ↔
    ∃ z, b.atValue NumericValue.zero = .ok (some z) ∧ z.time.overlaps a.time = true := by
  obtain ⟨hta, hca⟩ := ha.time_spec
  obtain ⟨found, hfound, hwf, hcov⟩ := hb.atValue_covers NumericValue.zero
  have hoverlaps : ∀ z ∈ found, (z.time.overlaps a.time = true ↔ MeetsZero a b) := by
    rintro z rfl
    obtain ⟨htz, hcz⟩ := (hwf z rfl).time_spec
    rw [htz.overlaps_iff hta]
    refine exists_congr fun n => ?_
    rw [hcz, hca, ← hcov, someCovers_some, and_comm]
  constructor
  · rintro ⟨n, hn, hzero⟩
    cases found with
    | none => exact absurd ((hcov n).mpr hzero) (not_someCovers_none n)
    | some z => exact ⟨z, hfound, (hoverlaps z rfl).mpr ⟨n, hn, hzero⟩⟩
  · rintro ⟨z, hz, hov⟩
    exact (hoverlaps z (Except.ok.inj (hfound.symm.trans hz))).mp hov

lemma atPeriods_atZero (ha : a.WellFormed) (hb : b.WellFormed) :
    (b.atPeriods a.time = .ok none ∧ ¬MeetsZero a b) ∨
      ∃ common found, b.atPeriods a.time = .ok (some common) ∧
        common.atValue NumericValue.zero = .ok found ∧
        (found.isSome = true ↔ MeetsZero a b) := by
  obtain ⟨hta, hca⟩ := ha.time_spec
  obtain ⟨common, hcommon, hr⟩ := exists_withinPeriods hb hta
  have htakes : ∀ n x, SomeTakes common n x ↔ a.Covers n ∧ b.Takes n x := by
    intro n x
    rw [hr.takes_iff inferInstance, hca, and_comm]
  cases common with
  | none =>
    refine Or.inl ⟨reported_eq_ok.mpr hcommon, fun h => ?_⟩
    obtain ⟨n, hn⟩ := h
    exact not_someTakes_none n _ ((htakes n _).mpr hn)
  | some common =>
    obtain ⟨found, hfound, hwf, hcov⟩ :=
      (hr.wellFormed common rfl).atValue_covers NumericValue.zero
    refine Or.inr ⟨common, found, reported_eq_ok.mpr hcommon, hfound, ?_⟩
    rw [isSome_iff_someCovers hwf]
    exact exists_congr fun n => (hcov n).trans (htakes n _)

lemma div_of_meetsZero (ha : a.WellFormed) (hb : b.WellFormed) (h : MeetsZero a b) :
    a.div b = .error (.refused .divisionByZero 1) := by
  rcases atPeriods_atZero ha hb with ⟨-, hno⟩ | ⟨common, found, hcommon, hfound, hsome⟩
  · exact absurd h hno
  · unfold div
    rw [bind_of_ok hcommon]
    dsimp only
    rw [bind_of_ok hfound, hsome.mpr h]
    rfl

lemma div_of_not_meetsZero (ha : a.WellFormed) (hb : b.WellFormed) (h : ¬MeetsZero a b) :
    a.div b = reported (lift { apply := NumericValue.div } a b) := by
  have hlift : liftWith { apply := NumericValue.div } a b =
      lift { apply := NumericValue.div } a b := bind_of_ok (StepValue.compatible_eq_ok _ _)
  unfold div
  rcases atPeriods_atZero ha hb with ⟨hcommon, -⟩ | ⟨common, found, hcommon, hfound, hsome⟩
  · rw [bind_of_ok hcommon]
    exact congrArg reported hlift
  · have hnone : found.isSome = false := by
      rw [← Bool.not_eq_true, hsome]
      exact h
    rw [bind_of_ok hcommon]
    dsimp only
    rw [bind_of_ok hfound, hnone]
    exact congrArg reported hlift

end

/-- The quotient of two integers cut toward zero, if there is one and it is in range. -/
def quotient? (x y : Integer) : Option Integer :=
  if y.val = 0 then none else Signed.ofInt? (x.val.tdiv y.val)

lemma exists_quotient?_iff {x y : Integer} : (∃ z, quotient? x y = some z) ↔
    y.val ≠ 0 ∧ ¬(x.val = -2 ^ 31 ∧ y.val = -1) := by
  unfold quotient?
  split
  · simp_all
  · rename_i hy
    rw [← Signed.ofInt?_tdiv_eq_none hy, ← ne_eq, Option.ne_none_iff_exists']
    exact (and_iff_right hy).symm

lemma div_eq_ok_iff {x y z : Integer} : NumericValue.div x y = .ok z ↔
    quotient? x y = some z := by
  change (if y.val = 0 then refuse .divisionByZero else inRange (x.div? y) "division") = _ ↔ _
  unfold quotient?
  split
  · simp
  · exact orRefuse_eq_ok

lemma eq_of_div_eq_error {x y : Integer} (hy : y.val ≠ 0) {f : Failure}
    (h : NumericValue.div x y = .error f) :
    f = .refused (.outOfRange "Integer overflow in division") 0 := by
  change (if y.val = 0 then refuse .divisionByZero else inRange (x.div? y) "division") = _ at h
  rw [if_neg hy] at h
  exact orRefuse_eq_error h

variable {a b : Temporal Integer}

lemma meetsZero_of_takes {n : Int} {x y : Integer} (hx : a.Takes n x) (hy : b.Takes n y)
    (hzero : y.val = 0) : MeetsZero a b := by
  obtain rfl : y = NumericValue.zero := Signed.ext hzero
  exact ⟨n, covers_iff_exists_takes.mpr ⟨x, hx⟩, hy⟩

lemma div_cases (ha : a.WellFormed) (hb : b.WellFormed) (h : ¬MeetsZero a b) :
    a.div b = .error (.refused (.outOfRange "Integer overflow in division") 1) ∨
      ∃ found, a.div b = .ok found ∧ Pointwise quotient? a b found := by
  rw [div_of_not_meetsZero ha hb h]
  rcases lift_ends (g := { apply := NumericValue.div }) ha hb with
    ⟨found, hfound⟩ | ⟨f, ⟨n, x, y, hx, hy, hf⟩, hlift⟩
  · refine Or.inr ⟨found, reported_eq_ok.mpr hfound, ?_⟩
    exact (lift_spec ha hb hfound).pointwise (fun _ _ _ => div_eq_ok_iff) ha hb
  · obtain rfl := eq_of_div_eq_error (fun hzero => h (meetsZero_of_takes hx hy hzero)) hf
    exact Or.inl (congrArg reported hlift)

/-- Integers are divided over time unless the divisor is zero at the common time: then a division by
zero is refused, and this is so if and only if the part of the divisor that is zero meets the time
of the dividend. Otherwise the quotients cut toward zero are found wherever both are defined, or one
of them is refused as out of range. What the divisor and the dividend are at places that they have
not in common, such as bounds that are excluded, is of no account. -/
theorem division_spec (ha : a.WellFormed) (hb : b.WellFormed) :
    (a.div b = .error (.refused .divisionByZero 1) ↔
      ∃ z, b.atValue NumericValue.zero = .ok (some z) ∧ z.time.overlaps a.time = true) ∧
    (a.div b ≠ .error (.refused .divisionByZero 1) →
      a.div b = .error (.refused (.outOfRange "Integer overflow in division") 1) ∨
        ∃ found, a.div b = .ok found ∧ Pointwise quotient? a b found) ∧
    ((∃ found, a.div b = .ok found) ↔
      ∀ n x y, a.Takes n x → b.Takes n y → y.val ≠ 0 ∧ ¬(x.val = -2 ^ 31 ∧ y.val = -1)) := by
  have hzero : a.div b = .error (.refused .divisionByZero 1) ↔ MeetsZero a b := by
    refine ⟨fun hdiv => ?_, div_of_meetsZero ha hb⟩
    by_contra hno
    rcases div_cases ha hb hno with hrange | ⟨found, hfound, -⟩
    · exact absurd (hdiv.symm.trans hrange) (by simp)
    · exact absurd (hdiv.symm.trans hfound) (by simp)
  refine ⟨hzero.trans (meetsZero_iff ha hb), fun hdiv => ?_, ?_⟩
  · exact div_cases ha hb fun hmeets => hdiv (hzero.mpr hmeets)
  · have hquotients : (∃ found, lift { apply := NumericValue.div } a b = .ok found) ↔
        ∀ n x y, a.Takes n x → b.Takes n y → y.val ≠ 0 ∧ ¬(x.val = -2 ^ 31 ∧ y.val = -1) := by
      rw [exists_lift_iff ha hb]
      simp only [div_eq_ok_iff, exists_quotient?_iff]
    rw [← hquotients]
    by_cases hmeets : MeetsZero a b
    · refine iff_of_false ?_ fun hlift => ?_
      · rintro ⟨found, hfound⟩
        exact absurd ((hzero.mpr hmeets).symm.trans hfound) (by simp)
      · obtain ⟨n, hn, hy⟩ := hmeets
        obtain ⟨x, hx⟩ := covers_iff_exists_takes.mp hn
        exact (hquotients.mp hlift n x _ hx hy).1 rfl
    · simp only [div_of_not_meetsZero ha hb hmeets, reported_eq_ok]

def dip : Temporal Integer :=
  .sequence (.ofRun ⟨.clamp 0, .nearest (-5)⟩ [⟨.clamp 2, .nearest 0⟩, ⟨.clamp 0, .nearest 20⟩] true
    true .step)

lemma dip_wellFormed : dip.WellFormed := rfl

lemma dip_takes {n : Int} {y : Integer} (h : dip.Takes n y) (hlo : 1 ≤ n) (hhi : n ≤ 60) :
    y = .clamp 2 := by
  obtain ⟨s, hs, -, rfl⟩ := h
  obtain rfl := List.mem_singleton.mp hs
  change heldFrom n (⟨.clamp 0, .nearest (-5)⟩ : Instant Integer)
    [⟨.clamp 2, .nearest 0⟩, ⟨.clamp 0, .nearest 20⟩] = .clamp 2
  have h0 : (Timestamp.nearest 0).place = 1 := by decide
  have h20 : (Timestamp.nearest 20).place = 61 := by decide
  simp only [heldFrom, h0, h20, if_pos hlo, if_neg (show ¬61 ≤ n by omega)]

lemma dip_meetsZero : MeetsZero dip dip := by
  refine ⟨-14, ⟨_, List.mem_singleton_self _, ?_⟩, _, List.mem_singleton_self _, ?_, ?_⟩
  · exact (covers_of_continuous rfl _).mpr (by decide)
  · exact (covers_of_continuous rfl _).mpr (by decide)
  · decide

/-- A divisor does no harm that is zero before the dividend begins and at its excluded end. -/
theorem stairs_divided :
    stairs.WellFormed ∧ dip.WellFormed ∧
      (∃ found, stairs.div dip = .ok found ∧ Pointwise quotient? stairs dip found) ∧
      dip.div dip = .error (.refused .divisionByZero 1) := by
  obtain ⟨-, hcases, hdefined⟩ := division_spec stairs_wellFormed dip_wellFormed
  refine ⟨stairs_wellFormed, dip_wellFormed, ?_, ?_⟩
  · obtain ⟨found, hfound⟩ := hdefined.mpr fun n x y hx hy => by
      obtain ⟨s, hs, hn, -⟩ := hx
      obtain rfl := List.mem_singleton.mp hs
      have hin := (covers_of_continuous rfl n).mp hn
      obtain rfl := dip_takes hy hin.1 hin.2
      exact ⟨by decide, fun h => absurd h.2 (by decide)⟩
    have hno : stairs.div dip ≠ .error (.refused .divisionByZero 1) := by simp [hfound]
    rcases hcases hno with hrange | hquotients
    · exact absurd (hfound.symm.trans hrange) (by simp)
    · exact hquotients
  · exact (division_spec dip_wellFormed dip_wellFormed).1.mpr
      ((meetsZero_iff dip_wellFormed dip_wellFormed).mp dip_meetsZero)

end Temporal

end TemporalAlgebra
