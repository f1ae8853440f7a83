import TemporalAlgebra.Proofs.Number.Comparison
import TemporalAlgebra.Proofs.Number.Rounding
import TemporalAlgebra.Proofs.Span.Building
import TemporalAlgebra.Proofs.Temporal.Broadcasting
import TemporalAlgebra.Proofs.Temporal.ValuePartition

/-!
# Ever and always

Whether a comparison of an integer with a constant holds ever, or always, is found by restriction to
the numbers of which it holds, unless the bounding box tells already that there are none. The time
at which the lifted comparison is true tells the same: it is there if the comparison ever holds, and
is all the time of the value if it always does.
-/
namespace TemporalAlgebra

open Binary64

lemma Span.new_number {lower upper : Float} (hl : parts lower ≠ .nan) (hu : parts upper ≠ .nan)
    (h : orderKey lower < orderKey upper) (lowerInc upperInc : Bool) :
    Span.new lower upper lowerInc upperInc = .ok ⟨lower, upper, lowerInc, upperInc⟩ := by
  have hvalid : ∀ {x : Float}, parts x ≠ .nan → SpanDomain.isValid x = true := by
    intro x hx
    change (!x.isNaN) = true
    rw [isNaN_eq_false hx]
    rfl
  have horder : SpanDomain.order lower upper = .lt := compare_lt_iff_lt.mpr h
  refine reported_eq_ok.mpr ?_
  unfold Span.make
  rw [hvalid hl, hvalid hu, horder]
  rfl

section Numbers

variable {x y : Integer}

lemma orderKey_between_infinities (x : Integer) :
    orderKey (-infinity) < orderKey (ofInt x.val) ∧ orderKey (ofInt x.val) < orderKey infinity := by
  have hnegative := orderKey_of_parts (-infinity)
  have hpositive := orderKey_of_parts infinity
  simp only [parts_neg_infinity, parts_infinity, if_true, Bool.false_eq_true, if_false]
    at hnegative hpositive
  have := orderKey_ofInt_bounds (n := x.val) (by have := x.lower; omega) (by have := x.upper; omega)
  omega

lemma orderKey_integer_lt_iff :
    orderKey (ofInt x.val) < orderKey (ofInt y.val) ↔ x.val < y.val := by
  have := x.lower
  have := x.upper
  have := y.lower
  have := y.upper
  exact orderKey_ofInt_lt_iff (by omega) (by omega)

lemma orderKey_integer_eq_iff : orderKey (ofInt x.val) = orderKey (ofInt y.val) ↔
    x.val = y.val := by
  have hlt := orderKey_integer_lt_iff (x := x) (y := y)
  have hgt := orderKey_integer_lt_iff (x := y) (y := x)
  omega

lemma parts_integer_ne_nan (x : Integer) : parts (ofInt x.val) ≠ .nan :=
  parts_ne_nan_of_isFinite
    (isFinite_ofInt (by have := x.lower; omega) (by have := x.upper; omega))

lemma Inequality.holds_iff (i : Inequality) (y x : Integer) :
    (Comparison.inequality i).holds y x = true ↔
      match i with
      | .lt => y.val < x.val
      | .le => y.val ≤ x.val
      | .gt => x.val < y.val
      | .ge => x.val ≤ y.val := by
  cases i with
  | lt =>
    change (compare y.val x.val).isLT = true ↔ y.val < x.val
    rw [Ordering.isLT_iff_eq_lt, compare_lt_iff_lt]
  | le => exact Int.isLE_compare
  | gt =>
    change (compare y.val x.val).isGT = true ↔ x.val < y.val
    rw [Ordering.isGT_iff_eq_gt, compare_gt_iff_gt]
  | ge => exact Int.isGE_compare

/-- The numbers below an integer, with it or without it. -/
lemma numbersBelow_spec (x : Integer) (inclusive : Bool) :
    ∃ s : FloatSpan, Span.new (-infinity) (NumericValue.toFloat x) false inclusive = .ok s ∧
      s.Valid ∧ ∀ y : Integer, s.containsValue (NumericValue.toFloat y) = true ↔
        y.val < x.val ∨ inclusive = true ∧ y.val = x.val := by
  have hx := (orderKey_between_infinities x).1
  have hinfinite : parts (-infinity) ≠ .nan := by simp [parts_neg_infinity]
  refine ⟨_, Span.new_number hinfinite (parts_integer_ne_nan x) hx false inclusive,
    (Span.valid_iff_of_continuous rfl).mpr (Or.inl hx), fun y => ?_⟩
  rw [Span.containsValue_iff_between, ← orderKey_integer_lt_iff, ← orderKey_integer_eq_iff]
  exact and_iff_right (Or.inl (orderKey_between_infinities y).1)

/-- The numbers above an integer, with it or without it. -/
lemma numbersAbove_spec (x : Integer) (inclusive : Bool) :
    ∃ s : FloatSpan, Span.new (NumericValue.toFloat x) infinity inclusive false = .ok s ∧
      s.Valid ∧ ∀ y : Integer, s.containsValue (NumericValue.toFloat y) = true ↔
        x.val < y.val ∨ inclusive = true ∧ x.val = y.val := by
  have hx := (orderKey_between_infinities x).2
  have hinfinite : parts infinity ≠ .nan := by simp [parts_infinity]
  refine ⟨_, Span.new_number (parts_integer_ne_nan x) hinfinite hx inclusive false,
    (Span.valid_iff_of_continuous rfl).mpr (Or.inl hx), fun y => ?_⟩
  rw [Span.containsValue_iff_between, ← orderKey_integer_lt_iff, ← orderKey_integer_eq_iff]
  exact and_iff_left (Or.inl (orderKey_between_infinities y).2)

/-- The numbers of which an inequality with an integer holds contain the integers of which it
does. -/
lemma numbersWhere_spec (i : Inequality) (x : Integer) :
    ∃ s, Temporal.numbersWhere i (NumericValue.toFloat x) = .ok s ∧ s.Valid ∧
      ∀ y : Integer, s.containsValue (NumericValue.toFloat y) = true ↔
        (Comparison.inequality i).holds y x = true := by
  cases i with
  | lt =>
    obtain ⟨s, hs, hvalid, hcontains⟩ := numbersBelow_spec x false
    refine ⟨s, hs, hvalid, fun y => ?_⟩
    simp [hcontains, Inequality.holds_iff]
  | le =>
    obtain ⟨s, hs, hvalid, hcontains⟩ := numbersBelow_spec x true
    refine ⟨s, hs, hvalid, fun y => ?_⟩
    simp [hcontains, Inequality.holds_iff, le_iff_lt_or_eq]
  | gt =>
    obtain ⟨s, hs, hvalid, hcontains⟩ := numbersAbove_spec x false
    refine ⟨s, hs, hvalid, fun y => ?_⟩
    simp [hcontains, Inequality.holds_iff]
  | ge =>
    obtain ⟨s, hs, hvalid, hcontains⟩ := numbersAbove_spec x true
    refine ⟨s, hs, hvalid, fun y => ?_⟩
    simp [hcontains, Inequality.holds_iff, le_iff_lt_or_eq]

end Numbers

lemma SpanSet.isSome_iff_someCovers {α : Type} [SpanDomain α] [LawfulDomain α]
    {set : Option (SpanSet α)} (h : ∀ s ∈ set, s.WellFormed) :
    set.isSome = true ↔ ∃ n, SomeCovers set n := by
  constructor
  · intro hs
    obtain ⟨s, rfl⟩ := Option.isSome_iff_exists.mp hs
    obtain ⟨n, hn⟩ := (h s rfl).exists_covers
    exact ⟨n, someCovers_some.mpr hn⟩
  · rintro ⟨n, s, hs, -⟩
    exact Option.isSome_of_mem hs

namespace Temporal

open Sequence TemporalBox

section

variable {V : Type} [TemporalValue V]

def EverTakes (v : Temporal V) (p : V → Prop) : Prop := ∃ n x, v.Takes n x ∧ p x

def AlwaysTakes (v : Temporal V) (p : V → Prop) : Prop := ∀ n x, v.Takes n x → p x

lemma not_everTakes_iff {v : Temporal V} {p : V → Prop} :
    ¬v.EverTakes p ↔ v.AlwaysTakes fun x => ¬p x := by
  unfold EverTakes AlwaysTakes
  push Not
  rfl

/-- Something is left of a value within places if it is defined at one of them. -/
lemma Restricts.isSome_iff [LawfulValue V] {v : Temporal V} {inside : Int → Prop}
    {found : Option (Temporal V)} (h : Restricts v inside found) :
    found.isSome = true ↔ ∃ n, v.Covers n ∧ inside n := by
  simp only [← h.covers_iff]
  exact isSome_iff_someCovers h.wellFormed

variable [StepValue V] {v : Temporal V}

lemma isSome_of_selects (h : v.WellFormed) {filter : ValueFilter V}
    {found : Option (Temporal V)} (hr : Restricts v (v.Selects filter) found) :
    found.isSome = true ↔ v.EverTakes fun x => filter.holds x = true := by
  rw [hr.isSome_iff]
  constructor
  · rintro ⟨n, hn, hsel⟩
    obtain ⟨x, hx⟩ := covers_iff_exists_takes.mp hn
    exact ⟨n, x, hx, (h.selects_iff_of_takes hx).mp hsel⟩
  · rintro ⟨n, x, hx, hholds⟩
    exact ⟨n, covers_iff_exists_takes.mpr ⟨x, hx⟩, (h.selects_iff_of_takes hx).mpr hholds⟩

lemma isNone_of_not_selects (h : v.WellFormed) {filter : ValueFilter V}
    {found : Option (Temporal V)} (hr : Restricts v (fun n => ¬v.Selects filter n) found) :
    found.isNone = true ↔ v.AlwaysTakes fun x => filter.holds x = true := by
  rw [← Bool.not_eq_false, Option.isNone_eq_false_iff, hr.isSome_iff]
  constructor
  · intro hno n x hx
    by_contra hholds
    exact hno ⟨n, covers_iff_exists_takes.mpr ⟨x, hx⟩,
      fun hsel => hholds ((h.selects_iff_of_takes hx).mp hsel)⟩
  · rintro hall ⟨n, hn, hnot⟩
    obtain ⟨x, hx⟩ := covers_iff_exists_takes.mp hn
    exact hnot ((h.selects_iff_of_takes hx).mpr (hall n x hx))

lemma WellFormed.eq_time_iff (h : v.WellFormed) {times : Option PeriodSet}
    (ht : ∀ s ∈ times, s.WellFormed) :
    times = some v.time ↔ ∀ n, SpanSet.SomeCovers times n ↔ v.Covers n := by
  obtain ⟨hwhole, hcov⟩ := h.time_spec
  constructor
  · rintro rfl n
    rw [SpanSet.someCovers_some, hcov]
  · intro hn
    refine SpanSet.eq_of_someCovers ht ?_ fun n => ?_
    · rintro _ ⟨⟩
      exact hwhole
    · rw [hn, SpanSet.someCovers_some, hcov]

/-- The time at which a comparison with a constant is true is there if the comparison ever holds,
and is all the time of the value if it always does. -/
lemma whenTrue_of_compareValue (h : v.WellFormed) (c : Comparison) (x : V) :
    ∃ r times, v.compareValue c x = .ok r ∧ r.whenTrue = .ok times ∧
      (times.isSome = true ↔ v.EverTakes fun y => c.holds y x = true) ∧
      (times = some v.time ↔ v.AlwaysTakes fun y => c.holds y x = true) := by
  obtain ⟨r, hr, hwf, -, htakes⟩ := h.compareValue_takes c x
  obtain ⟨times, htimes, htwf, hcov⟩ := whenTrue_covers hwf
  have hcov : ∀ n, SpanSet.SomeCovers times n ↔ ∃ y, v.Takes n y ∧ c.holds y x = true :=
    fun n => (hcov n).trans (htakes n true)
  refine ⟨r, times, hr, htimes, ?_, ?_⟩
  · rw [SpanSet.isSome_iff_someCovers htwf]
    exact exists_congr hcov
  · rw [h.eq_time_iff htwf]
    constructor
    · intro hn n y hy
      obtain ⟨z, hz, hholds⟩ := (hcov n).mp ((hn n).mpr (covers_iff_exists_takes.mpr ⟨y, hy⟩))
      rwa [h.takes_unique hy hz]
    · intro hn n
      rw [hcov, covers_iff_exists_takes]
      exact exists_congr fun y => and_iff_left_of_imp (hn n y)

/-- Whether a value is ever or always equal to a constant is found without fail. -/
lemma everEqual_spec (h : v.WellFormed) (x : V) :
    ∃ e a, v.everEqual x = .ok e ∧ v.alwaysEqual x = .ok a ∧
      (e = true ↔ v.EverTakes fun y => Comparison.equal.holds y x = true) ∧
      (a = true ↔ v.AlwaysTakes fun y => Comparison.equal.holds y x = true) := by
  have hx : v.checkValues [x] = .ok () :=
    checkValues_eq_ok_iff.mpr fun _ _ => StepValue.compatible_eq_ok _ _
  have hsnaps := ValueFilter.snaps_equalTo (StepValue.compatible_eq_ok v.firstInstant.value x)
  obtain ⟨selected, hsel, hin⟩ := exists_atFilter h hsnaps
  obtain ⟨rest, hrest, hout⟩ := exists_minusFilter h hsnaps
  have hat : v.atValue x = .ok selected :=
    (atValue_of_checked hx).1.trans (reported_eq_ok.mpr hsel)
  have hminus : v.minusValue x = .ok rest :=
    (atValue_of_checked hx).2.trans (reported_eq_ok.mpr hrest)
  exact ⟨_, _, bind_eq_ok.mpr ⟨selected, hat, rfl⟩, bind_eq_ok.mpr ⟨rest, hminus, rfl⟩,
    isSome_of_selects h hin, isNone_of_not_selects h hout⟩

end

section Numbers

variable {v : Temporal Integer}

/-- Whether an inequality with a constant ever or always holds is found without fail. -/
lemma Sound.ever_spec (h : v.Sound) (i : Inequality) (x : Integer) :
    ∃ e a, ever i v x = .ok e ∧ always i v x = .ok a ∧
      (e = true ↔ v.EverTakes fun y => (Comparison.inequality i).holds y x = true) ∧
      (a = true ↔ v.AlwaysTakes fun y => (Comparison.inequality i).holds y x = true) := by
  obtain ⟨s, hs, hvalid, hholds⟩ := numbersWhere_spec i x
  have hwf := SpanSet.wellFormed_ofSpan hvalid
  obtain ⟨selected, rest, hsel, hrest, hin, hout⟩ := h.spans_spec hwf
  have hfilter : ∀ y : Integer, (ValueFilter.inSpans (SpanSet.ofSpan s)).holds y = true ↔
      (Comparison.inequality i).holds y x = true := by
    intro y
    rw [← hholds, Span.containsValue_iff, ← SpanSet.covers_ofSpan]
    exact hwf.containsValue_iff _
  have hever := isSome_of_selects h.wellFormed hin
  have halways := isNone_of_not_selects h.wellFormed hout
  simp only [hfilter] at hever halways
  exact ⟨_, _, bind_eq_ok.mpr ⟨s, hs, bind_eq_ok.mpr ⟨selected, hsel, rfl⟩⟩,
    bind_eq_ok.mpr ⟨s, hs, bind_eq_ok.mpr ⟨rest, hrest, rfl⟩⟩, hever, halways⟩

/-- Both answers about a comparison with a constant are found, and are what the time tells at which
the lifted comparison is true: something for ever, all the time of the value for always. -/
def AgreesWithTime (v : Temporal Integer) (c : Comparison) (x : Integer)
    (ever always : Result Bool) : Prop :=
  ∃ e a r times, ever = .ok e ∧ always = .ok a ∧ v.compareValue c x = .ok r ∧
    r.whenTrue = .ok times ∧ (e = true ↔ times.isSome = true) ∧ (a = true ↔ times = some v.time)

/-- One of two opposite inequalities holds always if the other one never does. -/
lemma Sound.always_eq_not_ever (h : v.Sound) {i j : Inequality} {x : Integer}
    (hij : ∀ y : Integer, (Comparison.inequality j).holds y x = true ↔
      ¬(Comparison.inequality i).holds y x = true) :
    ∃ b, ever i v x = .ok b ∧ always j v x = .ok (!b) := by
  obtain ⟨e, -, hever, -, he, -⟩ := h.ever_spec i x
  obtain ⟨-, a, -, halways, -, ha⟩ := h.ever_spec j x
  refine ⟨e, hever, ?_⟩
  rw [halways]
  congr 1
  rw [Bool.eq_iff_iff, ha, Bool.not_eq_true', ← Bool.not_eq_true, he, not_everTakes_iff]
  simp only [hij]

/-- Whether a comparison of an integer with a constant holds ever and always is what the time tells
at which the lifted comparison is true. So an inequality holds always if its opposite never does. -/
theorem Sound.ever_always_agree (h : v.Sound) (x : Integer) :
    (∀ i, v.AgreesWithTime (.inequality i) x (ever i v x) (always i v x)) ∧
      v.AgreesWithTime .equal x (v.everEqual x) (v.alwaysEqual x) ∧
      (∃ b, ever .lt v x = .ok b ∧ always .ge v x = .ok (!b)) ∧
      ∃ b, ever .gt v x = .ok b ∧ always .le v x = .ok (!b) := by
  have hagree : ∀ {c : Comparison} {ever always : Result Bool},
      (∃ e a, ever = .ok e ∧ always = .ok a ∧
        (e = true ↔ v.EverTakes fun y => c.holds y x = true) ∧
        (a = true ↔ v.AlwaysTakes fun y => c.holds y x = true)) →
      v.AgreesWithTime c x ever always := by
    rintro c ever always ⟨e, a, hever, halways, he, ha⟩
    obtain ⟨r, times, hr, htimes, hsome, hall⟩ := whenTrue_of_compareValue h.wellFormed c x
    exact ⟨e, a, r, times, hever, halways, hr, htimes, he.trans hsome.symm, ha.trans hall.symm⟩
  refine ⟨fun i => hagree (h.ever_spec i x), hagree (everEqual_spec h.wellFormed x),
    h.always_eq_not_ever fun y => ?_, h.always_eq_not_ever fun y => ?_⟩
  · rw [Inequality.holds_iff, Inequality.holds_iff]
    exact not_lt.symm
  · rw [Inequality.holds_iff, Inequality.holds_iff]
    exact not_lt.symm

/-- What goes up by steps is compared with one of its values and with the least integer. -/
theorem stairs_ever_always :
    stairs.Sound ∧ stairs.AgreesWithTime (.inequality .lt) (.clamp 2)
        (ever .lt stairs (.clamp 2)) (always .lt stairs (.clamp 2)) ∧
      stairs.AgreesWithTime .equal (.clamp 2) (stairs.everEqual (.clamp 2))
        (stairs.alwaysEqual (.clamp 2)) ∧
      ever .lt stairs (.clamp 2) = .ok true ∧ always .ge stairs (.clamp 2) = .ok false ∧
      ever .lt stairs (.clamp (-2147483648)) = .ok false ∧
      always .ge stairs (.clamp (-2147483648)) = .ok true := by
  have hs : stairs.Sound := ⟨stairs_wellFormed, rfl⟩
  obtain ⟨hinequality, hequal, ⟨e, hever, halways⟩, -⟩ := hs.ever_always_agree (.clamp 2)
  obtain ⟨-, -, ⟨e', hever', halways'⟩, -⟩ := hs.ever_always_agree (.clamp (-2147483648))
  have htrue : ever .lt stairs (.clamp 2) = .ok true := by decide +kernel
  have hfalse : ever .lt stairs (.clamp (-2147483648)) = .ok false := by decide +kernel
  obtain rfl : true = e := Except.ok.inj (htrue.symm.trans hever)
  obtain rfl : false = e' := Except.ok.inj (hfalse.symm.trans hever')
  exact ⟨hs, hinequality .lt, hequal, htrue, halways, hfalse, halways'⟩

end Numbers

end Temporal

end TemporalAlgebra
