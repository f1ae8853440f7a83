import TemporalAlgebra.Proofs.SpanSet.NormalForm

/-!
# Span sets as sets of places

The common part of two span sets covers the places that both cover, and what is left of one without
the other covers the places that only the first one covers. The sweeps leave spans behind for good;
in normal form nothing after a span reaches back to what it was left behind for.
-/
namespace TemporalAlgebra

variable {α : Type} [SpanDomain α] [LawfulDomain α]

namespace Span

lemma lo_hi_before {a b : Span α} :
    (ofBounds a.lowerBound (.upper b.lower (!b.lowerInc))).lo = a.lo ∧
      (ofBounds a.lowerBound (.upper b.lower (!b.lowerInc))).hi = b.lo - 1 := by
  have halo := a.lo_emod
  have hblo := b.lo_emod
  have hplace : (Bound.upper b.lower (!b.lowerInc)).place = b.lo - 1 := by
    rw [Bound.place_upper, lo_eq]
    cases b.lowerInc <;> simp only [Bool.not_true, Bool.not_false, if_true, if_false,
      Bool.false_eq_true] <;> omega
  constructor
  · rw [lo_ofBounds _ (by change a.lo % 3 ≠ 0; omega)]
    rfl
  · rw [hi_ofBounds _ (by omega), hplace]

lemma lo_hi_after {a b : Span α} :
    (ofBounds (.lower b.upper (!b.upperInc)) a.upperBound).lo = b.hi + 1 ∧
      (ofBounds (.lower b.upper (!b.upperInc)) a.upperBound).hi = a.hi := by
  have hahi := a.hi_emod
  have hbhi := b.hi_emod
  have hplace : (Bound.lower b.upper (!b.upperInc)).place = b.hi + 1 := by
    rw [Bound.place_lower, hi_eq]
    cases b.upperInc <;> simp only [Bool.not_true, Bool.not_false, if_true, if_false,
      Bool.false_eq_true] <;> omega
  constructor
  · rw [lo_ofBounds _ (by omega), hplace]
  · rw [hi_ofBounds _ (by change a.hi % 3 ≠ 2; omega)]
    rfl

lemma mem_difference_iff {a b c : Span α} : c ∈ a.difference b ↔
    (a.lo ≤ b.hi ∧ b.lo ≤ a.hi) ∧
        (a.lo < b.lo ∧ c.lo = a.lo ∧ c.hi = b.lo - 1 ∨
          b.hi < a.hi ∧ c.lo = b.hi + 1 ∧ c.hi = a.hi) ∨
      ¬(a.lo ≤ b.hi ∧ b.lo ≤ a.hi) ∧ c = a := by
  have hbefore := lo_hi_before (a := a) (b := b)
  have hafter := lo_hi_after (a := a) (b := b)
  unfold difference
  by_cases hov : a.overlaps b = true
  · have hov' := (overlaps_iff _ _).mp hov
    rw [if_pos hov, List.mem_append]
    simp only [hov', and_self, true_and, not_true, false_and, or_false]
    refine or_congr ?_ ?_
    · by_cases hlt : a.lowerBound.before b.lowerBound = true
      · rw [if_pos hlt, List.mem_singleton]
        have hlt' : a.lo < b.lo := (Bound.before_iff _ _).mp hlt
        rw [eq_iff_lo_hi, hbefore.1, hbefore.2]
        exact (and_iff_right hlt').symm
      · rw [if_neg hlt]
        have hlt' : ¬a.lo < b.lo := fun h => hlt ((Bound.before_iff _ _).mpr h)
        simp [hlt']
    · by_cases hlt : b.upperBound.before a.upperBound = true
      · rw [if_pos hlt, List.mem_singleton]
        have hlt' : b.hi < a.hi := (Bound.before_iff _ _).mp hlt
        rw [eq_iff_lo_hi, hafter.1, hafter.2]
        exact (and_iff_right hlt').symm
      · rw [if_neg hlt]
        have hlt' : ¬b.hi < a.hi := fun h => hlt ((Bound.before_iff _ _).mpr h)
        simp [hlt']
  · have hov' : ¬(a.lo ≤ b.hi ∧ b.lo ≤ a.hi) := fun h => hov ((overlaps_iff _ _).mpr h)
    rw [if_neg hov, List.mem_singleton]
    simp only [hov', false_and, not_false_iff, true_and, false_or]

lemma Valid.difference {a b c : Span α} (ha : a.Valid) (hb : b.Valid)
    (h : c ∈ a.difference b) : c.Valid := by
  rcases mem_difference_iff.mp h with ⟨hov, h⟩ | ⟨-, rfl⟩
  · refine ⟨by omega, fun hd => ?_⟩
    have := ha.canonical hd
    have := hb.canonical hd
    omega
  · exact ha

/-- What is left of a span without another one covers the places that only the first covers. -/
lemma anyCovers_difference {a b : Span α} (n : Int) :
    AnyCovers (a.difference b) n ↔ a.Covers n ∧ ¬b.Covers n := by
  unfold Covers
  constructor
  · rintro ⟨c, hc, hlo, hhi⟩
    rcases mem_difference_iff.mp hc with ⟨hov, h⟩ | ⟨hov, rfl⟩
    · omega
    · omega
  · rintro ⟨⟨hlo, hhi⟩, hb⟩
    by_cases hov : a.lo ≤ b.hi ∧ b.lo ≤ a.hi
    · by_cases hlt : n < b.lo
      · obtain ⟨h1, h2⟩ := lo_hi_before (a := a) (b := b)
        exact ⟨_, mem_difference_iff.mpr (Or.inl ⟨hov, Or.inl ⟨by omega, h1, h2⟩⟩), by
          unfold Covers; omega⟩
      · obtain ⟨h1, h2⟩ := lo_hi_after (a := a) (b := b)
        exact ⟨_, mem_difference_iff.mpr (Or.inl ⟨hov, Or.inr ⟨by omega, h1, h2⟩⟩), by
          unfold Covers; omega⟩
    · exact ⟨a, mem_difference_iff.mpr (Or.inr ⟨hov, rfl⟩), hlo, hhi⟩

/-- In normal form the spans from the first one on that does not start up to a place lie beyond
it. -/
lemma NormalForm.lt_of_mem_dropWhile {spans : List (Span α)} (h : NormalForm spans) {b : Bound α}
    {x : Span α} (hx : x ∈ spans.dropWhile fun o => !b.before o.lowerBound) : b.place < x.lo := by
  induction spans with
  | nil => simp at hx
  | cons s rest ih =>
    rw [List.dropWhile_cons] at hx
    split at hx
    · exact ih h.tail hx
    · rename_i hlt
      have hs : b.place < s.lo := by
        simpa [Bound.before_iff, Span.lo] using hlt
      rcases List.mem_cons.mp hx with rfl | hx
      · exact hs
      · have := List.rel_of_pairwise_cons h.apart hx
        have := h.head.lo_le_hi
        omega

lemma NormalForm.sublist {a b : List (Span α)} (h : NormalForm b) (hs : a.Sublist b) :
    NormalForm a :=
  ⟨fun x hx => h.valid x (hs.subset hx), h.apart.sublist hs⟩

end Span

open TemporalAlgebra.Span

namespace SpanSet

/-- A value lies in a set if its place does. -/
lemma WellFormed.containsValue_iff {s : SpanSet α} (h : s.WellFormed) (v : α) :
    s.containsValue v = true ↔ s.Covers (3 * LawfulDomain.key v + 1) := by
  unfold containsValue reaching Covers
  have hn := h.normal
  generalize s.spans = spans at hn
  induction spans with
  | nil => simp
  | cons x rest ih =>
    rw [List.dropWhile_cons, anyCovers_cons]
    split
    · rename_i hlt
      rw [Bound.before_iff, Bound.place_point] at hlt
      change x.hi < _ at hlt
      refine (ih hn.tail).trans ?_
      unfold Span.Covers
      constructor
      · exact Or.inr
      · rintro (hx | hx)
        · omega
        · exact hx
    · rename_i hlt
      rw [Bound.before_iff, Bound.place_point] at hlt
      change ¬x.hi < _ at hlt
      rw [List.head?_cons, Option.any_some, Span.containsValue_iff]
      constructor
      · exact Or.inl
      · rintro (hx | hx)
        · exact hx
        · have := hn.lt_of_covers hx
          omega

omit [LawfulDomain α] in
lemma sweepCommon_cons (a : Span α) (as : List (Span α)) (b : Span α) (bs : List (Span α)) :
    sweepCommon (a :: as) (b :: bs) = (a.intersection b).toList ++
      if a.upperBound.before b.upperBound then sweepCommon as (b :: bs)
      else sweepCommon (a :: as) bs := by
  rw [sweepCommon]
  cases a.intersection b <;> rfl

lemma anyCovers_intersection {a b : Span α} (n : Int) :
    AnyCovers (a.intersection b).toList n ↔ a.Covers n ∧ b.Covers n := by
  unfold Span.Covers
  cases h : a.intersection b with
  | none =>
    have := intersection_eq_none_iff.mp h
    simp only [Option.toList_none, anyCovers_nil, false_iff]
    omega
  | some c =>
    obtain ⟨hlo, hhi, -⟩ := intersection_eq_some_iff.mp h
    simp only [Option.toList_some, anyCovers_cons, anyCovers_nil, or_false, Span.Covers]
    omega

/-- The sweep over two lists in normal form finds the places that both cover. -/
lemma sweepCommon_spec {as bs : List (Span α)} (ha : NormalForm as) (hb : NormalForm bs) :
    (∀ c ∈ sweepCommon as bs, c.Valid) ∧
      ∀ n, AnyCovers (sweepCommon as bs) n ↔ AnyCovers as n ∧ AnyCovers bs n := by
  induction as generalizing bs with
  | nil =>
    rw [sweepCommon]
    · simp
    · simp
  | cons a as iha =>
    induction bs with
    | nil =>
      rw [sweepCommon]
      · simp
      · simp
    | cons b bs ihb =>
      have hvalid : ∀ c ∈ (a.intersection b).toList, c.Valid := fun c hc =>
        ha.head.intersection hb.head (Option.mem_toList.mp hc)
      rw [sweepCommon_cons]
      -- what is left behind ends before the rest of the other list starts
      by_cases hlt : a.upperBound.before b.upperBound = true
      · rw [if_pos hlt]
        rw [Bound.before_iff] at hlt
        change a.hi < b.hi at hlt
        obtain ⟨hv, hc⟩ := iha ha.tail hb
        refine ⟨fun c h => (List.mem_append.mp h).elim (hvalid c) (hv c), fun n => ?_⟩
        rw [anyCovers_append, anyCovers_intersection, hc, anyCovers_cons, anyCovers_cons]
        have : a.Covers n → ¬AnyCovers bs n := by
          intro h h'
          have := hb.lt_of_covers h'
          have := h.2
          omega
        tauto
      · rw [if_neg hlt]
        rw [Bound.before_iff] at hlt
        change ¬a.hi < b.hi at hlt
        obtain ⟨hv, hc⟩ := ihb hb.tail
        refine ⟨fun c h => (List.mem_append.mp h).elim (hvalid c) (hv c), fun n => ?_⟩
        rw [anyCovers_append, anyCovers_intersection, hc, anyCovers_cons, anyCovers_cons]
        have : b.Covers n → ¬AnyCovers as n := by
          intro h h'
          have := ha.lt_of_covers h'
          have := h.2
          omega
        tauto

/-- The common part of two sets covers the places that both cover. -/
theorem WellFormed.someCovers_intersection {a b : SpanSet α} (ha : a.WellFormed)
    (hb : b.WellFormed) (n : Int) :
    SomeCovers (a.intersection b) n ↔ a.Covers n ∧ b.Covers n := by
  unfold intersection
  split
  · rw [someCovers_ofSpans? (sweepCommon_spec ha.normal hb.normal).1,
      (sweepCommon_spec ha.normal hb.normal).2]
    rfl
  · rename_i hov
    simp only [someCovers_none, false_iff]
    rintro ⟨h1, h2⟩
    rw [overlaps_iff] at hov
    have h1 := ha.covers_hull h1
    have h2 := hb.covers_hull h2
    unfold Span.Covers at h1 h2
    omega

lemma WellFormed.intersection {a b c : SpanSet α} (ha : a.WellFormed) (hb : b.WellFormed)
    (h : c ∈ a.intersection b) : c.WellFormed := by
  unfold SpanSet.intersection at h
  split at h
  · exact wellFormed_of_mem_ofSpans? (sweepCommon_spec ha.normal hb.normal).1 h
  · simp at h

lemma WellFormed.someCovers_intersectionSpan {s : SpanSet α} (hs : s.WellFormed) {x : Span α}
    (hx : x.Valid) (n : Int) :
    SomeCovers (s.intersectionSpan x) n ↔ s.Covers n ∧ x.Covers n := by
  unfold intersectionSpan
  rw [hs.someCovers_intersection (wellFormed_ofSpan hx), covers_ofSpan]

lemma WellFormed.intersectionSpan {s : SpanSet α} (hs : s.WellFormed) {x : Span α}
    (hx : x.Valid) {c : SpanSet α} (h : c ∈ s.intersectionSpan x) : c.WellFormed :=
  hs.intersection (wellFormed_ofSpan hx) h

/-- Spans taken away one after the other leave the places that none of them covers. -/
lemma foldl_difference_spec (others pieces : List (Span α)) (hp : ∀ p ∈ pieces, p.Valid)
    (ho : ∀ o ∈ others, o.Valid) :
    (∀ c ∈ others.foldl (fun pieces o => pieces.flatMap fun p => p.difference o) pieces,
        c.Valid) ∧
      ∀ n, AnyCovers (others.foldl (fun pieces o => pieces.flatMap fun p => p.difference o)
        pieces) n ↔ AnyCovers pieces n ∧ ¬AnyCovers others n := by
  induction others generalizing pieces with
  | nil => simpa using hp
  | cons o others ih =>
    have hvalid : ∀ c ∈ pieces.flatMap fun p => p.difference o, c.Valid := by
      intro c hc
      obtain ⟨p, hpm, hc⟩ := List.mem_flatMap.mp hc
      exact (hp p hpm).difference (ho o (by simp)) hc
    obtain ⟨h1, h2⟩ := ih _ hvalid fun x hx => ho x (by simp [hx])
    refine ⟨h1, fun n => ?_⟩
    rw [List.foldl_cons, h2, anyCovers_cons, not_or, ← and_assoc]
    apply and_congr_left
    intro _
    constructor
    · rintro ⟨c, hc, hn⟩
      obtain ⟨p, hpm, hc⟩ := List.mem_flatMap.mp hc
      obtain ⟨h, h'⟩ := (anyCovers_difference n).mp ⟨c, hc, hn⟩
      exact ⟨⟨p, hpm, h⟩, h'⟩
    · rintro ⟨⟨p, hpm, h⟩, h'⟩
      obtain ⟨c, hc, hn⟩ := (anyCovers_difference n).mpr ⟨h, h'⟩
      exact ⟨c, List.mem_flatMap.mpr ⟨p, hpm, hc⟩, hn⟩

/-- One step of the sweep takes the spans that meet the first one away from it, and goes on without
those behind it. -/
lemma exists_sweepMinus_cons {bs : List (Span α)} (hb : NormalForm bs) (s : Span α)
    (rest : List (Span α)) : ∃ behind met beyond, bs = behind ++ (met ++ beyond) ∧
      (∀ o ∈ behind, o.hi < s.lo) ∧ (∀ o ∈ beyond, s.hi < o.lo) ∧
      sweepMinus (s :: rest) bs = subtract s met ++ sweepMinus rest (met ++ beyond) := by
  let ahead := bs.dropWhile fun o => o.upperBound.before s.lowerBound
  have hahead : NormalForm ahead := hb.sublist (List.dropWhile_sublist _)
  refine ⟨bs.takeWhile fun o => o.upperBound.before s.lowerBound,
    ahead.takeWhile fun o => !s.upperBound.before o.lowerBound,
    ahead.dropWhile fun o => !s.upperBound.before o.lowerBound, ?_, fun o ho => ?_,
    fun o ho => hahead.lt_of_mem_dropWhile ho, ?_⟩
  · rw [List.takeWhile_append_dropWhile, List.takeWhile_append_dropWhile]
  · have := List.all_eq_true.mp List.all_takeWhile o ho
    exact (Bound.before_iff _ _).mp this
  · rw [sweepMinus, List.takeWhile_append_dropWhile]

/-- The sweep over two lists in normal form leaves the places that only the first covers. -/
lemma sweepMinus_spec {as bs : List (Span α)} (ha : NormalForm as) (hb : NormalForm bs) :
    (∀ c ∈ sweepMinus as bs, c.Valid) ∧
      ∀ n, AnyCovers (sweepMinus as bs) n ↔ AnyCovers as n ∧ ¬AnyCovers bs n := by
  induction as generalizing bs with
  | nil => simp [sweepMinus]
  | cons s rest ih =>
    obtain ⟨behind, met, beyond, rfl, hbehind, hbeyond, heq⟩ := exists_sweepMinus_cons hb s rest
    obtain ⟨hv, hc⟩ := foldl_difference_spec met [s] (by simpa using ha.head)
      fun o ho => hb.valid o (by simp [ho])
    obtain ⟨hv', hc'⟩ := ih ha.tail (hb.sublist (List.sublist_append_right _ _))
    rw [heq]
    refine ⟨fun c hmem => (List.mem_append.mp hmem).elim (hv c) (hv' c), fun n => ?_⟩
    rw [anyCovers_append]
    unfold subtract
    rw [hc, hc']
    simp only [anyCovers_append, anyCovers_cons, anyCovers_nil, or_false, not_or]
    have h1 : s.Covers n ∨ AnyCovers rest n → ¬AnyCovers behind n := by
      rintro h ⟨o, ho, -, hn⟩
      have := hbehind o ho
      rcases h with h | h
      · have := h.1
        omega
      · have := ha.lt_of_covers h
        have := ha.head.lo_le_hi
        omega
    have h2 : s.Covers n → ¬AnyCovers beyond n := by
      rintro h ⟨o, ho, hn, -⟩
      have := hbeyond o ho
      have := h.2
      omega
    tauto

/-- What is left of a set without another one covers the places that only the first covers. -/
theorem WellFormed.someCovers_minus {a b : SpanSet α} (ha : a.WellFormed) (hb : b.WellFormed)
    (n : Int) : SomeCovers (a.minus b) n ↔ a.Covers n ∧ ¬b.Covers n := by
  obtain ⟨hv, hc⟩ := sweepMinus_spec ha.normal hb.normal
  unfold minus
  rw [someCovers_ofSpans? hv, hc]
  rfl

lemma WellFormed.minus {a b c : SpanSet α} (ha : a.WellFormed) (hb : b.WellFormed)
    (h : c ∈ a.minus b) : c.WellFormed :=
  wellFormed_of_mem_ofSpans? (sweepMinus_spec ha.normal hb.normal).1 h

end SpanSet

end TemporalAlgebra
