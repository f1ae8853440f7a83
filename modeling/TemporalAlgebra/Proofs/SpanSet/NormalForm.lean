import Mathlib.Data.List.Basic
import Mathlib.Data.List.Pairwise
import TemporalAlgebra.Proofs.Span.Position
import TemporalAlgebra.SpanSet.Basic

/-!
# The normal form of span sets

The spans of a span set rise and leave at least one place between them. Building a set brings any
spans to this form and keeps the places that they cover, and there is only one set in this form
that covers given places.
-/
namespace TemporalAlgebra

variable {α : Type} [SpanDomain α] [LawfulDomain α]

namespace Span

def AnyCovers (spans : List (Span α)) (n : Int) : Prop := ∃ s ∈ spans, s.Covers n

@[simp] lemma anyCovers_nil (n : Int) : ¬AnyCovers ([] : List (Span α)) n := by
  simp [AnyCovers]

@[simp] lemma anyCovers_cons {s : Span α} {rest : List (Span α)} {n : Int} :
    AnyCovers (s :: rest) n ↔ s.Covers n ∨ AnyCovers rest n := by
  simp [AnyCovers]

lemma anyCovers_append {a b : List (Span α)} {n : Int} :
    AnyCovers (a ++ b) n ↔ AnyCovers a n ∨ AnyCovers b n := by
  simp only [AnyCovers, List.mem_append, or_and_right, exists_or]

/-- Spans that are valid, rise, and leave a place between them. -/
structure NormalForm (spans : List (Span α)) : Prop where
  valid : ∀ s ∈ spans, s.Valid
  apart : spans.Pairwise fun a b => a.hi + 1 < b.lo

lemma NormalForm.nil : NormalForm ([] : List (Span α)) := ⟨by simp, List.Pairwise.nil⟩

lemma NormalForm.tail {s : Span α} {rest : List (Span α)} (h : NormalForm (s :: rest)) :
    NormalForm rest :=
  ⟨fun x hx => h.valid x (by simp [hx]), h.apart.tail⟩

lemma NormalForm.head {s : Span α} {rest : List (Span α)} (h : NormalForm (s :: rest)) :
    s.Valid := h.valid s (by simp)

lemma NormalForm.lt_of_covers {s : Span α} {rest : List (Span α)} (h : NormalForm (s :: rest))
    {n : Int} (hn : AnyCovers rest n) : s.hi + 1 < n := by
  obtain ⟨x, hx, hlo, -⟩ := hn
  have := List.rel_of_pairwise_cons h.apart hx
  omega

lemma NormalForm.first_le {s : Span α} {rest : List (Span α)} (h : NormalForm (s :: rest))
    {x : Span α} (hx : x ∈ s :: rest) : s.lo ≤ x.lo := by
  rcases List.mem_cons.mp hx with rfl | hx
  · exact le_refl _
  · have := List.rel_of_pairwise_cons h.apart hx
    have := h.head.lo_le_hi
    omega

/-- Every place lies in the first span or beyond it. -/
lemma NormalForm.anyCovers_cons_iff {s : Span α} {rest : List (Span α)}
    (h : NormalForm (s :: rest)) {n : Int} :
    AnyCovers (s :: rest) n ↔ s.lo ≤ n ∧ (n ≤ s.hi ∨ s.hi + 1 < n ∧ AnyCovers rest n) := by
  have hle := h.head.lo_le_hi
  rw [anyCovers_cons]
  unfold Covers
  constructor
  · rintro (hn | hn)
    · exact ⟨hn.1, Or.inl hn.2⟩
    · have hlt := h.lt_of_covers hn
      exact ⟨by omega, Or.inr ⟨hlt, hn⟩⟩
  · rintro ⟨hlo, hhi | ⟨-, hn⟩⟩
    · exact Or.inl ⟨hlo, hhi⟩
    · exact Or.inr hn

lemma NormalForm.anyCovers_tail_iff {s : Span α} {rest : List (Span α)}
    (h : NormalForm (s :: rest)) {n : Int} :
    AnyCovers rest n ↔ s.hi < n ∧ AnyCovers (s :: rest) n := by
  rw [anyCovers_cons]
  constructor
  · intro hn
    have hlt := h.lt_of_covers hn
    exact ⟨by omega, Or.inr hn⟩
  · rintro ⟨hlt, hn | hn⟩
    · exact absurd hn.2 (by omega)
    · exact hn

/-- The first span of a list in normal form starts at the first place that is covered and ends where
the next place is not covered. -/
lemma NormalForm.head_eq {s t : Span α} {as bs : List (Span α)} (ha : NormalForm (s :: as))
    (hb : NormalForm (t :: bs)) (h : ∀ n, AnyCovers (s :: as) n ↔ AnyCovers (t :: bs) n) :
    s = t := by
  have hs := ha.head.lo_le_hi
  have ht := hb.head.lo_le_hi
  simp only [ha.anyCovers_cons_iff, hb.anyCovers_cons_iff] at h
  have hlo : s.lo = t.lo := by
    have h1 := (h s.lo).mp ⟨le_refl _, Or.inl hs⟩
    have h2 := (h t.lo).mpr ⟨le_refl _, Or.inl ht⟩
    omega
  refine eq_of_lo_hi hlo ?_
  rcases lt_trichotomy s.hi t.hi with hlt | heq | hgt
  · have := (h (s.hi + 1)).mpr ⟨by omega, Or.inl (by omega)⟩
    omega
  · exact heq
  · have := (h (t.hi + 1)).mp ⟨by omega, Or.inl (by omega)⟩
    omega

/-- A list in normal form is known by the places that it covers. -/
theorem NormalForm.eq_of_covers {a b : List (Span α)} (ha : NormalForm a) (hb : NormalForm b)
    (h : ∀ n, AnyCovers a n ↔ AnyCovers b n) : a = b := by
  induction a generalizing b with
  | nil =>
    cases b with
    | nil => rfl
    | cons t b =>
      have := (h t.lo).mpr (by simp [Covers, hb.head.lo_le_hi])
      simp at this
  | cons s a ih =>
    cases b with
    | nil =>
      have := (h s.lo).mp (by simp [Covers, ha.head.lo_le_hi])
      simp at this
    | cons t b =>
      obtain rfl := ha.head_eq hb h
      congr 1
      refine ih ha.tail hb.tail fun n => ?_
      rw [ha.anyCovers_tail_iff, hb.anyCovers_tail_iff, h n]

end Span

open TemporalAlgebra.Span

namespace SpanSet

def Covers (s : SpanSet α) (n : Int) : Prop := AnyCovers s.spans n

/-- A set in normal form with its hull beside it. -/
structure WellFormed (s : SpanSet α) : Prop where
  normal : NormalForm s.spans
  hull_eq : s.hull = s.first.hull s.last

/-- Sets in normal form that cover the same places are equal. -/
theorem WellFormed.eq_of_covers {s t : SpanSet α} (hs : s.WellFormed) (ht : t.WellFormed)
    (h : ∀ n, s.Covers n ↔ t.Covers n) : s = t := by
  have hspans := hs.normal.eq_of_covers ht.normal h
  have hhs := hs.hull_eq
  have hht := ht.hull_eq
  obtain ⟨f, r, u⟩ := s
  obtain ⟨f', r', u'⟩ := t
  simp only [spans, List.cons.injEq] at hspans
  obtain ⟨rfl, rfl⟩ := hspans
  dsimp only at hhs hht
  rw [hhs, hht]
  rfl

lemma covers_ofSpan (s : Span α) (n : Int) : (ofSpan s).Covers n ↔ s.Covers n := by
  simp [Covers, spans, ofSpan]

lemma wellFormed_ofSpan {s : Span α} (h : s.Valid) : (ofSpan s).WellFormed :=
  ⟨⟨by simpa [spans, ofSpan] using h, by simp [spans, ofSpan]⟩, (hull_self s).symm⟩

lemma wellFormed_ofOrdered {first : Span α} {rest : List (Span α)}
    (h : NormalForm (first :: rest)) : (ofOrdered first rest).WellFormed := ⟨h, rfl⟩

lemma WellFormed.first_valid {s : SpanSet α} (h : s.WellFormed) : s.first.Valid := h.normal.head

lemma WellFormed.exists_covers {s : SpanSet α} (h : s.WellFormed) : ∃ n, s.Covers n :=
  ⟨s.first.lo, s.first, by simp [spans], le_refl _, h.first_valid.lo_le_hi⟩

lemma WellFormed.covers_hull {s : SpanSet α} (h : s.WellFormed) {n : Int} (hn : s.Covers n) :
    s.hull.Covers n := by
  obtain ⟨x, hx, hlo, hhi⟩ := hn
  have hfirst := h.normal.first_le hx
  have hlast : x.hi ≤ s.last.hi := by
    have hl : s.last = s.spans.getLast (by simp [spans]) :=
      (List.getLast_eq_getLastD _).symm
    rcases (List.mem_iff_append.mp hx) with ⟨before, after, heq⟩
    cases after with
    | nil => simp [hl, heq]
    | cons y after =>
      have hmem : s.last ∈ y :: after := by
        simp only [hl, heq]
        rw [List.getLast_append_of_ne_nil _ (by simp), List.getLast_cons (by simp)]
        exact List.getLast_mem _
      have hpair := h.normal.apart
      rw [heq, List.pairwise_append] at hpair
      have := List.rel_of_pairwise_cons hpair.2.1 hmem
      have := (h.normal.valid s.last (by rw [hl]; exact List.getLast_mem _)).lo_le_hi
      omega
  unfold Span.Covers
  rw [h.hull_eq, lo_hull, hi_hull]
  omega

/-- The joined spans are in normal form and cover what the given ones cover. -/
lemma join_spec (current : Span α) (rest : List (Span α))
    (hvalid : ∀ s ∈ current :: rest, s.Valid)
    (hsorted : (current :: rest).Pairwise fun a b => a.lo ≤ b.lo) :
    (join current rest).WellFormed ∧ (join current rest).first.lo = current.lo ∧
      ∀ n, (join current rest).Covers n ↔ AnyCovers (current :: rest) n := by
  induction rest generalizing current with
  | nil =>
    have h := hvalid current (by simp)
    exact ⟨wellFormed_ofSpan h, rfl, fun n => by rw [join, covers_ofSpan]; simp⟩
  | cons s rest ih =>
    have hc := hvalid current (by simp)
    have hs := hvalid s (by simp)
    have hle : current.lo ≤ s.lo := List.rel_of_pairwise_cons hsorted (by simp)
    have hcv := hc.lo_le_hi
    have hsv := hs.lo_le_hi
    have hrest := hsorted.tail
    rw [join]
    by_cases hmeet : s.lo ≤ current.hi + 1
    · have hcond : (current.overlaps s || current.adjacent s) = true := by
        rw [Bool.or_eq_true, overlaps_iff, adjacent_iff]
        omega
      rw [if_pos hcond]
      have hlo := lo_hull current s
      have hhi := hi_hull current s
      obtain ⟨hwf, hfirst, hcov⟩ := ih (current.hull s)
        (by
          intro x hx
          rcases List.mem_cons.mp hx with rfl | hx
          · exact hc.hull hs
          · exact hvalid x (by simp [hx]))
        (by
          refine List.pairwise_cons.mpr ⟨fun x hx => ?_, hrest.tail⟩
          have := List.rel_of_pairwise_cons hrest hx
          omega)
      refine ⟨hwf, by omega, fun n => ?_⟩
      rw [hcov, anyCovers_cons, anyCovers_cons, anyCovers_cons, ← or_assoc]
      apply or_congr_left
      unfold Span.Covers
      omega
    · have hcond : ¬(current.overlaps s || current.adjacent s) = true := by
        rw [Bool.or_eq_true, overlaps_iff, adjacent_iff]
        omega
      rw [if_neg hcond]
      obtain ⟨hwf, hfirst, hcov⟩ := ih s (fun x hx => hvalid x (by simp [hx])) hrest
      refine ⟨wellFormed_ofOrdered ⟨?_, ?_⟩, rfl, fun n => ?_⟩
      · intro x hx
        rcases List.mem_cons.mp hx with rfl | hx
        · exact hc
        · exact hwf.normal.valid x hx
      · refine List.pairwise_cons.mpr ⟨fun x hx => ?_, hwf.normal.apart⟩
        have hxs := hwf.normal.first_le hx
        omega
      · change AnyCovers (current :: (join s rest).spans) n ↔ _
        rw [anyCovers_cons, anyCovers_cons]
        exact or_congr_right (hcov n)

omit [LawfulDomain α] in
lemma sort_perm (spans : List (Span α)) : (sort spans).Perm spans := List.mergeSort_perm _ _

lemma sort_pairwise (spans : List (Span α)) :
    (sort spans).Pairwise fun a b => a.lo < b.lo ∨ a.lo = b.lo ∧ a.hi ≤ b.hi := by
  have h : (sort spans).Pairwise fun a b => (a.order b != .gt) = true := by
    refine List.pairwise_mergeSort (fun a b c hab hbc => ?_) (fun a b => ?_) spans
    · rw [order_ne_gt_iff] at hab hbc ⊢
      omega
    · rw [Bool.or_eq_true, order_ne_gt_iff, order_ne_gt_iff]
      omega
  exact h.imp fun hab => (order_ne_gt_iff _ _).mp hab

omit [LawfulDomain α] in
lemma ofSpans?_eq_none_iff {spans : List (Span α)} : ofSpans? spans = none ↔ spans = [] := by
  unfold ofSpans?
  have hp := sort_perm spans
  cases hsort : sort spans with
  | nil =>
    rw [hsort] at hp
    simp [hp.symm.eq_nil]
  | cons first rest =>
    rw [hsort] at hp
    simp only [reduceCtorEq, false_iff]
    rintro rfl
    exact absurd hp.eq_nil (by simp)

/-- A set built from spans is in normal form and covers what these cover. -/
theorem ofSpans?_spec {spans : List (Span α)} (hvalid : ∀ s ∈ spans, s.Valid) {set : SpanSet α}
    (h : ofSpans? spans = some set) :
    set.WellFormed ∧ ∀ n, set.Covers n ↔ AnyCovers spans n := by
  have hp := sort_perm spans
  have hs := sort_pairwise spans
  unfold ofSpans? at h
  cases hsort : sort spans with
  | nil => simp [hsort] at h
  | cons first rest =>
    rw [hsort] at h hp hs
    obtain rfl := Option.some.inj h
    obtain ⟨hwf, -, hcov⟩ := join_spec first rest
      (fun s hx => hvalid s (hp.mem_iff.mp hx)) (hs.imp fun hab => by omega)
    refine ⟨hwf, fun n => (hcov n).trans ?_⟩
    unfold AnyCovers
    simp only [hp.mem_iff]

def SomeCovers (set : Option (SpanSet α)) (n : Int) : Prop := ∃ s ∈ set, s.Covers n

@[simp] lemma someCovers_none (n : Int) : ¬SomeCovers (none : Option (SpanSet α)) n := by
  simp [SomeCovers]

@[simp] lemma someCovers_some {s : SpanSet α} {n : Int} :
    SomeCovers (some s) n ↔ s.Covers n := by
  simp [SomeCovers]

/-- Optional sets in normal form that cover the same places are equal. -/
theorem eq_of_someCovers {a b : Option (SpanSet α)} (ha : ∀ s ∈ a, s.WellFormed)
    (hb : ∀ s ∈ b, s.WellFormed) (h : ∀ n, SomeCovers a n ↔ SomeCovers b n) : a = b := by
  cases a with
  | none =>
    cases b with
    | none => rfl
    | some t =>
      obtain ⟨n, hn⟩ := (hb t rfl).exists_covers
      exact absurd ((h n).mpr (someCovers_some.mpr hn)) (someCovers_none n)
  | some s =>
    cases b with
    | none =>
      obtain ⟨n, hn⟩ := (ha s rfl).exists_covers
      exact absurd ((h n).mp (someCovers_some.mpr hn)) (someCovers_none n)
    | some t =>
      rw [(ha s rfl).eq_of_covers (hb t rfl) fun n => by simpa using h n]

lemma someCovers_ofSpans? {spans : List (Span α)} (hvalid : ∀ s ∈ spans, s.Valid) (n : Int) :
    SomeCovers (ofSpans? spans) n ↔ Span.AnyCovers spans n := by
  cases h : ofSpans? spans with
  | none =>
    rw [ofSpans?_eq_none_iff.mp h]
    simp
  | some set => rw [someCovers_some, (ofSpans?_spec hvalid h).2]

lemma wellFormed_of_mem_ofSpans? {spans : List (Span α)} (hvalid : ∀ s ∈ spans, s.Valid)
    {set : SpanSet α} (h : set ∈ ofSpans? spans) : set.WellFormed :=
  (ofSpans?_spec hvalid h).1

lemma WellFormed.ofSpans?_eq {s : SpanSet α} (h : s.WellFormed) : ofSpans? s.spans = some s := by
  refine eq_of_someCovers (fun t ht => wellFormed_of_mem_ofSpans? h.normal.valid ht)
    (fun t ht => ?_) fun n => ?_
  · obtain rfl := Option.mem_some.mp ht
    exact h
  · rw [someCovers_ofSpans? h.normal.valid, someCovers_some]
    rfl

omit [LawfulDomain α] in
lemma ofSpans?_ofSpans (first : Span α) (rest : List (Span α)) :
    ofSpans? (first :: rest) = some (ofSpans first rest) := by
  unfold ofSpans
  cases h : ofSpans? (first :: rest) with
  | none => exact absurd (ofSpans?_eq_none_iff.mp h) (by simp)
  | some set => rfl

end SpanSet

end TemporalAlgebra
