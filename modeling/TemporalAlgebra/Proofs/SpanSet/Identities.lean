import TemporalAlgebra.Aggregate.Extent
import TemporalAlgebra.Proofs.SpanSet.Operations

/-!
# Identities of span sets

There is one set in normal form for given places, so the identities of set algebra hold between span
sets as equalities, spans and hulls included. It does not matter how a set was cut and put together
again, nor in which order its spans came.
-/
namespace TemporalAlgebra

open TemporalAlgebra.Span

variable {α : Type} [SpanDomain α] [LawfulDomain α]

namespace SpanSet

section

variable {first : Span α} {rest : List (Span α)}

lemma wellFormed_ofSpans (hvalid : ∀ s ∈ first :: rest, s.Valid) :
    (ofSpans first rest).WellFormed :=
  wellFormed_of_mem_ofSpans? hvalid (ofSpans?_ofSpans first rest)

lemma covers_ofSpans (hvalid : ∀ s ∈ first :: rest, s.Valid) (n : Int) :
    (ofSpans first rest).Covers n ↔ AnyCovers (first :: rest) n := by
  rw [← someCovers_some, ← ofSpans?_ofSpans, someCovers_ofSpans? hvalid]

end

variable {a b s : SpanSet α} {x : Span α}

lemma WellFormed.valid_append (ha : a.WellFormed) {spans : List (Span α)}
    (hvalid : ∀ y ∈ spans, y.Valid) : ∀ y ∈ a.first :: (a.rest ++ spans), y.Valid :=
  List.forall_mem_append.mpr ⟨ha.normal.valid, hvalid⟩

lemma WellFormed.union (ha : a.WellFormed) (hb : b.WellFormed) : (a.union b).WellFormed :=
  wellFormed_ofSpans (ha.valid_append hb.normal.valid)

lemma WellFormed.covers_union (ha : a.WellFormed) (hb : b.WellFormed) (n : Int) :
    (a.union b).Covers n ↔ a.Covers n ∨ b.Covers n := by
  unfold SpanSet.union
  rw [covers_ofSpans (ha.valid_append hb.normal.valid)]
  exact anyCovers_append (a := a.spans)

lemma WellFormed.unionSpan (hs : s.WellFormed) (hx : x.Valid) : (s.unionSpan x).WellFormed :=
  wellFormed_ofSpans (hs.valid_append (List.forall_mem_singleton.mpr hx))

lemma WellFormed.covers_unionSpan (hs : s.WellFormed) (hx : x.Valid) (n : Int) :
    (s.unionSpan x).Covers n ↔ s.Covers n ∨ x.Covers n := by
  unfold SpanSet.unionSpan
  rw [covers_ofSpans (hs.valid_append (List.forall_mem_singleton.mpr hx))]
  refine (anyCovers_append (a := s.spans) (b := [x])).trans (or_congr_right ?_)
  simp

/-- The sweep that looks for a common part stops where the one that collects them finds the
first. -/
lemma sweepOverlaps_iff {as bs : List (Span α)} (ha : ∀ s ∈ as, s.Valid) (hb : ∀ s ∈ bs, s.Valid) :
    sweepOverlaps as bs = true ↔ sweepCommon as bs ≠ [] := by
  fun_induction sweepOverlaps as bs with
  | case1 a as b bs hov =>
    have hale := (ha a (by simp)).lo_le_hi
    have hble := (hb b (by simp)).lo_le_hi
    rw [overlaps_iff] at hov
    obtain ⟨c, hc⟩ := Option.ne_none_iff_exists'.mp fun hnone : a.intersection b = none => by
      rw [intersection_eq_none_iff] at hnone
      omega
    rw [sweepCommon_cons, hc]
    simp
  | case2 a as b bs hov hlt ih =>
    rw [sweepCommon_cons, intersection_eq_none_of_not_overlaps hov, if_pos hlt]
    exact ih (List.forall_mem_cons.mp ha).2 hb
  | case3 a as b bs hov hlt ih =>
    rw [sweepCommon_cons, intersection_eq_none_of_not_overlaps hov, if_neg hlt]
    exact ih ha (List.forall_mem_cons.mp hb).2
  | case4 as bs hends =>
    rw [sweepCommon]
    · simp
    · exact hends

/-- Two sets overlap where both cover a place. -/
theorem WellFormed.overlaps_iff (ha : a.WellFormed) (hb : b.WellFormed) :
    a.overlaps b = true ↔ ∃ n, a.Covers n ∧ b.Covers n := by
  obtain ⟨hvalid, hcommon⟩ := sweepCommon_spec ha.normal hb.normal
  unfold SpanSet.overlaps
  rw [Bool.and_eq_true, sweepOverlaps_iff ha.normal.valid hb.normal.valid, Span.overlaps_iff]
  constructor
  · rintro ⟨-, hne⟩
    obtain ⟨c, hc⟩ := List.exists_mem_of_ne_nil _ hne
    exact ⟨c.lo, (hcommon c.lo).mp ⟨c, hc, le_refl _, (hvalid c hc).lo_le_hi⟩⟩
  · rintro ⟨n, han, hbn⟩
    have hahull := ha.covers_hull han
    have hbhull := hb.covers_hull hbn
    obtain ⟨c, hc, -⟩ := (hcommon n).mpr ⟨han, hbn⟩
    unfold Span.Covers at hahull hbhull
    exact ⟨by omega, List.ne_nil_of_mem hc⟩

lemma WellFormed.overlaps_eq_false_iff (ha : a.WellFormed) (hb : b.WellFormed) :
    a.overlaps b = false ↔ ∀ n, a.Covers n → ¬b.Covers n := by
  rw [← Bool.not_eq_true, ha.overlaps_iff hb]
  push Not
  rfl

lemma someCovers_merge_union {a b : Option (SpanSet α)} (ha : ∀ s ∈ a, s.WellFormed)
    (hb : ∀ s ∈ b, s.WellFormed) (n : Int) :
    SomeCovers (Option.merge SpanSet.union a b) n ↔ SomeCovers a n ∨ SomeCovers b n := by
  cases a with
  | none => cases b <;> simp [Option.merge]
  | some s =>
    cases b with
    | none => simp [Option.merge]
    | some t =>
      simp only [Option.merge, someCovers_some]
      exact (ha s rfl).covers_union (hb t rfl) n

lemma wellFormed_merge_union {a b : Option (SpanSet α)} (ha : ∀ s ∈ a, s.WellFormed)
    (hb : ∀ s ∈ b, s.WellFormed) : ∀ s ∈ Option.merge SpanSet.union a b, s.WellFormed := by
  intro s hs
  cases a with
  | none => cases b <;> simp_all [Option.merge]
  | some t =>
    cases b with
    | none => simp_all [Option.merge]
    | some u =>
      obtain rfl := Option.some.inj hs
      exact (ha t rfl).union (hb u rfl)

/-- The union of spans that come one after the other, as far as it was seen before. -/
def unionFrom (seen : Option (SpanSet α)) (spans : List (Span α)) : Option (SpanSet α) :=
  spans.foldl (fun seen s => some (Extents.spanUnion seen s)) seen

lemma unionFrom_spec {spans : List (Span α)} (hvalid : ∀ s ∈ spans, s.Valid)
    {seen : Option (SpanSet α)} (hseen : ∀ s ∈ seen, s.WellFormed) :
    (∀ s ∈ unionFrom seen spans, s.WellFormed) ∧
      ∀ n, SomeCovers (unionFrom seen spans) n ↔ SomeCovers seen n ∨ AnyCovers spans n := by
  induction spans generalizing seen with
  | nil => exact ⟨hseen, fun n => by simp [unionFrom]⟩
  | cons x rest ih =>
    obtain ⟨hx, hrest⟩ := List.forall_mem_cons.mp hvalid
    have hnext : (Extents.spanUnion seen x).WellFormed ∧
        ∀ n, (Extents.spanUnion seen x).Covers n ↔ SomeCovers seen n ∨ x.Covers n := by
      cases seen with
      | none => exact ⟨wellFormed_ofSpan hx, fun n => by simp [Extents.spanUnion, covers_ofSpan]⟩
      | some s =>
        have hs := hseen s rfl
        refine ⟨hs.unionSpan hx, fun n => ?_⟩
        rw [someCovers_some]
        exact hs.covers_unionSpan hx n
    have hseen' : ∀ s ∈ some (Extents.spanUnion seen x), s.WellFormed :=
      fun s hs => Option.mem_some.mp hs ▸ hnext.1
    obtain ⟨hwf, hcovers⟩ := ih hrest hseen'
    refine ⟨hwf, fun n => (hcovers n).trans ?_⟩
    rw [someCovers_some, hnext.2, anyCovers_cons, or_assoc]

lemma unionFrom_perm {spans order : List (Span α)} (hvalid : ∀ s ∈ spans, s.Valid)
    (hperm : spans.Perm order) : unionFrom none order = ofSpans? spans := by
  have hvalid' : ∀ s ∈ order, s.Valid := fun s hs => hvalid s (hperm.mem_iff.mpr hs)
  have hnone : ∀ s ∈ (none : Option (SpanSet α)), s.WellFormed := by simp
  obtain ⟨hwf, hcovers⟩ := unionFrom_spec hvalid' hnone
  refine eq_of_someCovers hwf (fun s hs => wellFormed_of_mem_ofSpans? hvalid hs) fun n => ?_
  rw [hcovers, someCovers_ofSpans? hvalid]
  unfold AnyCovers
  simp only [someCovers_none, false_or, hperm.mem_iff]

/-- Span sets are canonical: what set algebra says of unions, common parts and differences holds of
them as equalities, and spans in any order make up one set. Nothing stands for the empty set. -/
theorem identities_are_equalities :
    (∀ a b c : SpanSet α, a.WellFormed → b.WellFormed → c.WellFormed →
      a.union b = b.union a ∧ a.union (b.union c) = (a.union b).union c ∧ a.union a = a ∧
        a.intersection b = b.intersection a ∧
        (∀ d ∈ a.minus b, d.overlaps b = false) ∧
        Option.merge SpanSet.union (a.minus b) (a.intersection b) = some a) ∧
    ∀ spans order : List (Span α), spans ≠ [] → (∀ s ∈ spans, s.Valid) → spans.Perm order →
      ∃ set, new spans = .ok set ∧
        order.foldl (fun seen s => some (Extents.spanUnion seen s)) none = some set := by
  refine ⟨fun a b c ha hb hc => ⟨?_, ?_, ?_, ?_, fun d hd => ?_, ?_⟩,
    fun spans order hne hvalid hperm => ?_⟩
  · refine (ha.union hb).eq_of_covers (hb.union ha) fun n => ?_
    rw [ha.covers_union hb, hb.covers_union ha, or_comm]
  · refine (ha.union (hb.union hc)).eq_of_covers ((ha.union hb).union hc) fun n => ?_
    rw [ha.covers_union (hb.union hc), hb.covers_union hc, (ha.union hb).covers_union hc,
      ha.covers_union hb, or_assoc]
  · refine (ha.union ha).eq_of_covers ha fun n => ?_
    rw [ha.covers_union ha, or_self]
  · refine eq_of_someCovers (fun s hs => ha.intersection hb hs)
      (fun s hs => hb.intersection ha hs) fun n => ?_
    rw [ha.someCovers_intersection hb, hb.someCovers_intersection ha, and_comm]
  · refine ((ha.minus hb hd).overlaps_eq_false_iff hb).mpr fun n hn => ?_
    exact ((ha.someCovers_minus hb n).mp ⟨d, hd, hn⟩).2
  · have hminus : ∀ s ∈ a.minus b, s.WellFormed := fun s hs => ha.minus hb hs
    have hcommon : ∀ s ∈ a.intersection b, s.WellFormed := fun s hs => ha.intersection hb hs
    refine eq_of_someCovers (wellFormed_merge_union hminus hcommon)
      (fun s hs => Option.mem_some.mp hs ▸ ha) fun n => ?_
    rw [someCovers_merge_union hminus hcommon, ha.someCovers_minus hb,
      ha.someCovers_intersection hb, someCovers_some, ← and_or_left]
    exact and_iff_left (Classical.em _).symm
  · obtain ⟨set, hset⟩ := Option.ne_none_iff_exists'.mp fun hnone =>
      hne (ofSpans?_eq_none_iff.mp hnone)
    refine ⟨set, reported_eq_ok.mpr (orRefuse_eq_ok.mpr hset), ?_⟩
    rw [← hset]
    exact unionFrom_perm hvalid hperm

/-- Two periods and the timestamp that both leave out are one period, whichever way they are put
together. -/
theorem timestamp_joins_periods :
    (ofSpan early).WellFormed ∧ (ofSpan late).WellFormed ∧ (ofSpan between).WellFormed ∧
      (ofSpan early).union ((ofSpan late).union (ofSpan between)) =
        ((ofSpan early).union (ofSpan late)).union (ofSpan between) ∧
      [early, late, between].Perm [late, early, between] ∧
      (∀ s ∈ [early, late, between], s.Valid) ∧
      ∃ set, new [early, late, between] = .ok set ∧
        [late, early, between].foldl (fun seen s => some (Extents.spanUnion seen s)) none =
          some set := by
  have hearly := wellFormed_ofSpan early_valid
  have hlate := wellFormed_ofSpan late_valid
  have hbetween := wellFormed_ofSpan between_valid
  have hvalid : ∀ s ∈ [early, late, between], s.Valid := List.forall_mem_cons.mpr
    ⟨early_valid, List.forall_mem_cons.mpr
      ⟨late_valid, List.forall_mem_singleton.mpr between_valid⟩⟩
  have hperm : [early, late, between].Perm [late, early, between] := List.Perm.swap _ _ _
  obtain ⟨hsets, hfold⟩ := identities_are_equalities (α := Timestamp)
  exact ⟨hearly, hlate, hbetween, (hsets _ _ _ hearly hlate hbetween).2.1, hperm, hvalid,
    hfold _ _ (List.cons_ne_nil _ _) hvalid hperm⟩

end SpanSet

end TemporalAlgebra
