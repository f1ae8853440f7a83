import TemporalAlgebra.Proofs.SpanSet.Operations

/-!
# Relations of spans

Two spans overlap, touch, or leave a gap with the one or the other in front: each pair of spans is
in exactly one of these relations. They say what the operations return: the common part exists if
the spans overlap, the union is one span if they overlap or touch, and nothing is left of a span
without another one that contains it. All of them only compare the first and last places.
-/
namespace TemporalAlgebra.Span

open SpanSet

variable {α : Type} [SpanDomain α] [LawfulDomain α] {a b : Span α}

lemma left_iff : a.left b = true ↔ a.hi < b.lo := Bound.before_iff _ _

lemma right_iff : a.right b = true ↔ b.hi < a.lo := left_iff

lemma Valid.before_iff (ha : a.Valid) (hb : b.Valid) : a.before b = true ↔ a.hi + 1 < b.lo := by
  have hale := ha.lo_le_hi
  have hble := hb.lo_le_hi
  unfold before
  rw [Bool.and_eq_true, left_iff, Bool.not_eq_true', ← Bool.not_eq_true, adjacent_iff]
  omega

lemma Valid.after_iff (ha : a.Valid) (hb : b.Valid) : a.after b = true ↔ b.hi + 1 < a.lo :=
  hb.before_iff ha

lemma overlaps_comm (a b : Span α) : a.overlaps b = b.overlaps a := by
  rw [Bool.eq_iff_iff, overlaps_iff, overlaps_iff, and_comm]

omit [LawfulDomain α] in
lemma adjacent_comm (a b : Span α) : a.adjacent b = b.adjacent a := Bool.or_comm _ _

lemma Valid.contains_iff_covers (hb : b.Valid) :
    a.contains b = true ↔ ∀ n, b.Covers n → a.Covers n := by
  have hle := hb.lo_le_hi
  rw [contains_iff]
  unfold Covers
  constructor
  · intro h n hn
    omega
  · intro h
    have hfirst := h b.lo ⟨le_refl _, hle⟩
    have hlast := h b.hi ⟨hle, le_refl _⟩
    omega

lemma Valid.overlaps_iff_covers (ha : a.Valid) (hb : b.Valid) :
    a.overlaps b = true ↔ ∃ n, a.Covers n ∧ b.Covers n := by
  have hale := ha.lo_le_hi
  have hble := hb.lo_le_hi
  rw [overlaps_iff]
  unfold Covers
  constructor
  · intro h
    exact ⟨max a.lo b.lo, by omega, by omega⟩
  · rintro ⟨n, hna, hnb⟩
    omega

/-- The four ways in which two spans lie to each other, a gap on either side being two of them. -/
theorem Valid.exactly_one (ha : a.Valid) (hb : b.Valid) :
    [a.overlaps b, a.adjacent b, a.before b, a.after b].count true = 1 := by
  have hale := ha.lo_le_hi
  have hble := hb.lo_le_hi
  have hoverlaps := overlaps_iff a b
  have hadjacent := adjacent_iff a b
  have hbefore := ha.before_iff hb
  have hafter := ha.after_iff hb
  -- of the sixteen answers the four with one relation are left, the others contradict the order
  cases ho : a.overlaps b <;> cases hj : a.adjacent b <;> cases hl : a.before b <;>
    cases hr : a.after b <;>
    simp only [ho, hj, hl, hr, Bool.false_eq_true, false_iff, true_iff]
      at hoverlaps hadjacent hbefore hafter <;>
    first
    | rfl
    | omega

theorem Valid.exactly_one_of_sides (ha : a.Valid) (hb : b.Valid) :
    [a.left b, a.overlaps b, a.right b].count true = 1 := by
  have hale := ha.lo_le_hi
  have hble := hb.lo_le_hi
  have hoverlaps := overlaps_iff a b
  have hleft := left_iff (a := a) (b := b)
  have hright := right_iff (a := a) (b := b)
  cases hl : a.left b <;> cases ho : a.overlaps b <;> cases hr : a.right b <;>
    simp only [ho, hl, hr, Bool.false_eq_true, false_iff, true_iff] at hoverlaps hleft hright <;>
    first
    | rfl
    | omega

theorem Valid.overlaps_iff_intersection (ha : a.Valid) (hb : b.Valid) :
    a.overlaps b = true ↔ (a.intersection b).isSome := by
  have hale := ha.lo_le_hi
  have hble := hb.lo_le_hi
  rw [Option.isSome_iff_ne_none, ne_eq, intersection_eq_none_iff, overlaps_iff]
  omega

lemma Valid.wellFormed_union (ha : a.Valid) (hb : b.Valid) :
    (a.union b).WellFormed ∧ ∀ n, (a.union b).Covers n ↔ a.Covers n ∨ b.Covers n := by
  have hvalid : ∀ s ∈ [a, b], s.Valid :=
    List.forall_mem_cons.mpr ⟨ha, List.forall_mem_singleton.mpr hb⟩
  obtain ⟨hwf, hcovers⟩ := ofSpans?_spec hvalid (ofSpans?_ofSpans a [b])
  exact ⟨hwf, fun n => (hcovers n).trans (by simp)⟩

/-- The union of spans that overlap or touch is their hull, which leaves no place out. -/
theorem Valid.union_eq_hull (ha : a.Valid) (hb : b.Valid)
    (h : a.overlaps b = true ∨ a.adjacent b = true) : a.union b = ofSpan (a.hull b) := by
  have hale := ha.lo_le_hi
  have hble := hb.lo_le_hi
  obtain ⟨hwf, hcovers⟩ := ha.wellFormed_union hb
  rw [overlaps_iff, adjacent_iff] at h
  refine hwf.eq_of_covers (wellFormed_ofSpan (ha.hull hb)) fun n => ?_
  rw [hcovers, covers_ofSpan]
  unfold Covers
  rw [lo_hull, hi_hull]
  omega

/-- A union is one span if there is no gap: one span would cover the place right behind the first
of the two, and neither of them does. -/
theorem Valid.union_single_iff (ha : a.Valid) (hb : b.Valid) :
    (a.union b).spans.length = 1 ↔ a.overlaps b = true ∨ a.adjacent b = true := by
  constructor
  · intro hlength
    have hale := ha.lo_le_hi
    have hble := hb.lo_le_hi
    obtain ⟨-, hcovers⟩ := ha.wellFormed_union hb
    obtain ⟨c, hc⟩ := List.length_eq_one_iff.mp hlength
    have hsingle : ∀ n, c.Covers n ↔ a.Covers n ∨ b.Covers n := by
      intro n
      rw [← hcovers]
      unfold SpanSet.Covers
      rw [hc]
      simp
    unfold Covers at hsingle
    have halo := hsingle a.lo
    have hblo := hsingle b.lo
    have hbehindA := hsingle (a.hi + 1)
    have hbehindB := hsingle (b.hi + 1)
    rw [overlaps_iff, adjacent_iff]
    omega
  · intro h
    rw [ha.union_eq_hull hb h]
    rfl

theorem Valid.contains_iff_intersection (hb : b.Valid) :
    a.contains b = true ↔ a.intersection b = some b := by
  have hble := hb.lo_le_hi
  rw [contains_iff, intersection_eq_some_iff]
  omega

theorem contains_iff_hull : a.contains b = true ↔ a.hull b = a := by
  rw [contains_iff]
  constructor
  · intro h
    refine eq_of_lo_hi ?_ ?_
    · rw [lo_hull]
      omega
    · rw [hi_hull]
      omega
  · intro h
    have hlo := lo_hull a b
    have hhi := hi_hull a b
    rw [h] at hlo hhi
    omega

omit [LawfulDomain α] in
lemma minus_eq_none_iff : a.minus b = none ↔ a.difference b = [] := by
  unfold minus
  split
  · rename_i h
    exact iff_of_true rfl h
  · rename_i h
    rw [h]
    simp

theorem Valid.contains_iff_minus (hb : b.Valid) :
    a.contains b = true ↔ b.minus a = none := by
  have hble := hb.lo_le_hi
  have hleft := anyCovers_difference (a := b) (b := a)
  unfold Covers at hleft
  rw [contains_iff, minus_eq_none_iff]
  constructor
  · intro h
    refine List.eq_nil_iff_forall_not_mem.mpr fun c hc => ?_
    rcases mem_difference_iff.mp hc with ⟨-, hpart⟩ | ⟨hapart, -⟩ <;> omega
  · intro h
    rw [h] at hleft
    have hfirst := (hleft b.lo).not.mp (anyCovers_nil _)
    have hlast := (hleft b.hi).not.mp (anyCovers_nil _)
    omega

/-- The relations of spans are exhaustive and exclusive, and they agree with the operations: which
spans overlap says where there is a common part, which overlap or touch where the union is a single
span, and which contain each other what the common part, the hull and the difference are. -/
theorem relations_are_consistent (ha : a.Valid) (hb : b.Valid) :
    [a.overlaps b, a.adjacent b, a.before b, a.after b].count true = 1 ∧
      [a.left b, a.overlaps b, a.right b].count true = 1 ∧
      a.overlaps b = b.overlaps a ∧ a.adjacent b = b.adjacent a ∧
      a.before b = b.after a ∧ a.left b = b.right a ∧
      (a.overlaps b = true ↔ (a.intersection b).isSome) ∧
      ((a.union b).spans.length = 1 ↔ a.overlaps b = true ∨ a.adjacent b = true) ∧
      ((a.union b).spans.length = 1 → a.union b = ofSpan (a.hull b)) ∧
      (a.contains b = true ↔ a.intersection b = some b) ∧
      (a.contains b = true ↔ a.hull b = a) ∧
      (a.contains b = true ↔ b.minus a = none) :=
  ⟨ha.exactly_one hb, ha.exactly_one_of_sides hb, overlaps_comm a b, adjacent_comm a b, rfl, rfl,
    ha.overlaps_iff_intersection hb, ha.union_single_iff hb,
    fun h => ha.union_eq_hull hb ((ha.union_single_iff hb).mp h),
    hb.contains_iff_intersection, contains_iff_hull, hb.contains_iff_minus⟩

/-- A period without its last microsecond and that microsecond are joined; what follows leaves a
gap to the former. -/
theorem early_touches_between_before_late :
    (early.union between).spans.length = 1 ∧ early.union between = ofSpan (early.hull between) ∧
      [early.left late, early.overlaps late, early.right late].count true = 1 ∧
      early.before late = true ∧ ¬(early.union late).spans.length = 1 := by
  obtain ⟨-, -, -, -, -, -, -, hsingle, hunion, -⟩ :=
    relations_are_consistent early_valid between_valid
  have hjoined := hsingle.mpr (Or.inr (by decide))
  obtain ⟨-, hsides, -, -, -, -, -, hsingle', -⟩ :=
    relations_are_consistent early_valid late_valid
  refine ⟨hjoined, hunion hjoined, hsides, by decide, fun h => ?_⟩
  exact absurd (hsingle'.mp h) (by decide)

end TemporalAlgebra.Span
