import TemporalAlgebra.Proofs.Span.Building
import TemporalAlgebra.Proofs.SpanSet.Algebra

/-!
# Span sets as sets of values

Every operation on span sets returns a set in normal form that holds exactly the values that set
algebra asks for. A value lies in a set if its place does, so each operation only has to be known by
the places that its result covers.
-/
namespace TemporalAlgebra

open LawfulDomain

variable {α : Type} [SpanDomain α] [LawfulDomain α]

/-- One span lies before another one and a place is left between them: it comes first in the order
of bounds, ends before the other starts, and the two neither overlap nor touch. -/
def Span.Apart (a b : Span α) : Prop :=
  a.order b = .lt ∧ a.left b = true ∧ a.overlaps b = false ∧ a.adjacent b = false

lemma Span.Valid.apart_iff {a b : Span α} (ha : a.Valid) (hb : b.Valid) :
    a.Apart b ↔ a.hi + 1 < b.lo := by
  have hale := ha.lo_le_hi
  have hble := hb.lo_le_hi
  have horder : a.order b = .lt ↔ a.lo < b.lo ∨ a.lo = b.lo ∧ a.hi < b.hi := by
    rw [Span.order_eq_then, Ordering.then_eq_lt, compare_lt_iff_lt, compare_eq_iff_eq,
      compare_lt_iff_lt]
  have hleft : a.left b = true ↔ a.hi < b.lo := Bound.before_iff _ _
  unfold Span.Apart
  rw [horder, hleft, ← Bool.not_eq_true, ← Bool.not_eq_true, Span.overlaps_iff, Span.adjacent_iff]
  omega

namespace SpanSet

/-- The normal form in terms of the relations of spans. -/
theorem wellFormed_iff {s : SpanSet α} : s.WellFormed ↔
    (∀ x ∈ s.spans, x.Valid) ∧ s.spans.Pairwise Span.Apart ∧ s.hull = s.first.hull s.last := by
  have hpairwise : (∀ x ∈ s.spans, x.Valid) →
      (s.spans.Pairwise Span.Apart ↔ s.spans.Pairwise fun a b => a.hi + 1 < b.lo) :=
    fun hvalid => List.Pairwise.iff_of_mem fun ha hb => (hvalid _ ha).apart_iff (hvalid _ hb)
  constructor
  · intro h
    exact ⟨h.normal.valid, (hpairwise h.normal.valid).mpr h.normal.apart, h.hull_eq⟩
  · rintro ⟨hvalid, hapart, hhull⟩
    exact ⟨⟨hvalid, (hpairwise hvalid).mp hapart⟩, hhull⟩

/-- A set, if there is one, is in normal form and holds the values that satisfy `p`. -/
structure Holds (set : Option (SpanSet α)) (p : α → Prop) : Prop where
  wellFormed : ∀ s ∈ set, s.WellFormed
  contains_iff : ∀ v, (∃ s ∈ set, s.containsValue v = true) ↔ p v

lemma holds_of_someCovers {set : Option (SpanSet α)} {p : α → Prop}
    (hwf : ∀ s ∈ set, s.WellFormed) (h : ∀ v, SomeCovers set (3 * key v + 1) ↔ p v) :
    Holds set p := by
  refine ⟨hwf, fun v => Iff.trans ?_ (h v)⟩
  exact exists_congr fun s => and_congr_right fun hs => (hwf s hs).containsValue_iff v

lemma exists_containsValue_iff (spans : List (Span α)) (v : α) :
    (∃ s ∈ spans, s.containsValue v = true) ↔ Span.AnyCovers spans (3 * key v + 1) :=
  exists_congr fun s => and_congr_right fun _ => s.containsValue_iff v

lemma holds_ofSpans? {spans : List (Span α)} (hvalid : ∀ s ∈ spans, s.Valid) :
    Holds (ofSpans? spans) fun v => ∃ s ∈ spans, s.containsValue v = true := by
  refine holds_of_someCovers (fun s hs => wellFormed_of_mem_ofSpans? hvalid hs) fun v => ?_
  rw [someCovers_ofSpans? hvalid, exists_containsValue_iff]

lemma holds_ofSpans (first : Span α) (rest : List (Span α))
    (hvalid : ∀ s ∈ first :: rest, s.Valid) :
    Holds (some (ofSpans first rest)) fun v => ∃ s ∈ first :: rest, s.containsValue v = true := by
  rw [← ofSpans?_ofSpans]
  exact holds_ofSpans? hvalid

lemma exists_new {spans : List (Span α)} (hne : spans ≠ []) (hvalid : ∀ s ∈ spans, s.Valid) :
    ∃ set, new spans = .ok set ∧
      Holds (some set) fun v => ∃ s ∈ spans, s.containsValue v = true := by
  obtain ⟨set, hset⟩ := Option.ne_none_iff_exists'.mp fun hnone =>
    hne (ofSpans?_eq_none_iff.mp hnone)
  refine ⟨set, reported_eq_ok.mpr (orRefuse_eq_ok.mpr hset), ?_⟩
  rw [← hset]
  exact holds_ofSpans? hvalid

lemma WellFormed.exists_span_iff {s : SpanSet α} (h : s.WellFormed) (v : α) :
    (∃ x ∈ s.spans, x.containsValue v = true) ↔ s.containsValue v = true := by
  rw [exists_containsValue_iff, h.containsValue_iff]
  rfl

omit [LawfulDomain α] in
lemma exists_mem_append_iff (as bs : List (Span α)) (v : α) :
    (∃ x ∈ as ++ bs, x.containsValue v = true) ↔
      (∃ x ∈ as, x.containsValue v = true) ∨ ∃ x ∈ bs, x.containsValue v = true := by
  simp only [List.mem_append, or_and_right, exists_or]

variable {a b s : SpanSet α} {x y : Span α}

lemma WellFormed.holds_union (ha : a.WellFormed) (hb : b.WellFormed) :
    Holds (some (a.union b)) fun v => a.containsValue v = true ∨ b.containsValue v = true := by
  have hvalid : ∀ z ∈ a.spans ++ b.spans, z.Valid := fun z hz =>
    (List.mem_append.mp hz).elim (ha.normal.valid z) (hb.normal.valid z)
  obtain ⟨hwf, hcontains⟩ := holds_ofSpans a.first (a.rest ++ b.spans) hvalid
  refine ⟨hwf, fun v => (hcontains v).trans ?_⟩
  rw [← ha.exists_span_iff, ← hb.exists_span_iff]
  exact exists_mem_append_iff a.spans b.spans v

lemma WellFormed.holds_unionSpan (hs : s.WellFormed) (hx : x.Valid) :
    Holds (some (s.unionSpan x)) fun v => s.containsValue v = true ∨ x.containsValue v = true := by
  have hvalid : ∀ z ∈ s.spans ++ [x], z.Valid := fun z hz =>
    (List.mem_append.mp hz).elim (hs.normal.valid z) fun hz => List.mem_singleton.mp hz ▸ hx
  obtain ⟨hwf, hcontains⟩ := holds_ofSpans s.first (s.rest ++ [x]) hvalid
  refine ⟨hwf, fun v => (hcontains v).trans ?_⟩
  rw [← hs.exists_span_iff]
  refine (exists_mem_append_iff s.spans [x] v).trans (or_congr_right ?_)
  simp only [List.mem_singleton, exists_eq_left]

lemma WellFormed.holds_intersection (ha : a.WellFormed) (hb : b.WellFormed) :
    Holds (a.intersection b) fun v => a.containsValue v = true ∧ b.containsValue v = true := by
  refine holds_of_someCovers (fun c hc => ha.intersection hb hc) fun v => ?_
  rw [ha.someCovers_intersection hb, ha.containsValue_iff, hb.containsValue_iff]

lemma WellFormed.holds_minus (ha : a.WellFormed) (hb : b.WellFormed) :
    Holds (a.minus b) fun v => a.containsValue v = true ∧ ¬b.containsValue v = true := by
  refine holds_of_someCovers (fun c hc => ha.minus hb hc) fun v => ?_
  rw [ha.someCovers_minus hb, ha.containsValue_iff, hb.containsValue_iff]

lemma containsValue_ofSpan (hx : x.Valid) (v : α) :
    (ofSpan x).containsValue v = x.containsValue v := by
  rw [Bool.eq_iff_iff, (wellFormed_ofSpan hx).containsValue_iff, covers_ofSpan,
    Span.containsValue_iff]

lemma WellFormed.holds_minusValue [SuccessorDomain α] (hs : s.WellFormed) (w : α) :
    Holds (s.minusValue w) fun v => s.containsValue v = true ∧ v ≠ w := by
  unfold minusValue
  cases hp : Span.point w with
  | ok p =>
    obtain ⟨hvalid, hpoint⟩ := Span.point_spec hp
    obtain ⟨hwf, hcontains⟩ := hs.holds_minus (wellFormed_ofSpan hvalid)
    refine ⟨hwf, fun v => (hcontains v).trans ?_⟩
    rw [containsValue_ofSpan hvalid, hpoint]
  | error f =>
    refine ⟨fun c hc => Option.mem_some.mp hc ▸ hs, fun v => ?_⟩
    simp only [Option.mem_some, exists_eq_left']
    refine ⟨fun hv => ⟨hv, ?_⟩, fun hv => hv.1⟩
    rintro rfl
    obtain ⟨z, hz, hzv⟩ := (hs.exists_span_iff v).mpr hv
    rw [Span.point_failure hp (hs.normal.valid z hz)] at hzv
    exact Bool.false_ne_true hzv

end SpanSet

namespace Span

open SpanSet

variable {x y : Span α}

lemma Valid.holds_union (hx : x.Valid) (hy : y.Valid) :
    Holds (some (x.union y)) fun v => x.containsValue v = true ∨ y.containsValue v = true := by
  have hvalid : ∀ z ∈ [x, y], z.Valid := List.forall_mem_cons.mpr
    ⟨hx, List.forall_mem_singleton.mpr hy⟩
  obtain ⟨hwf, hcontains⟩ := holds_ofSpans x [y] hvalid
  refine ⟨hwf, fun v => (hcontains v).trans ?_⟩
  simp only [List.mem_cons, List.not_mem_nil, or_false, or_and_right, exists_or, exists_eq_left]

lemma Valid.normalForm_difference (hx : x.Valid) (hy : y.Valid) :
    NormalForm (x.difference y) := by
  refine ⟨fun c hc => hx.difference hy hc, ?_⟩
  have hle := hy.lo_le_hi
  unfold Span.difference
  split
  · obtain ⟨-, hbefore⟩ := lo_hi_before (a := x) (b := y)
    obtain ⟨hafter, -⟩ := lo_hi_after (a := x) (b := y)
    split <;> split <;> simp [List.pairwise_cons, hbefore, hafter]
    omega
  · exact List.pairwise_singleton _ _

lemma Valid.holds_minus (hx : x.Valid) (hy : y.Valid) :
    Holds (x.minus y) fun v => x.containsValue v = true ∧ ¬y.containsValue v = true := by
  have hnormal := hx.normalForm_difference hy
  have hcovers : ∀ v, AnyCovers (x.difference y) (3 * key v + 1) ↔
      x.containsValue v = true ∧ ¬y.containsValue v = true := fun v => by
    rw [anyCovers_difference, containsValue_iff, containsValue_iff]
  unfold minus
  cases hd : x.difference y with
  | nil =>
    rw [hd] at hcovers
    exact holds_of_someCovers (by simp) fun v => (iff_of_false (by simp) (anyCovers_nil _)).trans
      (hcovers v)
  | cons first rest =>
    rw [hd] at hnormal hcovers
    refine holds_of_someCovers (fun c hc => ?_) fun v => ?_
    · exact Option.mem_some.mp hc ▸ wellFormed_ofOrdered hnormal
    · rw [someCovers_some]
      exact hcovers v

lemma Valid.holds_minusValue [SuccessorDomain α] (hx : x.Valid) (w : α) :
    Holds (x.minusValue w) fun v => x.containsValue v = true ∧ v ≠ w := by
  unfold minusValue
  cases hp : point w with
  | ok p =>
    obtain ⟨hvalid, hpoint⟩ := point_spec hp
    obtain ⟨hwf, hcontains⟩ := hx.holds_minus hvalid
    refine ⟨hwf, fun v => (hcontains v).trans ?_⟩
    rw [hpoint]
  | error f =>
    refine ⟨fun c hc => Option.mem_some.mp hc ▸ wellFormed_ofSpan hx, fun v => ?_⟩
    simp only [Option.mem_some, exists_eq_left', containsValue_ofSpan hx]
    refine ⟨fun hv => ⟨hv, ?_⟩, fun hv => hv.1⟩
    rintro rfl
    rw [point_failure hp hx] at hv
    exact Bool.false_ne_true hv

end Span

namespace SpanSet

/-- Span sets are sets of values. Any spans make up a set in normal form that holds their values;
the normal form is a list of spans that rise, are apart and have the hull of the first and the last
one beside them. Unions, common parts and differences of sets, of spans and of values are in this
form again, where nothing left stands for the empty set, and hold the values of the set algebra. -/
theorem operations_are_set_algebra [SuccessorDomain α] :
    (∀ s : SpanSet α, s.WellFormed ↔ (∀ x ∈ s.spans, x.Valid) ∧ s.spans.Pairwise Span.Apart ∧
      s.hull = s.first.hull s.last) ∧
    (∀ spans : List (Span α), spans ≠ [] → (∀ x ∈ spans, x.Valid) → ∃ set, new spans = .ok set ∧
      Holds (some set) fun v => ∃ x ∈ spans, x.containsValue v = true) ∧
    (∀ a b : SpanSet α, a.WellFormed → b.WellFormed →
      Holds (some (a.union b)) (fun v => a.containsValue v = true ∨ b.containsValue v = true) ∧
      Holds (a.intersection b) (fun v => a.containsValue v = true ∧ b.containsValue v = true) ∧
      Holds (a.minus b) (fun v => a.containsValue v = true ∧ ¬b.containsValue v = true)) ∧
    (∀ a : SpanSet α, a.WellFormed →
      (∀ x : Span α, x.Valid → Holds (some (a.unionSpan x)) fun v =>
        a.containsValue v = true ∨ x.containsValue v = true) ∧
      ∀ w, Holds (a.minusValue w) fun v => a.containsValue v = true ∧ v ≠ w) ∧
    ∀ x : Span α, x.Valid →
      (∀ y : Span α, y.Valid →
        Holds (some (x.union y)) (fun v => x.containsValue v = true ∨ y.containsValue v = true) ∧
        Holds (x.minus y) (fun v => x.containsValue v = true ∧ ¬y.containsValue v = true)) ∧
      ∀ w, Holds (x.minusValue w) fun v => x.containsValue v = true ∧ v ≠ w := by
  refine ⟨fun s => wellFormed_iff, fun spans hne hvalid => exists_new hne hvalid,
    fun a b ha hb => ?_, fun a ha => ?_, fun x hx => ?_⟩
  · exact ⟨ha.holds_union hb, ha.holds_intersection hb, ha.holds_minus hb⟩
  · exact ⟨fun x hx => ha.holds_unionSpan hx, ha.holds_minusValue⟩
  · exact ⟨fun y hy => ⟨hx.holds_union hy, hx.holds_minus hy⟩, hx.holds_minusValue⟩

def early : Period := ⟨.nearest 1, .nearest 2, true, false⟩

def late : Period := ⟨.nearest 2, .nearest 3, false, true⟩

def between : Period := Period.singleton (.nearest 2)

/-- The integers from one on, but for the greatest one. -/
def positive : Span Integer := ⟨.clamp 1, .maximum, true, false⟩

lemma early_valid : early.Valid := ⟨by decide, fun h => absurd h Bool.false_ne_true⟩

lemma late_valid : late.Valid := ⟨by decide, fun h => absurd h Bool.false_ne_true⟩

lemma between_valid : between.Valid := ⟨by decide, fun h => absurd h Bool.false_ne_true⟩

lemma positive_valid : positive.Valid := ⟨by decide, fun _ => by decide⟩

/-- Two periods that leave out the timestamp between them are not joined, and the timestamp fills
the gap. The greatest integer has no span of its own and takes nothing away. -/
theorem gap_is_kept_and_filled :
    early.Valid ∧ late.Valid ∧ between.Valid ∧ positive.Valid ∧
      (∃ set, new [early, late] = .ok set ∧ set.WellFormed ∧
        ¬set.containsValue (.nearest 2) = true ∧
        (set.unionSpan between).containsValue (.nearest 2) = true) ∧
      (∀ v, ¬∃ c ∈ (ofSpan early).intersection (ofSpan late), c.containsValue v = true) ∧
      (∃ c ∈ positive.minusValue .maximum, c.containsValue (.clamp 1) = true) ∧
      Holds ((ofSpan positive).minusValue .maximum) fun v =>
        (ofSpan positive).containsValue v = true ∧ v ≠ .maximum := by
  obtain ⟨-, hnew, hsets, hset, -⟩ := operations_are_set_algebra (α := Timestamp)
  obtain ⟨-, -, -, hintegers, hspan⟩ := operations_are_set_algebra (α := Integer)
  refine ⟨early_valid, late_valid, between_valid, positive_valid, ?_, fun v => ?_, ?_, ?_⟩
  · obtain ⟨set, hok, hholds⟩ := hnew [early, late] (List.cons_ne_nil _ _)
      (List.forall_mem_cons.mpr ⟨early_valid, List.forall_mem_singleton.mpr late_valid⟩)
    have hwf : set.WellFormed := hholds.wellFormed set rfl
    have hfilled := ((hset set hwf).1 between between_valid).contains_iff (.nearest 2)
    have hgap := hholds.contains_iff (.nearest 2)
    simp only [Option.mem_some, exists_eq_left'] at hfilled hgap
    refine ⟨set, hok, hwf, ?_, hfilled.mpr (Or.inr (by decide))⟩
    rw [hgap]
    decide
  · have hcommon :=
      (hsets _ _ (wellFormed_ofSpan early_valid) (wellFormed_ofSpan late_valid)).2.1
    rw [hcommon.contains_iff, containsValue_ofSpan early_valid, containsValue_ofSpan late_valid]
    rintro ⟨he, hl⟩
    rw [Span.containsValue_iff] at he hl
    have hhi : early.hi = 6 := by decide
    have hlo : late.lo = 8 := by decide
    have := he.2
    have := hl.1
    omega
  · exact ((hspan positive positive_valid).2 .maximum).contains_iff (.clamp 1) |>.mpr
      ⟨by decide, by decide⟩
  · exact (hintegers _ (wellFormed_ofSpan positive_valid)).2 .maximum

end SpanSet

end TemporalAlgebra
