import TemporalAlgebra.Proofs.Partition
import TemporalAlgebra.Proofs.Span.Relations
import TemporalAlgebra.Proofs.SpanSet.Identities

/-!
# Predicates of span sets

Whether a set contains or overlaps something is decided by few of its spans: by the first one that
reaches a bound, or by those that a sweep meets before it leaves them behind. In normal form the
other spans have no say, so the answer is that of all spans together, or of all pairs of spans.
-/
namespace TemporalAlgebra

open TemporalAlgebra.Span

variable {α : Type} [SpanDomain α] [LawfulDomain α]

namespace Span

lemma NormalForm.eq_or_apart {spans : List (Span α)} (h : NormalForm spans) {x y : Span α}
    (hx : x ∈ spans) (hy : y ∈ spans) : x = y ∨ x.hi + 1 < y.lo ∨ y.hi + 1 < x.lo := by
  induction spans with
  | nil => simp at hx
  | cons s rest ih =>
    rcases List.mem_cons.mp hx with rfl | hxrest
    · rcases List.mem_cons.mp hy with rfl | hyrest
      · exact Or.inl rfl
      · exact Or.inr (Or.inl (List.rel_of_pairwise_cons h.apart hyrest))
    · rcases List.mem_cons.mp hy with rfl | hyrest
      · exact Or.inr (Or.inr (List.rel_of_pairwise_cons h.apart hxrest))
      · exact ih h.tail hxrest hyrest

lemma NormalForm.exists_around {spans : List (Span α)} (h : NormalForm spans) {lo hi : Int}
    (hle : lo ≤ hi) (hcovers : ∀ n, lo ≤ n → n ≤ hi → AnyCovers spans n) :
    ∃ x ∈ spans, x.lo ≤ lo ∧ hi ≤ x.hi := by
  obtain ⟨x, hx, hxlo, hxhi⟩ := hcovers lo le_rfl hle
  refine ⟨x, hx, hxlo, ?_⟩
  by_contra hshort
  -- the place right behind `x` would lie in another span, and that one is apart from `x`
  obtain ⟨y, hy, hylo, hyhi⟩ := hcovers (x.hi + 1) (by omega) (by omega)
  rcases h.eq_or_apart hx hy with rfl | hapart | hapart <;> omega

lemma not_before_iff (x : Span α) (b : Bound α) :
    (!x.upperBound.before b) = true ↔ b.place ≤ x.hi := by
  rw [Bool.not_eq_true', ← Bool.not_eq_true, Bound.before_iff, not_lt]
  rfl

end Span

namespace SpanSet

/-- All spans that end before a bound stand in front of all that reach it, so that a search by
halves finds the first one of these. -/
lemma WellFormed.reaching_eq_filter {s : SpanSet α} (h : s.WellFormed) (b : Bound α) :
    s.reaching b = s.spans.filter fun x => !x.upperBound.before b := by
  refine (takeWhile_eq_filter (h.normal.apart.imp_of_mem fun {x y} _ hy hapart hbefore => ?_)).2
  rw [Bound.before_iff] at hbefore ⊢
  have hle := (h.normal.valid y hy).lo_le_hi
  change y.hi < b.place at hbefore
  change x.hi < b.place
  omega

/-- Only the first span that reaches a bound is looked at. This finds a span with a property if
spans that do not reach the bound do not have it, and if no span behind the first one has it
alone. -/
lemma WellFormed.any_reaching_iff {s : SpanSet α} (h : s.WellFormed) {b : Bound α}
    {p : Span α → Bool} (hreaches : ∀ y, p y = true → b.place ≤ y.hi)
    (hfirst : ∀ x y : Span α, x.Valid → b.place ≤ x.hi → x.hi + 1 < y.lo → p y = true →
      p x = true) :
    (s.reaching b).head?.any p = true ↔ ∃ y ∈ s.spans, p y = true := by
  rw [h.reaching_eq_filter, List.head?_filter, Option.any_eq_true]
  constructor
  · rintro ⟨y, hfound, hy⟩
    exact ⟨y, List.mem_of_find?_eq_some hfound, hy⟩
  · rintro ⟨y, hmem, hy⟩
    have hsome : (s.spans.find? fun x => !x.upperBound.before b).isSome = true :=
      List.find?_isSome.mpr ⟨y, hmem, (not_before_iff y b).mpr (hreaches y hy)⟩
    obtain ⟨x, hfound⟩ := Option.isSome_iff_exists.mp hsome
    refine ⟨x, hfound, ?_⟩
    obtain ⟨hx, front, rest, hspans, hfront⟩ := List.find?_eq_some_iff_append.mp hfound
    have hnormal := h.normal
    rw [hspans] at hmem hnormal
    rcases List.mem_append.mp hmem with hmem | hmem
    · -- the spans in front end before the bound
      have hended := hfront y hmem
      rw [(not_before_iff y b).mpr (hreaches y hy)] at hended
      exact absurd hended (by decide)
    · have hback := hnormal.sublist (List.sublist_append_right front (x :: rest))
      rcases List.mem_cons.mp hmem with rfl | hmem
      · exact hy
      · exact hfirst x y hback.head ((not_before_iff x b).mp hx)
          (List.rel_of_pairwise_cons hback.apart hmem) hy

variable {a b s : SpanSet α} {x : Span α}

theorem WellFormed.containsSpan_iff (hs : s.WellFormed) (hx : x.Valid) :
    s.containsSpan x = true ↔ ∃ y ∈ s.spans, y.contains x = true := by
  have hle := hx.lo_le_hi
  have hplace : x.lowerBound.place = x.lo := rfl
  refine hs.any_reaching_iff (fun y hy => ?_) fun y z _ hyle hapart hz => ?_
  · rw [Span.contains_iff] at hy
    omega
  · -- a span that contains `x` is the first one to reach its lower bound
    rw [Span.contains_iff] at hz
    omega

theorem WellFormed.overlapsSpan_iff (hs : s.WellFormed) :
    s.overlapsSpan x = true ↔ ∃ y ∈ s.spans, y.overlaps x = true := by
  have hplace : x.lowerBound.place = x.lo := rfl
  refine hs.any_reaching_iff (fun y hy => ?_) fun y z hy hyle hapart hz => ?_
  · rw [Span.overlaps_iff] at hy
    omega
  · -- a span that lies in front of one that overlaps `x` and reaches `x` overlaps it too
    have hyle' := hy.lo_le_hi
    rw [Span.overlaps_iff] at hz ⊢
    omega

theorem WellFormed.overlaps_iff_exists (ha : a.WellFormed) (hb : b.WellFormed) :
    a.overlaps b = true ↔ ∃ x ∈ a.spans, ∃ y ∈ b.spans, x.overlaps y = true := by
  rw [ha.overlaps_iff hb]
  constructor
  · rintro ⟨n, ⟨x, hx, hxn⟩, y, hy, hyn⟩
    have hvalid := hb.normal.valid y hy
    exact ⟨x, hx, y, hy, ((ha.normal.valid x hx).overlaps_iff_covers hvalid).mpr ⟨n, hxn, hyn⟩⟩
  · rintro ⟨x, hx, y, hy, hoverlaps⟩
    have hvalid := hb.normal.valid y hy
    obtain ⟨n, hxn, hyn⟩ := ((ha.normal.valid x hx).overlaps_iff_covers hvalid).mp hoverlaps
    exact ⟨n, ⟨x, hx, hxn⟩, y, hy, hyn⟩

lemma WellFormed.forall_exists_contains_iff (ha : a.WellFormed) (hb : b.WellFormed) :
    (∀ y ∈ b.spans, ∃ x ∈ a.spans, x.contains y = true) ↔ ∀ n, b.Covers n → a.Covers n := by
  constructor
  · rintro h n ⟨y, hy, hlo, hhi⟩
    obtain ⟨x, hx, hcontains⟩ := h y hy
    rw [Span.contains_iff] at hcontains
    exact ⟨x, hx, by omega, by omega⟩
  · intro h y hy
    obtain ⟨x, hx, hlo, hhi⟩ := ha.normal.exists_around (hb.normal.valid y hy).lo_le_hi
      fun n hlo hhi => h n ⟨y, hy, hlo, hhi⟩
    exact ⟨x, hx, (Span.contains_iff _ _).mpr ⟨hlo, hhi⟩⟩

lemma WellFormed.covers_hull_ends (hs : s.WellFormed) :
    s.Covers s.hull.lo ∧ s.Covers s.hull.hi := by
  have hfirst : s.first ∈ s.spans := List.mem_cons_self
  have hlast : s.last ∈ s.spans := List.getLastD_mem_cons
  have hfirstLe := (hs.normal.valid _ hfirst).lo_le_hi
  have hlastLe := (hs.normal.valid _ hlast).lo_le_hi
  have hlo := lo_hull s.first s.last
  have hhi := hi_hull s.first s.last
  rw [← hs.hull_eq] at hlo hhi
  constructor
  · rcases le_total s.first.lo s.last.lo with h | h
    · exact ⟨s.first, hfirst, by omega, by omega⟩
    · exact ⟨s.last, hlast, by omega, by omega⟩
  · rcases le_total s.first.hi s.last.hi with h | h
    · exact ⟨s.last, hlast, by omega, by omega⟩
    · exact ⟨s.first, hfirst, by omega, by omega⟩

/-- The comparison of the hulls that goes before does not reject anything. -/
theorem WellFormed.contains_iff (ha : a.WellFormed) (hb : b.WellFormed) :
    a.contains b = true ↔ ∀ y ∈ b.spans, ∃ x ∈ a.spans, x.contains y = true := by
  unfold SpanSet.contains
  rw [Bool.and_eq_true, List.all_eq_true]
  constructor
  · rintro ⟨-, hall⟩ y hy
    exact (ha.containsSpan_iff (hb.normal.valid y hy)).mp (hall y hy)
  · intro hall
    have hcovers := (ha.forall_exists_contains_iff hb).mp hall
    obtain ⟨hlo, hhi⟩ := hb.covers_hull_ends
    refine ⟨(Span.contains_iff _ _).mpr ?_, fun y hy => ?_⟩
    · exact ⟨(ha.covers_hull (hcovers _ hlo)).1, (ha.covers_hull (hcovers _ hhi)).2⟩
    · exact (ha.containsSpan_iff (hb.normal.valid y hy)).mpr (hall y hy)

lemma eq_none_iff {set : Option (SpanSet α)} (h : ∀ s ∈ set, s.WellFormed) :
    set = none ↔ ∀ n, ¬SomeCovers set n := by
  constructor
  · rintro rfl n
    exact someCovers_none n
  · intro hempty
    refine eq_of_someCovers h (by simp) fun n => ?_
    exact iff_of_false (hempty n) (someCovers_none n)

theorem WellFormed.contains_iff_minus (ha : a.WellFormed) (hb : b.WellFormed) :
    a.contains b = true ↔ b.minus a = none := by
  rw [ha.contains_iff hb, ha.forall_exists_contains_iff hb,
    eq_none_iff fun s hs => hb.minus ha hs]
  refine forall_congr' fun n => ?_
  rw [hb.someCovers_minus ha, not_and, not_not]

theorem WellFormed.overlaps_iff_intersection (ha : a.WellFormed) (hb : b.WellFormed) :
    a.overlaps b = true ↔ (a.intersection b).isSome := by
  rw [ha.overlaps_iff hb, Option.isSome_iff_ne_none, ne_eq,
    eq_none_iff fun s hs => ha.intersection hb hs, not_forall]
  refine exists_congr fun n => ?_
  rw [ha.someCovers_intersection hb, not_not]

/-- The predicates of span sets mean what they say of the spans: a set contains a value, contains a
span or overlaps one if some span of it does, two sets overlap if some of their spans do, and a set
contains another one if each span of this lies in a span of the former. The last two agree with the
common part and the difference. What a search by halves needs holds of every bound. -/
theorem predicates_agree_with_spans (ha : a.WellFormed) (hb : b.WellFormed) :
    (∀ bound, a.reaching bound = a.spans.filter fun x => !x.upperBound.before bound) ∧
      (∀ v, a.containsValue v = true ↔ ∃ x ∈ a.spans, x.containsValue v = true) ∧
      (∀ x : Span α, x.Valid →
        (a.containsSpan x = true ↔ ∃ y ∈ a.spans, y.contains x = true)) ∧
      (∀ x : Span α, a.overlapsSpan x = true ↔ ∃ y ∈ a.spans, y.overlaps x = true) ∧
      (a.overlaps b = true ↔ ∃ x ∈ a.spans, ∃ y ∈ b.spans, x.overlaps y = true) ∧
      (a.contains b = true ↔ ∀ y ∈ b.spans, ∃ x ∈ a.spans, x.contains y = true) ∧
      (a.contains b = true ↔ b.minus a = none) ∧
      (a.overlaps b = true ↔ (a.intersection b).isSome) :=
  ⟨ha.reaching_eq_filter, fun v => (ha.exists_span_iff v).symm, fun _ hx => ha.containsSpan_iff hx,
    fun _ => ha.overlapsSpan_iff, ha.overlaps_iff_exists hb, ha.contains_iff hb,
    ha.contains_iff_minus hb, ha.overlaps_iff_intersection hb⟩

def gapped : PeriodSet := ofOrdered early [late]

lemma gapped_wellFormed : gapped.WellFormed := by
  refine wellFormed_ofOrdered ⟨?_, ?_⟩
  · exact List.forall_mem_cons.mpr ⟨early_valid, List.forall_mem_singleton.mpr late_valid⟩
  · exact List.pairwise_pair.mpr (by decide)

/-- The hull of the two periods holds the timestamp between them, the set does not. What ends at the
same bound as a span of the set lies within it. -/
theorem gap_is_seen :
    gapped.WellFormed ∧ (ofSpan between).WellFormed ∧ late.Valid ∧
      gapped.hull.contains between = true ∧ ¬gapped.containsValue (.nearest 2) = true ∧
      ¬gapped.overlapsSpan between = true ∧ ¬gapped.overlaps (ofSpan between) = true ∧
      gapped.containsSpan late = true ∧ gapped.contains (ofSpan late) = true ∧
      (ofSpan late).minus gapped = none ∧ (gapped.intersection (ofSpan late)).isSome := by
  have hgapped := gapped_wellFormed
  have hbetween := wellFormed_ofSpan between_valid
  have hlate := wellFormed_ofSpan late_valid
  obtain ⟨-, hvalue, hcontained, hmet, hoverlaps, -⟩ :=
    predicates_agree_with_spans hgapped hbetween
  obtain ⟨-, -, -, -, hoverlaps', hcontains, hminus, hcommon⟩ :=
    predicates_agree_with_spans hgapped hlate
  have hwithin : gapped.contains (ofSpan late) = true := hcontains.mpr (by decide)
  refine ⟨hgapped, hbetween, late_valid, by decide, ?_, ?_, ?_, ?_, hwithin, hminus.mp hwithin, ?_⟩
  · exact (hvalue _).not.mpr (by decide)
  · exact (hmet _).not.mpr (by decide)
  · exact hoverlaps.not.mpr (by decide)
  · exact (hcontained late late_valid).mpr (by decide)
  · exact hcommon.mp (hoverlaps'.mpr (by decide))

end SpanSet

end TemporalAlgebra
