import Mathlib.Data.Int.Order.Basic
import Mathlib.Data.Nat.Basic
import Mathlib.Tactic.Common
import TemporalAlgebra.Span.Relation

/-!
# Positions

A bound is a place on the integer line. Every element of a domain takes three places: just below
it, at it, and just above it. A span is then an interval of places, and whether spans overlap,
touch or contain each other is a matter of comparing integers. The places between two neighbouring
timestamps are still there, so that an open period between them is not empty.
-/
namespace TemporalAlgebra

/-- A domain whose order is that of the integers that its elements stand for. -/
class LawfulDomain (α : Type) [SpanDomain α] where
  key : α → Int
  key_injective : ∀ {a b : α}, key a = key b → a = b
  order_eq : ∀ a b : α, SpanDomain.order a b = compare (key a) (key b)

open LawfulDomain

instance : LawfulDomain Integer where
  key a := a.val
  key_injective := Signed.ext
  order_eq _ _ := rfl

instance : LawfulDomain Bigint where
  key a := a.val
  key_injective := Signed.ext
  order_eq _ _ := rfl

instance : LawfulDomain Date where
  key a := a.days
  key_injective {a b} h := by
    cases a
    cases b
    exact congrArg Date.mk (Signed.ext h)
  order_eq _ _ := rfl

instance : LawfulDomain Timestamp where
  key a := a.micros
  key_injective {a b} h := by
    cases a
    cases b
    exact congrArg Timestamp.mk (Signed.ext h)
  order_eq _ _ := rfl

variable {α : Type} [SpanDomain α] [LawfulDomain α]

namespace Bound

/-- Place of a bound on the integer line. -/
def place (b : Bound α) : Int := 3 * key b.value + b.side.rank

lemma order_eq_compare (a b : Bound α) : a.order b = compare a.place b.place := by
  have hrank : ∀ s : Side, s.rank ≤ 2 := fun s => by cases s <;> decide
  have ha := hrank a.side
  have hb := hrank b.side
  unfold order
  rw [LawfulDomain.order_eq]
  rcases lt_trichotomy (key a.value) (key b.value) with h | h | h
  · have hlt : a.place < b.place := by unfold place; omega
    rw [compare_lt_iff_lt.mpr h, compare_lt_iff_lt.mpr hlt]
    rfl
  · rw [compare_eq_iff_eq.mpr h, Ordering.eq_then]
    rcases lt_trichotomy a.side.rank b.side.rank with hr | hr | hr
    · have hlt : a.place < b.place := by unfold place; omega
      rw [compare_lt_iff_lt.mpr hr, compare_lt_iff_lt.mpr hlt]
    · have heq : a.place = b.place := by unfold place; omega
      rw [compare_eq_iff_eq.mpr hr, compare_eq_iff_eq.mpr heq]
    · have hgt : b.place < a.place := by unfold place; omega
      rw [compare_gt_iff_gt.mpr hr, compare_gt_iff_gt.mpr hgt]
  · have hgt : b.place < a.place := by unfold place; omega
    rw [compare_gt_iff_gt.mpr h, compare_gt_iff_gt.mpr hgt]
    rfl

@[simp] lemma before_iff (a b : Bound α) : a.before b = true ↔ a.place < b.place := by
  unfold before
  rw [order_eq_compare, beq_iff_eq, compare_lt_iff_lt]

@[simp] lemma upTo_iff (a b : Bound α) : a.upTo b = true ↔ a.place ≤ b.place := by
  unfold upTo
  rw [order_eq_compare, bne_iff_ne, ne_eq, compare_gt_iff_gt, not_lt]

lemma place_first (a b : Bound α) : (a.first b).place = min a.place b.place := by
  unfold first
  split <;> rename_i h <;> rw [before_iff] at h <;> omega

lemma place_last (a b : Bound α) : (a.last b).place = max a.place b.place := by
  unfold last
  split <;> rename_i h <;> rw [before_iff] at h <;> omega

lemma place_point (v : α) : (point v).place = 3 * key v + 1 := rfl

lemma place_lower (v : α) (inc : Bool) :
    (lower v inc).place = 3 * key v + if inc then 1 else 2 := by
  cases inc <;> rfl

lemma place_upper (v : α) (inc : Bool) :
    (upper v inc).place = 3 * key v + if inc then 1 else 0 := by
  cases inc <;> rfl

end Bound

namespace Span

def lo (s : Span α) : Int := s.lowerBound.place

def hi (s : Span α) : Int := s.upperBound.place

lemma lo_eq (s : Span α) : s.lo = 3 * key s.lower + if s.lowerInc then 1 else 2 :=
  Bound.place_lower _ _

lemma hi_eq (s : Span α) : s.hi = 3 * key s.upper + if s.upperInc then 1 else 0 :=
  Bound.place_upper _ _

lemma lo_emod (s : Span α) : s.lo % 3 = 1 ∨ s.lo % 3 = 2 := by
  rw [lo_eq]
  split <;> omega

lemma hi_emod (s : Span α) : s.hi % 3 = 0 ∨ s.hi % 3 = 1 := by
  rw [hi_eq]
  split <;> omega

def Covers (s : Span α) (n : Int) : Prop := s.lo ≤ n ∧ n ≤ s.hi

/-- A span that is not empty; one of a discrete domain has the form `[lower, upper)`. -/
structure Valid (s : Span α) : Prop where
  lo_le_hi : s.lo ≤ s.hi
  canonical : SpanDomain.discrete α = true → s.lo % 3 = 1 ∧ s.hi % 3 = 0

lemma eq_of_lo_hi {s t : Span α} (hlo : s.lo = t.lo) (hhi : s.hi = t.hi) : s = t := by
  obtain ⟨l, u, li, ui⟩ := s
  obtain ⟨l', u', li', ui'⟩ := t
  rw [lo_eq, lo_eq] at hlo
  rw [hi_eq, hi_eq] at hhi
  dsimp only at hlo hhi
  have hl : key l = key l' := by split at hlo <;> split at hlo <;> omega
  have hu : key u = key u' := by split at hhi <;> split at hhi <;> omega
  have hli : li = li' := by
    cases li <;> cases li' <;> simp only [Bool.false_eq_true, if_true, if_false] at hlo <;>
      first | rfl | omega
  have hui : ui = ui' := by
    cases ui <;> cases ui' <;> simp only [Bool.false_eq_true, if_true, if_false] at hhi <;>
      first | rfl | omega
  rw [LawfulDomain.key_injective hl, LawfulDomain.key_injective hu, hli, hui]

lemma eq_iff_lo_hi {s t : Span α} : s = t ↔ s.lo = t.lo ∧ s.hi = t.hi :=
  ⟨fun h => h ▸ ⟨rfl, rfl⟩, fun h => eq_of_lo_hi h.1 h.2⟩

/-- The span between two bounds reaches from the one to the other, if these are of the kind of
their ends. -/
lemma lo_ofBounds {l : Bound α} (u : Bound α) (h : l.place % 3 ≠ 0) :
    (ofBounds l u).lo = l.place := by
  obtain ⟨v, s⟩ := l
  rw [lo_eq]
  cases s with
  | below => simp [Bound.place, Side.rank] at h
  | exact => rfl
  | above => rfl

lemma hi_ofBounds (l : Bound α) {u : Bound α} (h : u.place % 3 ≠ 2) :
    (ofBounds l u).hi = u.place := by
  obtain ⟨v, s⟩ := u
  rw [hi_eq]
  cases s with
  | below => rfl
  | exact => rfl
  | above => simp [Bound.place, Side.rank] at h

lemma containsValue_iff (s : Span α) (v : α) :
    s.containsValue v = true ↔ s.Covers (3 * key v + 1) := by
  unfold containsValue Covers
  rw [Bool.and_eq_true, Bound.upTo_iff, Bound.upTo_iff, Bound.place_point]
  rfl

@[simp] lemma contains_iff (a b : Span α) : a.contains b = true ↔ a.lo ≤ b.lo ∧ b.hi ≤ a.hi := by
  unfold contains
  rw [Bool.and_eq_true, Bound.upTo_iff, Bound.upTo_iff]
  rfl

@[simp] lemma overlaps_iff (a b : Span α) : a.overlaps b = true ↔ a.lo ≤ b.hi ∧ b.lo ≤ a.hi := by
  unfold overlaps
  rw [Bool.and_eq_true, Bound.upTo_iff, Bound.upTo_iff]
  rfl

lemma touches_iff (a b : Span α) : a.touches b = true ↔ a.hi + 1 = b.lo := by
  unfold touches
  rw [hi_eq, lo_eq, Bool.and_eq_true, beq_iff_eq, LawfulDomain.order_eq, compare_eq_iff_eq,
    bne_iff_ne]
  cases a.upperInc <;> cases b.lowerInc <;>
    simp only [ne_eq, not_true, not_false_iff, and_true, and_false, reduceCtorEq, if_true,
      Bool.false_eq_true, if_false, false_iff] <;> omega

@[simp] lemma adjacent_iff (a b : Span α) :
    a.adjacent b = true ↔ a.hi + 1 = b.lo ∨ b.hi + 1 = a.lo := by
  unfold adjacent
  rw [Bool.or_eq_true, touches_iff, touches_iff]

lemma order_eq_then (a b : Span α) :
    a.order b = (compare a.lo b.lo).then (compare a.hi b.hi) := by
  unfold order
  rw [Bound.order_eq_compare, Bound.order_eq_compare]
  rfl

lemma order_ne_gt_iff (a b : Span α) :
    (a.order b != .gt) = true ↔ a.lo < b.lo ∨ a.lo = b.lo ∧ a.hi ≤ b.hi := by
  rw [order_eq_then]
  rcases lt_trichotomy a.lo b.lo with h | h | h
  · rw [compare_lt_iff_lt.mpr h]
    exact ⟨fun _ => Or.inl h, fun _ => rfl⟩
  · rw [compare_eq_iff_eq.mpr h, Ordering.eq_then, bne_iff_ne, ne_eq, compare_gt_iff_gt]
    omega
  · rw [compare_gt_iff_gt.mpr h]
    simp only [Ordering.gt_then, bne_self_eq_false, Bool.false_eq_true, false_iff]
    omega

lemma lo_hull (a b : Span α) : (a.hull b).lo = min a.lo b.lo := by
  have ha := a.lo_emod
  have hb := b.lo_emod
  unfold hull
  rw [lo_ofBounds, Bound.place_first]
  · rfl
  · rw [Bound.place_first]
    change (min a.lo b.lo) % 3 ≠ 0
    omega

lemma hi_hull (a b : Span α) : (a.hull b).hi = max a.hi b.hi := by
  have ha := a.hi_emod
  have hb := b.hi_emod
  unfold hull
  rw [hi_ofBounds, Bound.place_last]
  · rfl
  · rw [Bound.place_last]
    change (max a.hi b.hi) % 3 ≠ 2
    omega

lemma hull_self (a : Span α) : a.hull a = a :=
  eq_of_lo_hi (by rw [lo_hull, min_self]) (by rw [hi_hull, max_self])

lemma hull_comm (a b : Span α) : a.hull b = b.hull a :=
  eq_of_lo_hi (by rw [lo_hull, lo_hull, min_comm]) (by rw [hi_hull, hi_hull, max_comm])

lemma hull_assoc (a b c : Span α) : (a.hull b).hull c = a.hull (b.hull c) :=
  eq_of_lo_hi (by simp only [lo_hull, min_assoc]) (by simp only [hi_hull, max_assoc])

lemma Valid.hull {a b : Span α} (ha : a.Valid) (hb : b.Valid) : (a.hull b).Valid := by
  have := ha.lo_le_hi
  refine ⟨by rw [lo_hull, hi_hull]; omega, fun hd => ?_⟩
  have := ha.canonical hd
  have := hb.canonical hd
  rw [lo_hull, hi_hull]
  omega

/-- The common part of two spans takes the places that both take. -/
lemma intersection_eq_some_iff {a b c : Span α} : a.intersection b = some c ↔
    c.lo = max a.lo b.lo ∧ c.hi = min a.hi b.hi ∧ c.lo ≤ c.hi := by
  have halo := a.lo_emod
  have hblo := b.lo_emod
  have hahi := a.hi_emod
  have hbhi := b.hi_emod
  have hlast : (a.lowerBound.last b.lowerBound).place = max a.lo b.lo := Bound.place_last _ _
  have hfirst : (a.upperBound.first b.upperBound).place = min a.hi b.hi := Bound.place_first _ _
  have hlo := lo_ofBounds (l := a.lowerBound.last b.lowerBound)
    (a.upperBound.first b.upperBound) (by omega)
  have hhi := hi_ofBounds (a.lowerBound.last b.lowerBound)
    (u := a.upperBound.first b.upperBound) (by omega)
  unfold intersection
  simp only [Bound.before_iff]
  split
  · rename_i h
    simp only [reduceCtorEq, false_iff]
    omega
  · rename_i h
    rw [Option.some_inj]
    constructor
    · rintro rfl
      omega
    · rintro ⟨hclo, hchi, -⟩
      exact eq_of_lo_hi (by omega) (by omega)

lemma intersection_eq_none_iff {a b : Span α} :
    a.intersection b = none ↔ min a.hi b.hi < max a.lo b.lo := by
  unfold intersection
  simp only [Bound.before_iff, Bound.place_first, Bound.place_last]
  split
  · rename_i h
    exact ⟨fun _ => h, fun _ => rfl⟩
  · rename_i h
    simp only [reduceCtorEq, false_iff]
    exact h

lemma intersection_eq_none_of_not_overlaps {a b : Span α} (h : ¬a.overlaps b = true) :
    a.intersection b = none := by
  rw [overlaps_iff] at h
  rw [intersection_eq_none_iff]
  omega

lemma Valid.intersection {a b c : Span α} (ha : a.Valid) (hb : b.Valid)
    (h : a.intersection b = some c) : c.Valid := by
  obtain ⟨hlo, hhi, hle⟩ := intersection_eq_some_iff.mp h
  refine ⟨hle, fun hd => ?_⟩
  have := ha.canonical hd
  have := hb.canonical hd
  omega

end Span

lemma Period.singleton_valid (t : Timestamp) : (Period.singleton t).Valid :=
  ⟨le_refl _, by intro h; cases h⟩

end TemporalAlgebra
