import Mathlib.Order.Lattice
import Mathlib.Tactic.Common

/-!
# Orders of intervals

Intervals are ordered by which of them lie in front of which, and those that overlap count as equal.
That is no equivalence: an interval may overlap two others that lie apart. A total preorder is the
order of intervals that are points, some of them at the same place.
-/
namespace TemporalAlgebra

/-- An order of intervals: of two pairs of intervals that lie in front of each other, one in front
lies in front of the one behind in the other pair. -/
class IntervalOrder {α : Type} (order : α → α → Ordering) : Prop extends Std.OrientedCmp order where
  crossing : ∀ {a b c d : α}, order a b = .lt → order c d = .lt → order a d = .lt ∨ order c b = .lt

def compareEnds {α ι : Type} [LinearOrder ι] (lo hi : α → ι) (a b : α) : Ordering :=
  if hi a < lo b then .lt else if hi b < lo a then .gt else .eq

section

variable {α ι : Type} [LinearOrder ι] {lo hi : α → ι} {a b : α}

lemma compareEnds_eq_lt : compareEnds lo hi a b = .lt ↔ hi a < lo b := by
  unfold compareEnds
  split
  · rename_i h
    exact iff_of_true rfl h
  · rename_i h
    split <;> simp [h]

lemma compareEnds_eq_gt (hle : ∀ a, lo a ≤ hi a) :
    compareEnds lo hi a b = .gt ↔ hi b < lo a := by
  unfold compareEnds
  split
  · rename_i h
    have := (hle a).trans_lt (h.trans_le (hle b))
    simp [this.le]
  · split <;> simp_all

/-- Intervals with a first and a last place. -/
theorem intervalOrder_compareEnds (hle : ∀ a, lo a ≤ hi a) :
    IntervalOrder (compareEnds lo hi) where
  eq_swap {a b} := by
    cases hab : compareEnds lo hi b a with
    | lt => exact (compareEnds_eq_gt hle).mpr (compareEnds_eq_lt.mp hab)
    | gt => exact compareEnds_eq_lt.mpr ((compareEnds_eq_gt hle).mp hab)
    | eq =>
      cases hba : compareEnds lo hi a b with
      | lt =>
        have := (compareEnds_eq_gt hle).mpr (compareEnds_eq_lt.mp hba)
        rw [hab] at this
        cases this
      | gt =>
        have := compareEnds_eq_lt.mpr ((compareEnds_eq_gt hle).mp hba)
        rw [hab] at this
        cases this
      | eq => rfl
  crossing {a b c d} hab hcd := by
    rw [compareEnds_eq_lt] at *
    rw [compareEnds_eq_lt]
    by_contra hn
    rw [not_or, not_lt, not_lt] at hn
    exact absurd (hcd.trans_le (hn.1.trans (hab.le.trans hn.2))) (lt_irrefl _)

end

namespace IntervalOrder

variable {α : Type} {order : α → α → Ordering} {a b c : α}

/-- An interval covers another one: what lies apart from the former lies likewise apart from the
latter. -/
def Covers (order : α → α → Ordering) (m a : α) : Prop :=
  ∀ x, order x m ≠ .eq → order x a = order x m

lemma covers_of_ends {ι : Type} [LinearOrder ι] {lo hi : α → ι} (hle : ∀ a, lo a ≤ hi a)
    (hlo : lo b ≤ lo a) (hhi : hi a ≤ hi b) : Covers (compareEnds lo hi) b a := by
  intro x hx
  cases h : compareEnds lo hi x b with
  | lt => exact compareEnds_eq_lt.mpr ((compareEnds_eq_lt.mp h).trans_le hlo)
  | eq => exact absurd h hx
  | gt => exact (compareEnds_eq_gt hle).mpr (hhi.trans_lt ((compareEnds_eq_gt hle).mp h))

/-- A total preorder is an order of intervals. -/
instance [Std.TransCmp order] : IntervalOrder order where
  crossing {a b c d} hab hcd := by
    cases had : order a d with
    | lt => exact Or.inl rfl
    | eq =>
      have hda : (order d a).isLE := by simp [Std.OrientedCmp.eq_symm had]
      exact Or.inr (Std.TransCmp.lt_trans (Std.TransCmp.lt_of_lt_of_isLE hcd hda) hab)
    | gt =>
      have hda := Std.OrientedCmp.lt_of_gt had
      exact Or.inr (Std.TransCmp.lt_trans (Std.TransCmp.lt_trans hcd hda) hab)

variable [IntervalOrder order]

lemma lt_trans (hab : order a b = .lt) (hbc : order b c = .lt) : order a c = .lt := by
  have hself : order b b = .eq := Std.ReflCmp.compare_self
  refine (crossing hab hbc).resolve_right fun hbb => ?_
  rw [hself] at hbb
  cases hbb

end IntervalOrder

end TemporalAlgebra
