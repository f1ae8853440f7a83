import TemporalAlgebra.Proofs.Span.Position
import TemporalAlgebra.Proofs.Value.Lawful
import TemporalAlgebra.Value.Scalar

/-!
# Laws of boxes

The hull of boxes is a least upper bound, and their extent in time can be set apart from the rest.
So a box over some instants is known by their values and by the period that it is given.
-/
namespace TemporalAlgebra

open TemporalBox

instance : LawfulDomain Float where
  key := Binary64.orderKey
  key_injective := Binary64.orderKey_injective
  order_eq _ _ := rfl

/-- What temporal values rely on of the boxes that bound them. -/
class LawfulBox (β : Type) [TemporalBox β] : Prop where
  hull_comm : ∀ a b : β, hull a b = hull b a
  hull_assoc : ∀ a b c : β, hull (hull a b) c = hull a (hull b c)
  hull_self : ∀ a : β, hull a a = a
  setPeriod_setPeriod : ∀ (a : β) (p q : Period), setPeriod (setPeriod a p) q = setPeriod a q
  hull_setPeriod : ∀ (a b : β) (p q : Period),
    hull (setPeriod a p) (setPeriod b q) = setPeriod (hull a b) (p.hull q)

instance : LawfulBox Period where
  hull_comm := Span.hull_comm
  hull_assoc := Span.hull_assoc
  hull_self := Span.hull_self
  setPeriod_setPeriod _ _ _ := rfl
  hull_setPeriod _ _ _ _ := rfl

namespace TemporalBox

section

variable {α : Type} [SpanDomain α] [LawfulDomain α]

lemma hullOfPresent_comm (a b : Option (Span α)) :
    hullOfPresent Span.hull a b = hullOfPresent Span.hull b a := by
  cases a <;> cases b <;> simp [hullOfPresent, Span.hull_comm]

lemma hullOfPresent_assoc (a b c : Option (Span α)) :
    hullOfPresent Span.hull (hullOfPresent Span.hull a b) c =
      hullOfPresent Span.hull a (hullOfPresent Span.hull b c) := by
  cases a <;> cases b <;> cases c <;> simp [hullOfPresent, Span.hull_assoc]

lemma hullOfPresent_self (a : Option (Span α)) : hullOfPresent Span.hull a a = a := by
  cases a <;> simp [hullOfPresent, Span.hull_self]

end

end TemporalBox

instance : LawfulBox TBox where
  hull_comm _ _ := congrArg₂ TBox.mk (hullOfPresent_comm _ _) (hullOfPresent_comm _ _)
  hull_assoc _ _ _ := congrArg₂ TBox.mk (hullOfPresent_assoc _ _ _) (hullOfPresent_assoc _ _ _)
  hull_self _ := congrArg₂ TBox.mk (hullOfPresent_self _) (hullOfPresent_self _)
  setPeriod_setPeriod _ _ _ := rfl
  hull_setPeriod _ _ _ _ := rfl

namespace TemporalBox

variable {β : Type} [TemporalBox β]

/-- One box lies within another: it adds nothing to it. -/
def Within (a b : β) : Prop := hull a b = b

variable [LawfulBox β] {a b c : β}

lemma Within.refl (a : β) : Within a a := LawfulBox.hull_self a

lemma Within.trans (hab : Within a b) (hbc : Within b c) : Within a c := by
  unfold Within at *
  rw [← hbc, ← LawfulBox.hull_assoc, hab]

lemma Within.antisymm (hab : Within a b) (hba : Within b a) : a = b := by
  unfold Within at *
  rw [← hba, LawfulBox.hull_comm, hab]

lemma within_hull_left (a b : β) : Within a (hull a b) := by
  unfold Within
  rw [← LawfulBox.hull_assoc, LawfulBox.hull_self]

lemma within_hull_right (a b : β) : Within b (hull a b) := by
  rw [LawfulBox.hull_comm]
  exact within_hull_left b a

lemma hull_within_iff : Within (hull a b) c ↔ Within a c ∧ Within b c := by
  refine ⟨fun h => ⟨(within_hull_left a b).trans h, (within_hull_right a b).trans h⟩, ?_⟩
  rintro ⟨ha, hb⟩
  unfold Within at *
  rw [LawfulBox.hull_assoc, hb, ha]

lemma eq_of_within_iff (h : ∀ c, Within a c ↔ Within b c) : a = b :=
  ((h b).mpr (Within.refl b)).antisymm ((h a).mp (Within.refl a))

lemma foldl_within_iff {ι : Type} (box : ι → β) (start : β) (is : List ι) :
    Within (is.foldl (fun b i => hull b (box i)) start) c ↔
      Within start c ∧ ∀ i ∈ is, Within (box i) c := by
  induction is generalizing start with
  | nil => simp
  | cons i is ih => rw [List.foldl_cons, ih, hull_within_iff, and_assoc, List.forall_mem_cons]

lemma setPeriod_hull (a b : β) (p : Period) :
    setPeriod (hull a b) p = hull (setPeriod a p) (setPeriod b p) := by
  rw [LawfulBox.hull_setPeriod, Span.hull_self]

lemma setPeriod_foldl {ι : Type} (box : ι → β) (start : β) (is : List ι) (p : Period) :
    setPeriod (is.foldl (fun b i => hull b (box i)) start) p =
      is.foldl (fun b i => hull b (setPeriod (box i) p)) (setPeriod start p) := by
  induction is generalizing start with
  | nil => rfl
  | cons i is ih => rw [List.foldl_cons, List.foldl_cons, ih, setPeriod_hull]

end TemporalBox

/-- Values with lawful boxes, in which the extent in time of an instant is its own period. -/
class BoundedValue (V : Type) [TemporalValue V] : Prop where
  lawful : LawfulBox (TemporalValue.Box V)
  setPeriod_instantBox : ∀ (x : V) (t u : Timestamp),
    setPeriod (TemporalValue.instantBox x t) (Period.singleton u) = TemporalValue.instantBox x u

attribute [instance] BoundedValue.lawful

instance : BoundedValue Bool where
  lawful := inferInstanceAs (LawfulBox Period)
  setPeriod_instantBox _ _ _ := rfl

instance : BoundedValue Integer where
  lawful := inferInstanceAs (LawfulBox TBox)
  setPeriod_instantBox _ _ _ := rfl

instance : BoundedValue Float where
  lawful := inferInstanceAs (LawfulBox TBox)
  setPeriod_instantBox _ _ _ := rfl

instance : BoundedValue String where
  lawful := inferInstanceAs (LawfulBox Period)
  setPeriod_instantBox _ _ _ := rfl

end TemporalAlgebra
