import TemporalAlgebra.Index
import TemporalAlgebra.Proofs.Box.Lawful
import TemporalAlgebra.Proofs.Number.Comparison
import TemporalAlgebra.Proofs.Number.Rounding

/-!
# Envelopes of boxes

Bounds are rounded to numbers, which keeps their order. So the envelopes of boxes that overlap meet,
although boxes whose envelopes meet need not overlap.
-/
namespace TemporalAlgebra

open Binary64 Indexable LawfulDomain

/-- Domains whose elements are in order as numbers. -/
class RealDomain (α : Type) [SpanDomain α] [LawfulDomain α] : Prop where
  orderKey_native_le : ∀ {a b : α}, key a ≤ key b →
    orderKey (SpanDomain.native a) ≤ orderKey (SpanDomain.native b)

/-- Domains whose elements are finite numbers. -/
class FiniteDomain (α : Type) [SpanDomain α] : Prop where
  isFinite_native : ∀ a : α, isFinite (SpanDomain.native a) = true

section Domains

variable {w : Nat}

lemma Signed.bounds_of_le (hw : w ≤ 63) (a : Signed w) : -2 ^ 64 < a.val ∧ a.val < 2 ^ 64 := by
  have hpow : (2 : Int) ^ w ≤ 2 ^ 63 := by
    exact_mod_cast Nat.pow_le_pow_right (by decide : 0 < 2) hw
  have := a.lower
  have := a.upper
  omega

lemma Signed.orderKey_le (hw : w ≤ 63) {a b : Signed w} (h : a.val ≤ b.val) :
    orderKey (ofInt a.val) ≤ orderKey (ofInt b.val) :=
  orderKey_ofInt_le (a.bounds_of_le hw).1 (b.bounds_of_le hw).2 h

lemma Signed.isFinite_ofInt (hw : w ≤ 63) (a : Signed w) : isFinite (ofInt a.val) = true :=
  Binary64.isFinite_ofInt (a.bounds_of_le hw).1 (a.bounds_of_le hw).2

end Domains

instance : RealDomain Integer := ⟨fun h => Signed.orderKey_le (by decide) h⟩
instance : RealDomain Bigint := ⟨fun h => Signed.orderKey_le (by decide) h⟩
instance : RealDomain Date := ⟨fun h => Signed.orderKey_le (by decide) h⟩
instance : RealDomain Timestamp := ⟨fun h => Signed.orderKey_le (by decide) h⟩
instance : RealDomain Float := ⟨id⟩

instance : FiniteDomain Integer := ⟨Signed.isFinite_ofInt (by decide)⟩
instance : FiniteDomain Bigint := ⟨Signed.isFinite_ofInt (by decide)⟩
instance : FiniteDomain Date := ⟨fun a => a.ticks.isFinite_ofInt (by decide)⟩
instance : FiniteDomain Timestamp := ⟨fun a => a.ticks.isFinite_ofInt (by decide)⟩

namespace Extent

def IsFinite (e : Extent) : Prop := Binary64.isFinite e.min = true ∧ Binary64.isFinite e.max = true

lemma isFinite_absent : absent.IsFinite := ⟨by decide, by decide⟩

lemma IsFinite.meets_unbounded {e : Extent} (h : e.IsFinite) :
    e.meets BoxIndex.unbounded = true := by
  have hmin := between_infinities (parts_ne_nan_of_isFinite h.1)
  have hmax := between_infinities (parts_ne_nan_of_isFinite h.2)
  unfold meets
  rw [Bool.and_eq_true, decide_eq_true_eq, decide_eq_true_eq]
  exact ⟨hmin.2, hmax.1⟩

end Extent

section Axes

variable {α : Type} [SpanDomain α] [LawfulDomain α] [RealDomain α]

lemma native_le {a b : α} (ha : isFinite (SpanDomain.native a) = true)
    (hb : isFinite (SpanDomain.native b) = true) (h : key a ≤ key b) :
    SpanDomain.native a ≤ SpanDomain.native b :=
  le_of_orderKey_le (parts_ne_nan_of_isFinite ha) (parts_ne_nan_of_isFinite hb)
    (RealDomain.orderKey_native_le h)

lemma meets_ofSpan {s t : Span α} (hs : (ofSpan s).IsFinite) (ht : (ofSpan t).IsFinite)
    (h : s.overlaps t = true) : (ofSpan s).meets (ofSpan t) = true := by
  rw [Span.overlaps_iff, Span.lo_eq, Span.hi_eq, Span.lo_eq, Span.hi_eq] at h
  -- Bounds that are not inclusive count as inclusive in an envelope.
  have hst : key s.lower ≤ key t.upper := by split_ifs at h <;> omega
  have hts : key t.lower ≤ key s.upper := by split_ifs at h <;> omega
  unfold Extent.meets
  rw [Bool.and_eq_true, decide_eq_true_eq, decide_eq_true_eq]
  exact ⟨native_le hs.1 ht.2 hst, native_le ht.1 hs.2 hts⟩

def BoundedAxis (axis : Option Extent) : Prop := ∀ e ∈ axis, e.IsFinite

/-- Extents on an axis that both boxes have meet. -/
def AxesMeet (a b : Option Extent) : Prop := ∀ e ∈ a, ∀ f ∈ b, e.meets f = true

lemma isBounded_iff {β : Type} [Indexable β] {box : β} :
    isBounded box = true ↔ ∀ axis ∈ axes box, BoundedAxis axis := by
  unfold isBounded BoundedAxis Extent.IsFinite
  simp only [List.all_eq_true, Option.all_eq_true, Bool.and_eq_true, Option.mem_def]

lemma axesMeet_ofSpan {s t : Option (Span α)} (hs : BoundedAxis (s.map ofSpan))
    (ht : BoundedAxis (t.map ofSpan)) (h : TemporalBox.whereBoth Span.overlaps s t = true) :
    AxesMeet (s.map ofSpan) (t.map ofSpan) := by
  intro e he f hf
  obtain ⟨x, rfl, rfl⟩ := Option.map_eq_some_iff.mp he
  obtain ⟨y, rfl, rfl⟩ := Option.map_eq_some_iff.mp hf
  exact meets_ofSpan (hs _ rfl) (ht _ rfl) h

lemma axesMeet_of_whereBoth {a b : Option Extent}
    (h : TemporalBox.whereBoth Extent.meets a b = true) : AxesMeet a b := by
  rintro e rfl f rfl
  exact h

lemma axesMeet_none_left (b : Option Extent) : AxesMeet none b := fun _ h => nomatch h

lemma axesMeet_none_right (a : Option Extent) : AxesMeet a none := fun _ _ _ h => nomatch h

end Axes

/-- Boxes that meet on every axis that both have when they overlap. -/
class CoveredBox (β : Type) [Indexable β] : Prop where
  axesMeet : ∀ {a b : β}, isBounded a = true → isBounded b = true → overlaps a b = true →
    List.Forall₂ AxesMeet (axes a) (axes b)

instance {α : Type} [SpanDomain α] [LawfulDomain α] [RealDomain α] : CoveredBox (Span α) where
  axesMeet {a b} ha hb h := by
    rw [isBounded_iff] at ha hb
    have hmeet : AxesMeet (some (ofSpan a)) (some (ofSpan b)) :=
      axesMeet_ofSpan (s := some a) (t := some b) (ha _ (by simp [axes])) (hb _ (by simp [axes])) h
    exact .cons hmeet (.cons (axesMeet_none_left _) (.cons (axesMeet_none_left _)
      (.cons (axesMeet_none_left _) .nil)))

instance : CoveredBox TBox where
  axesMeet {a b} ha hb h := by
    rw [isBounded_iff] at ha hb
    obtain ⟨hspan, hperiod⟩ := Bool.and_eq_true_iff.mp h
    have hvalue : AxesMeet (a.span.map ofSpan) (b.span.map ofSpan) :=
      axesMeet_ofSpan (ha _ (by simp [axes])) (hb _ (by simp [axes])) hspan
    have htime : AxesMeet (a.period.map ofSpan) (b.period.map ofSpan) :=
      axesMeet_ofSpan (ha _ (by simp [axes])) (hb _ (by simp [axes])) hperiod
    exact .cons hvalue (.cons (axesMeet_none_left _) (.cons (axesMeet_none_left _)
      (.cons htime .nil)))

instance : CoveredBox STBox where
  axesMeet {a b} ha hb h := by
    rw [isBounded_iff] at ha hb
    obtain ⟨hspace, hperiod⟩ := Bool.and_eq_true_iff.mp (Bool.and_eq_true_iff.mp h).2
    have htime : AxesMeet (a.period.map ofSpan) (b.period.map ofSpan) :=
      axesMeet_ofSpan (ha _ (by simp [axes])) (hb _ (by simp [axes])) hperiod
    suffices hplace : AxesMeet (a.space.map Space.x) (b.space.map Space.x) ∧
        AxesMeet (a.space.map Space.y) (b.space.map Space.y) ∧ AxesMeet a.z b.z from
      .cons hplace.1 (.cons hplace.2.1 (.cons hplace.2.2 (.cons htime .nil)))
    unfold STBox.z
    cases hs : a.space with
    | none => exact ⟨axesMeet_none_left _, axesMeet_none_left _, axesMeet_none_left _⟩
    | some s =>
      cases ht : b.space with
      | none => exact ⟨axesMeet_none_right _, axesMeet_none_right _, axesMeet_none_right _⟩
      | some t =>
        rw [hs, ht] at hspace
        obtain ⟨hxy, hz⟩ := Bool.and_eq_true_iff.mp hspace
        obtain ⟨hx, hy⟩ := Bool.and_eq_true_iff.mp hxy
        exact ⟨axesMeet_of_whereBoth (a := some s.x) (b := some t.x) hx,
          axesMeet_of_whereBoth (a := some s.y) (b := some t.y) hy, axesMeet_of_whereBoth hz⟩

namespace BoxIndex

lemma meets_window {a b : Option Extent} (ha : BoundedAxis a) (h : AxesMeet a b) :
    (a.getD .absent).meets (if a.isSome then b.getD unbounded else unbounded) = true := by
  cases a with
  | none => exact Extent.isFinite_absent.meets_unbounded
  | some e =>
    cases b with
    | none => exact (ha e rfl).meets_unbounded
    | some f => exact h e rfl f rfl

/-- No box that overlaps a query is lost when envelopes are compared. -/
theorem envelopesMeet_of_overlaps {β : Type} [Indexable β] [CoveredBox β] {index : BoxIndex β}
    {box query : β} (hbox : isBounded box = true) (hquery : isBounded query = true)
    (hdims : index.dimensions? = some (dimensions box)) (h : overlaps box query = true) :
    envelopesMeet (envelope box) (index.window query) = true := by
  have hmeet := CoveredBox.axesMeet hbox hquery h
  rw [isBounded_iff] at hbox
  unfold envelopesMeet envelope window
  rw [hdims, Option.getD_some]
  unfold dimensions
  -- The envelopes are compared axis by axis, along the axes of the two boxes.
  generalize axes box = stored at hmeet hbox
  generalize axes query = wanted at hmeet
  induction hmeet with
  | nil => rfl
  | cons hab hrest ih =>
    rw [List.forall_mem_cons] at hbox
    rw [List.map_cons, List.map_cons, List.zipWith_cons_cons, List.zipWith_cons_cons,
      List.all_cons, Bool.and_eq_true]
    exact ⟨meets_window hbox.1 hab, ih hbox.2⟩

end BoxIndex

end TemporalAlgebra
