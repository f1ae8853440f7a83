import Mathlib.Order.Basic
import TemporalAlgebra.Proofs.Box.Lawful
import TemporalAlgebra.Proofs.Number.Integral
import TemporalAlgebra.Proofs.Temporal.Rebuilding

/-!
# Order of temporal values

Values of one form are put in order by what they consist of, values of different forms by their
boxes. Instants and sequence sets of integers are then in the order of their boxes, but sequences are
not: one that starts lower is first, wherever its box lies. So the order is total among sequences, and
among values of which one at most is a sequence. Two sequences and a third value of another form may
go round in a circle.
-/
namespace TemporalAlgebra

lemma transCmp_on {α β : Type} {order : β → β → Ordering} (h : Std.TransCmp order) (f : α → β) :
    Std.TransCmp fun a b => order (f a) (f b) where
  eq_swap := h.eq_swap
  isLE_trans := h.isLE_trans

lemma transCmp_then {α : Type} {first second : α → α → Ordering} (h : Std.TransCmp first)
    (h' : Std.TransCmp second) : Std.TransCmp fun a b => (first a b).then (second a b) :=
  inferInstanceAs (Std.TransCmp (compareLex first second))

lemma transCmp_compare {α : Type} (key : α → Int) :
    Std.TransCmp fun a b => compare (key a) (key b) :=
  transCmp_on (inferInstanceAs (Std.TransCmp (compare : Int → Int → Ordering))) key

section

variable {α : Type} {order : α → α → Ordering}

lemma eq_compareLex {runs : List α → List α → Ordering} (hnil : runs [] [] = .eq)
    (hlt : ∀ b bs, runs [] (b :: bs) = .lt) (hgt : ∀ a as, runs (a :: as) [] = .gt)
    (hcons : ∀ a as b bs, runs (a :: as) (b :: bs) = (order a b).then (runs as bs)) :
    runs = List.compareLex order := by
  funext as bs
  induction as generalizing bs with
  | nil => cases bs <;> simp [hnil, hlt, List.compareLex]
  | cons a as ih =>
    cases bs with
    | nil => simp [hgt, List.compareLex]
    | cons b bs =>
      rw [hcons, ih, List.compareLex]
      cases order a b <;> rfl

lemma forall₂_of_compareLex {as bs : List α} (h : List.compareLex order as bs = .eq) :
    List.Forall₂ (fun a b => order a b = .eq) as bs := by
  induction as generalizing bs with
  | nil => cases bs with
    | nil => exact .nil
    | cons b bs => cases h
  | cons a as ih => cases bs with
    | nil => cases h
    | cons b bs =>
      rw [List.compareLex] at h
      cases hfirst : order a b with
      | eq =>
        rw [hfirst] at h
        exact .cons hfirst (ih h)
      | _ => simp [hfirst] at h

end

namespace TemporalBox

lemma transCmp_absentFirst {α : Type} {order : α → α → Ordering} (h : Std.TransCmp order) :
    Std.TransCmp (orderAbsentFirst order) where
  eq_swap {a b} := by
    cases a <;> cases b
    · rfl
    · rfl
    · rfl
    · exact h.eq_swap
  isLE_trans {a b c} hab hbc := by
    cases a <;> cases b <;> cases c
    · rfl
    · rfl
    · cases hbc
    · rfl
    · cases hab
    · cases hab
    · cases hbc
    · exact h.isLE_trans hab hbc

end TemporalBox

namespace Span

variable {α : Type} [SpanDomain α] [LawfulDomain α]

instance : Std.TransCmp (Span.order : Span α → Span α → Ordering) := by
  have heq : (Span.order : Span α → Span α → Ordering) = fun a b =>
      (compare a.lowerBound.place b.lowerBound.place).then
        (compare a.upperBound.place b.upperBound.place) := by
    funext a b
    rw [Span.order, Bound.order_eq_compare, Bound.order_eq_compare]
  rw [heq]
  exact transCmp_then (transCmp_compare _) (transCmp_compare _)

end Span

instance : Std.TransCmp TBox.order :=
  transCmp_then (transCmp_on (TemporalBox.transCmp_absentFirst inferInstance) TBox.period)
    (transCmp_on (TemporalBox.transCmp_absentFirst inferInstance) TBox.span)

section

variable {V : Type} [TemporalValue V]

lemma Sequence.orderRuns_eq : (Sequence.orderRuns : List (Instant V) → List (Instant V) → Ordering) =
    List.compareLex Instant.order :=
  eq_compareLex rfl (fun _ _ => rfl) (fun _ _ => rfl) fun _ _ _ _ => rfl

lemma SequenceSet.orderRuns_eq :
    (SequenceSet.orderRuns : List (Sequence V) → List (Sequence V) → Ordering) =
      List.compareLex Sequence.order :=
  eq_compareLex rfl (fun _ _ => rfl) (fun _ _ => rfl) fun _ _ _ _ => rfl

section

variable [hvalue : Std.TransCmp (BaseValue.order : V → V → Ordering)]

instance : Std.TransCmp (Instant.order : Instant V → Instant V → Ordering) :=
  transCmp_then (transCmp_compare fun i : Instant V => i.time.micros)
    (transCmp_on hvalue Instant.value)

instance : Std.TransCmp (Sequence.order : Sequence V → Sequence V → Ordering) := by
  have hruns : Std.TransCmp (Sequence.orderRuns : List (Instant V) → List (Instant V) → Ordering) := by
    rw [Sequence.orderRuns_eq]
    infer_instance
  have htruth : Std.TransCmp (compare : Bool → Bool → Ordering) := inferInstance
  have hcode : Std.TransCmp (compare : Nat → Nat → Ordering) := inferInstance
  exact transCmp_then (transCmp_on hruns Sequence.instants)
    (transCmp_then (transCmp_on htruth.opposite Sequence.lowerInc)
      (transCmp_then (transCmp_on htruth Sequence.upperInc)
        (transCmp_on hcode fun s : Sequence V => s.interp.code)))

end

section

variable [Std.LawfulEqCmp (BaseValue.order : V → V → Ordering)]

lemma Instant.eq_of_order {i j : Instant V} (h : i.order j = .eq) : i = j := by
  obtain ⟨htime, hvalue⟩ := Ordering.then_eq_eq.mp h
  obtain ⟨v, t⟩ := i
  obtain ⟨w, u⟩ := j
  obtain rfl : v = w := Std.LawfulEqCmp.eq_of_compare hvalue
  obtain rfl : t = u := LawfulDomain.key_injective (Int.compare_eq_eq.mp htime)
  rfl

variable [LawfulBEq V]

lemma Sequence.beq_of_order {s t : Sequence V} (h : s.order t = .eq) : (s == t) = true := by
  obtain ⟨hruns, hrest⟩ := Ordering.then_eq_eq.mp h
  obtain ⟨hlower, hrest⟩ := Ordering.then_eq_eq.mp hrest
  obtain ⟨hupper, hinterp⟩ := Ordering.then_eq_eq.mp hrest
  rw [Sequence.orderRuns_eq] at hruns
  have hinstants : s.instants = t.instants :=
    List.forall₂_eq_eq_eq ▸ (forall₂_of_compareLex hruns).imp fun _ _ => Instant.eq_of_order
  have hinterp : s.interp = t.interp := Interpolation.code_inj.mp (Nat.compare_eq_eq.mp hinterp)
  have hlower : t.lowerInc = s.lowerInc := Std.LawfulEqCmp.eq_of_compare hlower
  have hupper : s.upperInc = t.upperInc := Std.LawfulEqCmp.eq_of_compare hupper
  change (s.interp == t.interp && s.lowerInc == t.lowerInc && s.upperInc == t.upperInc &&
    s.instants == t.instants) = true
  rw [hinterp, hlower, hupper, hinstants]
  simp

lemma SequenceSet.beq_of_order {s t : SequenceSet V} (h : s.order t = .eq) : (s == t) = true := by
  obtain ⟨-, hruns⟩ := Ordering.then_eq_eq.mp h
  rw [SequenceSet.orderRuns_eq] at hruns
  have hequal := (forall₂_of_compareLex hruns).imp fun _ _ => Sequence.beq_of_order
  change (s.sequences == t.sequences) = true
  generalize s.sequences = as at hequal
  generalize t.sequences = bs at hequal
  induction hequal with
  | nil => rfl
  | cons hfirst _ ih => rw [List.cons_beq_cons, hfirst, ih, Bool.and_self]

end

end

instance : Std.TransCmp (BaseValue.order : Integer → Integer → Ordering) :=
  transCmp_compare Signed.val

instance : Std.LawfulEqCmp (BaseValue.order : Integer → Integer → Ordering) where
  compare_self := Int.compare_eq_eq.mpr rfl
  eq_of_compare h := Signed.ext (Int.compare_eq_eq.mp h)

lemma totalOrder_ofInt (v w : Integer) :
    Binary64.totalOrder (Binary64.ofInt v.val) (Binary64.ofInt w.val) = compare v.val w.val := by
  have hv := v.lower
  have hv' := v.upper
  have hw := w.lower
  have hw' := w.upper
  rcases lt_trichotomy v.val w.val with h | h | h
  · rw [Int.compare_eq_lt.mpr h]
    exact Int.compare_eq_lt.mpr (Binary64.orderKey_ofInt_lt (by omega) (by omega) h)
  · rw [h, Int.compare_eq_eq.mpr rfl]
    exact Int.compare_eq_eq.mpr rfl
  · rw [Int.compare_eq_gt.mpr h]
    exact Int.compare_eq_gt.mpr (Binary64.orderKey_ofInt_lt (by omega) (by omega) h)

lemma Span.order_point {α : Type} [SpanDomain α] (x y : α) :
    Span.order (⟨x, x, true, true⟩ : Span α) ⟨y, y, true, true⟩ = SpanDomain.order x y := by
  change ((SpanDomain.order x y).then .eq).then ((SpanDomain.order x y).then .eq) = _
  cases SpanDomain.order x y <;> rfl

lemma Instant.order_box (i j : Instant Integer) : TemporalBox.order i.box j.box = i.order j := by
  change (Span.order (Period.singleton i.time) (Period.singleton j.time)).then (Span.order
    ⟨Binary64.ofInt i.value.val, Binary64.ofInt i.value.val, true, true⟩
    ⟨Binary64.ofInt j.value.val, Binary64.ofInt j.value.val, true, true⟩) = _
  unfold Period.singleton
  rw [Span.order_point, Span.order_point]
  exact congrArg _ (totalOrder_ofInt i.value j.value)

lemma Subtype.code_inj {s t : Subtype} : s.code = t.code ↔ s = t := by
  cases s <;> cases t <;> decide

namespace Temporal

/-- The sequences that a value consists of, if it is not an instant. -/
def ownSequences : Temporal Integer → List (Sequence Integer)
  | instant _ => []
  | sequence s => [s]
  | sequenceSet s => s.sequences

/-- Order by box, then by form, then by sequences. -/
def orderByBox (v w : Temporal Integer) : Ordering :=
  (TemporalBox.order v.box w.box).then <|
  (compare v.subtype.code w.subtype.code).then <|
  List.compareLex Sequence.order v.ownSequences w.ownSequences

instance : Std.TransCmp orderByBox := by
  have hbox : Std.TransCmp (TemporalBox.order : TemporalValue.Box Integer → _ → Ordering) :=
    inferInstanceAs (Std.TransCmp TBox.order)
  have hcode : Std.TransCmp (compare : Nat → Nat → Ordering) := inferInstance
  have hruns : Std.TransCmp
      (List.compareLex (Sequence.order : Sequence Integer → Sequence Integer → Ordering)) :=
    inferInstance
  exact transCmp_then (transCmp_on hbox box)
    (transCmp_then (transCmp_on hcode fun v : Temporal Integer => v.subtype.code)
      (transCmp_on hruns ownSequences))

lemma order_eq_orderByBox {v w : Temporal Integer}
    (h : ¬(v.subtype = .sequence ∧ w.subtype = .sequence)) : v.order w = orderByBox v w := by
  cases v with
  | instant i =>
    cases w with
    | instant j =>
      change i.order j = (TemporalBox.order i.box j.box).then .eq
      rw [Instant.order_box, Ordering.then_eq]
    | sequence t => rfl
    | sequenceSet t => rfl
  | sequence s =>
    cases w with
    | instant j => rfl
    | sequence t => exact absurd ⟨rfl, rfl⟩ h
    | sequenceSet t => rfl
  | sequenceSet s =>
    cases w with
    | instant j => rfl
    | sequence t => rfl
    | sequenceSet t =>
      change _ = (TemporalBox.order s.box t.box).then _
      unfold order SequenceSet.order
      rw [SequenceSet.orderRuns_eq]
      rfl

lemma eq_sequence {v : Temporal Integer} (h : v.subtype = .sequence) : ∃ s, v = sequence s := by
  cases v with
  | sequence s => exact ⟨s, rfl⟩
  | _ => cases h

lemma order_swap (v w : Temporal Integer) : w.order v = (v.order w).swap := by
  by_cases h : v.subtype = .sequence ∧ w.subtype = .sequence
  · obtain ⟨s, rfl⟩ := eq_sequence h.1
    obtain ⟨t, rfl⟩ := eq_sequence h.2
    change t.order s = (s.order t).swap
    exact Std.OrientedCmp.eq_swap
  · rw [order_eq_orderByBox h, order_eq_orderByBox (mt And.symm h)]
    exact Std.OrientedCmp.eq_swap

/-- Values of different forms are never equal in order: their forms decide where their boxes do not. -/
lemma order_ne_eq {v w : Temporal Integer} (h : v.subtype ≠ w.subtype) : v.order w ≠ .eq := by
  intro heq
  have hboth : ¬(v.subtype = .sequence ∧ w.subtype = .sequence) :=
    fun hboth => h (hboth.1.trans hboth.2.symm)
  rw [order_eq_orderByBox hboth] at heq
  have hcode := (Ordering.then_eq_eq.mp (Ordering.then_eq_eq.mp heq).2).1
  exact h (Subtype.code_inj.mp (Nat.compare_eq_eq.mp hcode))

lemma beq_of_order {v w : Temporal Integer} (h : v.order w = .eq) : (v == w) = true := by
  have hform : v.subtype = w.subtype := not_not.mp (mt order_ne_eq (not_not.mpr h))
  cases v with
  | instant i =>
    cases w with
    | instant j =>
      obtain rfl := Instant.eq_of_order h
      change (i == i) = true
      exact BEq.rfl
    | _ => cases hform
  | sequence s =>
    cases w with
    | sequence t => exact Sequence.beq_of_order h
    | _ => cases hform
  | sequenceSet s =>
    cases w with
    | sequenceSet t => exact SequenceSet.beq_of_order h
    | _ => cases hform

def countSequences (values : List (Temporal Integer)) : Nat :=
  values.countP fun v => v.subtype == .sequence

/-- Two values are in no other order than their boxes. -/
def KeepsBoxes (v w : Temporal Integer) : Prop :=
  (TemporalBox.order v.box w.box).then (v.order w) = v.order w

instance (v w : Temporal Integer) : Decidable (KeepsBoxes v w) :=
  inferInstanceAs (Decidable (_ = _))

/-- The sequences among some values are in no other order than their boxes. -/
def SequencesKeepBoxes (values : List (Temporal Integer)) : Prop :=
  values.Pairwise fun v w => v.subtype = .sequence ∧ w.subtype = .sequence → KeepsBoxes v w

instance (values : List (Temporal Integer)) : Decidable (SequencesKeepBoxes values) :=
  inferInstanceAs (Decidable (values.Pairwise _))

lemma order_eq_of_keepsBoxes {v w : Temporal Integer}
    (h : v.subtype = .sequence ∧ w.subtype = .sequence → KeepsBoxes v w) :
    v.order w = orderByBox v w := by
  by_cases hboth : v.subtype = .sequence ∧ w.subtype = .sequence
  · have hkeeps := h hboth
    obtain ⟨s, rfl⟩ := eq_sequence hboth.1
    obtain ⟨t, rfl⟩ := eq_sequence hboth.2
    have hruns : List.compareLex Sequence.order [s] [t] = s.order t := by
      rw [List.compareLex]
      cases s.order t <;> rfl
    change s.order t = (TemporalBox.order s.box t.box).then (List.compareLex Sequence.order [s] [t])
    rw [hruns]
    exact hkeeps.symm
  · exact order_eq_orderByBox hboth

lemma sequences_of_count {a b c : Temporal Integer} (h : countSequences [a, b, c] ≠ 2) :
    (a.subtype = .sequence ∧ b.subtype = .sequence ∧ c.subtype = .sequence) ∨
      SequencesKeepBoxes [a, b, c] := by
  unfold countSequences at h
  by_cases ha : a.subtype = .sequence <;> by_cases hb : b.subtype = .sequence <;>
    by_cases hc : c.subtype = .sequence <;> simp_all [SequencesKeepBoxes]

/-- The order of values can be turned round, and it calls none equal but those that are. It is
transitive among three values, unless just two of them are sequences and these are in another order
than their boxes. -/
theorem order_laws (a b c : Temporal Integer) :
    b.order a = (a.order b).swap ∧ (a.order b = .eq → (a == b) = true) ∧
      ((countSequences [a, b, c] = 2 → SequencesKeepBoxes [a, b, c]) →
        (a.order b).isLE → (b.order c).isLE → (a.order c).isLE) := by
  refine ⟨order_swap a b, beq_of_order, fun hkeeps hab hbc => ?_⟩
  have hcases : (a.subtype = .sequence ∧ b.subtype = .sequence ∧ c.subtype = .sequence) ∨
      SequencesKeepBoxes [a, b, c] := by
    by_cases hcount : countSequences [a, b, c] = 2
    · exact Or.inr (hkeeps hcount)
    · exact sequences_of_count hcount
  rcases hcases with ⟨ha, hb, hc⟩ | hkeeps
  · obtain ⟨s, rfl⟩ := eq_sequence ha
    obtain ⟨t, rfl⟩ := eq_sequence hb
    obtain ⟨u, rfl⟩ := eq_sequence hc
    change (s.order u).isLE
    exact Std.TransCmp.isLE_trans (b := t) hab hbc
  · obtain ⟨hfirst, hrest⟩ := List.pairwise_cons.mp hkeeps
    rw [order_eq_of_keepsBoxes (hfirst b (by simp))] at hab
    rw [order_eq_of_keepsBoxes (List.rel_of_pairwise_cons hrest (by simp))] at hbc
    rw [order_eq_of_keepsBoxes (hfirst c (by simp))]
    exact Std.TransCmp.isLE_trans hab hbc

/-- A sequence that rises from 1 to 5, the first of them left out. -/
def ascent : Temporal Integer :=
  .sequence (.ofRun ⟨.clamp 1, .nearest 0⟩ [⟨.clamp 5, .nearest 10⟩] false true .step)

def pause : Temporal Integer := .sequence (.ofInstant ⟨.clamp 2, .nearest 0⟩ .step)

def glance : Temporal Integer := .instant ⟨.clamp 3, .nearest 0⟩

/-- The end of the ascent, as a sequence. -/
def arrival : Temporal Integer := .sequence (.ofInstant ⟨.clamp 5, .nearest 10⟩ .step)

theorem glance_before_arrival : countSequences [glance, ascent, arrival] = 2 ∧
    SequencesKeepBoxes [glance, ascent, arrival] ∧ (glance.order ascent).isLE ∧
      (ascent.order arrival).isLE ∧ (glance.order arrival).isLE :=
  ⟨by decide, by decide, by decide, by decide,
    (order_laws glance ascent arrival).2.2 (fun _ => by decide) (by decide) (by decide)⟩

/-- The ascent starts lower than the pause and its box lies behind that of the glance, which lies
behind that of the pause. -/
theorem order_goes_round :
    (ascent.WellFormed ∧ pause.WellFormed ∧ glance.WellFormed) ∧
      ascent.order pause = .lt ∧ pause.order glance = .lt ∧ ascent.order glance = .gt :=
  ⟨⟨rfl, rfl, trivial⟩, by decide, by decide, by decide⟩

end Temporal

end TemporalAlgebra
