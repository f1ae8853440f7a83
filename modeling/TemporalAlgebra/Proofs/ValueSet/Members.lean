import Mathlib.Data.List.Sort
import TemporalAlgebra.Proofs.Span.Canonical
import TemporalAlgebra.Proofs.SpanSet.Algebra
import TemporalAlgebra.Proofs.ValueSet

/-!
# The members of value sets

A value set is known by its members: it is the same whatever the order of the values that it is made
of and however often they occur. A search that halves the rising values finds exactly the members,
wherever it looks. The spans of the members hold nothing else, even where those of neighbours are
joined, and their hull is the span of the set; both exist unless the greatest value of a discrete
domain is a member.
-/
namespace TemporalAlgebra

open LawfulDomain

variable {α : Type}

namespace ValueSet

section

variable {s t : ValueSet α}

lemma eq_of_values (h : s.values = t.values) : s = t := by
  obtain ⟨first, rest⟩ := s
  obtain ⟨first', rest'⟩ := t
  obtain ⟨rfl, rfl⟩ := List.cons.inj h
  rfl

lemma first_mem (s : ValueSet α) : s.first ∈ s.values := List.mem_cons_self

lemma last_mem (s : ValueSet α) : s.last ∈ s.values := List.getLastD_mem_cons

end

variable [SpanDomain α] [LawfulDomain α] {s t : ValueSet α} {values : List α} {v : α}

lemma mem_distinctAfter {current : α} :
    v ∈ current :: distinctAfter current values ↔ v ∈ current :: values := by
  induction values generalizing current with
  | nil => rfl
  | cons x rest ih =>
    rw [distinctAfter, LawfulDomain.order_eq]
    split
    · rename_i heq
      obtain rfl := key_injective (compare_eq_iff_eq.mp (beq_iff_eq.mp heq))
      rw [ih]
      simp
    · rw [List.mem_cons, ih, ← List.mem_cons]

lemma mem_of_make (h : make values = .ok s) : v ∈ s.values ↔ v ∈ values := by
  obtain ⟨first, rest, hsorted, rfl⟩ := exists_sorted_of_make h
  have hperm := List.mergeSort_perm values fun a b => SpanDomain.order a b != .gt
  rw [hsorted] at hperm
  exact mem_distinctAfter.trans hperm.mem_iff

lemma exists_make [SuccessorDomain α] (h : values ≠ []) : ∃ s, make values = .ok s := by
  have hfound : ∃ s, ofValues? values = some s := by
    unfold ofValues?
    split
    · rename_i hnil
      have hperm := List.mergeSort_perm values fun a b => SpanDomain.order a b != .gt
      rw [hnil] at hperm
      exact absurd hperm.symm.eq_nil h
    · exact ⟨_, rfl⟩
  obtain ⟨s, hs⟩ := hfound
  exact ⟨s, make_of_ofValues? hs⟩

/-- The answers that a search for a value by halving may come to. It may look at any element, and it
goes on in front of one that is too great and behind one that is too small, which it may keep along
with one that is equal. -/
inductive Bisects (v : α) : List α → Bool → Prop where
  | nowhere : Bisects v [] false
  | here {before after : List α} {x : α} :
      SpanDomain.order x v = .eq → Bisects v (before ++ x :: after) true
  | front {before after : List α} {x : α} {answer : Bool} :
      SpanDomain.order x v = .gt → Bisects v before answer → Bisects v (before ++ x :: after) answer
  | behind {before after : List α} {x : α} {answer : Bool} :
      SpanDomain.order x v = .lt → Bisects v after answer → Bisects v (before ++ x :: after) answer
  | onward {before after : List α} {x : α} {answer : Bool} : SpanDomain.order x v ≠ .gt →
      Bisects v (x :: after) answer → Bisects v (before ++ x :: after) answer

/-- Whatever a search by halving leaves out of rising values is not the value that it looks for. -/
lemma Bisects.iff_mem {answer : Bool} (h : Bisects v values answer)
    (hrising : values.Pairwise fun a b => key a < key b) : answer = true ↔ v ∈ values := by
  induction h with
  | nowhere => simp
  | here heq =>
    rw [LawfulDomain.order_eq, compare_eq_iff_eq] at heq
    obtain rfl := key_injective heq
    simp
  | front hgt _ ih =>
    rw [LawfulDomain.order_eq, compare_gt_iff_gt] at hgt
    obtain ⟨hbefore, hafter, -⟩ := List.pairwise_append.mp hrising
    rw [ih hbefore, List.mem_append, List.mem_cons, or_iff_left]
    rintro (rfl | hv)
    · omega
    · have := List.rel_of_pairwise_cons hafter hv
      omega
  | behind hlt _ ih =>
    rw [LawfulDomain.order_eq, compare_lt_iff_lt] at hlt
    obtain ⟨-, hafter, hacross⟩ := List.pairwise_append.mp hrising
    rw [ih hafter.tail, List.mem_append, List.mem_cons, ← or_assoc, or_iff_right]
    rintro (hv | rfl)
    · have := hacross v hv _ List.mem_cons_self
      omega
    · omega
  | onward hle _ ih =>
    rw [LawfulDomain.order_eq, ne_eq, compare_gt_iff_gt] at hle
    obtain ⟨-, hafter, hacross⟩ := List.pairwise_append.mp hrising
    rw [ih hafter, List.mem_append, or_iff_right]
    intro hv
    have := hacross v hv _ List.mem_cons_self
    omega

namespace Ascending

lemma eq_of_mem_iff (hs : s.Ascending) (ht : t.Ascending) (h : ∀ v, v ∈ s.values ↔ v ∈ t.values) :
    s = t := by
  have hantisymm : Std.Antisymm fun a b : α => key a < key b := ⟨fun a b hab hba => by omega⟩
  have hirrefl : Std.Irrefl fun a b : α => key a < key b := ⟨fun a => Int.lt_irrefl _⟩
  exact eq_of_values (List.Pairwise.eq_of_mem_iff hs ht h)

lemma contains_iff_mem (h : s.Ascending) : s.contains v = true ↔ v ∈ s.values := by
  rw [h.contains_iff]
  constructor
  · rintro ⟨w, hw, hkey⟩
    rwa [← key_injective hkey]
  · intro hv
    exact ⟨v, hv, rfl⟩

lemma first_le (h : s.Ascending) (hv : v ∈ s.values) : key s.first ≤ key v := by
  rcases List.mem_cons.mp hv with rfl | hv
  · exact Int.le_refl _
  · have := List.rel_of_pairwise_cons h hv
    omega

lemma le_last (h : s.Ascending) (hv : v ∈ s.values) : key v ≤ key s.last := by
  have hrefl : Std.Refl fun a b : α => key a ≤ key b := ⟨fun a => Int.le_refl _⟩
  have hrising : s.values.Pairwise fun a b => key a ≤ key b := h.imp Int.le_of_lt
  unfold last
  rw [← List.getLast_eq_getLastD]
  exact hrising.rel_getLast hv

/-- The greatest value of the domain can only be the last one of a set. -/
lemma eq_last (h : s.Ascending) (hv : v ∈ s.values) (hgreatest : Greatest v) : v = s.last := by
  have := h.le_last hv
  have := hgreatest s.last
  exact key_injective (by omega)

end Ascending

section

variable [SuccessorDomain α] {r : SpanSet α} {p : Span α} {f : Failure}

/-- The spans of the values, joined where they touch, cover the place of each value, in a discrete
domain along with all places up to the next value. -/
lemma toSpanSet_spec (h : s.toSpanSet = .ok r) : r.WellFormed ∧ ∀ n, r.Covers n ↔
    ∃ v ∈ s.values, 3 * key v + 1 ≤ n ∧ n ≤ 3 * key v + if SpanDomain.discrete α then 3 else 1 := by
  unfold toSpanSet SpanSet.new at h
  simp only [bind_eq_ok, reported_eq_ok, orRefuse_eq_ok] at h
  obtain ⟨points, hpoints, hr⟩ := h
  have hvalid : ∀ p ∈ points, p.Valid := by
    intro p hp
    obtain ⟨v, -, hv⟩ := mem_of_mapM_eq_ok hpoints hp
    exact (Span.point_spec hv).1
  obtain ⟨hwellFormed, hcovers⟩ := SpanSet.ofSpans?_spec hvalid hr
  refine ⟨hwellFormed, fun n => (hcovers n).trans ⟨?_, ?_⟩⟩
  · rintro ⟨p, hp, hn⟩
    obtain ⟨v, hmem, hv⟩ := mem_of_mapM_eq_ok hpoints hp
    obtain ⟨hlo, hhi⟩ := Span.lo_hi_closed hv
    unfold Span.Covers at hn
    rw [hlo, hhi] at hn
    exact ⟨v, hmem, hn⟩
  · rintro ⟨v, hmem, hn⟩
    obtain ⟨p, hp, hv⟩ := mem_mapM_of_mem hpoints hmem
    obtain ⟨hlo, hhi⟩ := Span.lo_hi_closed hv
    rw [← hlo, ← hhi] at hn
    exact ⟨p, hp, hn⟩

lemma containsValue_toSpanSet (h : s.toSpanSet = .ok r) :
    r.containsValue v = true ↔ v ∈ s.values := by
  obtain ⟨hwellFormed, hcovers⟩ := toSpanSet_spec h
  rw [hwellFormed.containsValue_iff, hcovers]
  constructor
  · rintro ⟨w, hw, hlower, hupper⟩
    have hkey : key w = key v := by
      split at hupper <;> omega
    rwa [← key_injective hkey]
  · intro hv
    refine ⟨v, hv, by omega, ?_⟩
    split <;> omega

/-- The spans of the values lie within the span of the set and reach from its one end to the
other. -/
lemma Ascending.within_toSpan (h : s.Ascending) (hr : s.toSpanSet = .ok r) (hp : s.toSpan = .ok p) :
    (∀ x ∈ r.spans, p.contains x = true) ∧ r.hull = p := by
  obtain ⟨hwellFormed, hcovers⟩ := toSpanSet_spec hr
  obtain ⟨hlo, hhi⟩ := Span.lo_hi_closed hp
  have hwithin : ∀ n, r.Covers n → p.Covers n := by
    intro n hn
    obtain ⟨v, hv, hn⟩ := (hcovers n).mp hn
    have := h.first_le hv
    have := h.le_last hv
    unfold Span.Covers
    omega
  have hspans : ∀ x ∈ r.spans, p.lo ≤ x.lo ∧ x.hi ≤ p.hi := by
    intro x hx
    have hle := (hwellFormed.normal.valid x hx).lo_le_hi
    have hfirst := hwithin x.lo ⟨x, hx, Int.le_refl _, hle⟩
    have hlast := hwithin x.hi ⟨x, hx, hle, Int.le_refl _⟩
    exact ⟨hfirst.1, hlast.2⟩
  refine ⟨fun x hx => (Span.contains_iff p x).mpr (hspans x hx), ?_⟩
  have hstart : r.hull.Covers p.lo := by
    apply hwellFormed.covers_hull
    refine (hcovers _).mpr ⟨s.first, s.first_mem, by omega, ?_⟩
    split <;> omega
  have hend : r.hull.Covers p.hi := by
    apply hwellFormed.covers_hull
    refine (hcovers _).mpr ⟨s.last, s.last_mem, ?_, by omega⟩
    split at hhi <;> omega
  have hfirst := hspans r.first List.mem_cons_self
  have hlast := hspans r.last List.getLastD_mem_cons
  have hlower := Span.lo_hull r.first r.last
  have hupper := Span.hi_hull r.first r.last
  rw [← hwellFormed.hull_eq] at hlower hupper
  unfold Span.Covers at hstart hend
  apply Span.eq_of_lo_hi <;> omega

lemma Ascending.toSpan_eq_error_iff (h : s.Ascending) :
    s.toSpan = .error f ↔ Span.NoneBehind s.last f :=
  Span.new_closed_eq_error_iff (h.first_le s.last_mem)

/-- Some value has no span of its own only if the last one has none. -/
lemma Ascending.toSpanSet_eq_error_iff (h : s.Ascending) :
    s.toSpanSet = .error f ↔ Span.NoneBehind s.last f := by
  have hlast : ∀ f, Span.point s.last = .error f ↔ Span.NoneBehind s.last f :=
    fun f => Span.new_closed_eq_error_iff (Int.le_refl _)
  have hfails : ∀ f, s.values.mapM Span.point = .error f → Span.NoneBehind s.last f := by
    intro f hf
    obtain ⟨v, hv, hpoint⟩ := mapM_eq_error hf
    have hnone := (Span.new_closed_eq_error_iff (Int.le_refl (key v))).mp hpoint
    rwa [← h.eq_last hv hnone.2.1]
  unfold toSpanSet
  cases hpoints : s.values.mapM Span.point with
  | error f' =>
    rw [← hlast, (hlast f').mpr (hfails f' hpoints), Except.error.injEq]
    exact ⟨Except.error.inj, congrArg Except.error⟩
  | ok points =>
    obtain ⟨p, hp, hpoint⟩ := mem_mapM_of_mem hpoints s.last_mem
    have hsome := SpanSet.ofSpans?_eq_none_iff.not.mpr (List.ne_nil_of_mem hp)
    obtain ⟨r, hr⟩ := Option.ne_none_iff_exists'.mp hsome
    rw [← hlast, hpoint]
    change reported (orRefuse (SpanSet.ofSpans? points) _) = .error f ↔ _
    rw [hr]
    exact iff_of_false nofun nofun

end

/-- A set is made of any values, and it is one and the same for values with the same members. It
contains its members and nothing else, which is what every search by halving finds. The spans of
its values exist unless the last value is the greatest one of a discrete domain, and then the span
of the set is refused in the same way. They hold the members and nothing else, they lie within the
span of the set, and their hull is that span. -/
theorem sets_hold_their_values [SuccessorDomain α] {values : List α} (h : values ≠ []) :
    ∃ s : ValueSet α, new values = .ok s ∧ s.Ascending ∧ (∀ v, v ∈ s.values ↔ v ∈ values) ∧
      (∀ others : List α, (∀ v, v ∈ others ↔ v ∈ values) → new others = .ok s) ∧
      (∀ v, s.contains v = true ↔ v ∈ values) ∧
      (∀ v answer, Bisects v s.values answer → answer = s.contains v) ∧
      (∀ r, s.toSpanSet = .ok r → (∀ v, r.containsValue v = true ↔ v ∈ values) ∧
        ∃ p, s.toSpan = .ok p ∧ (∀ x ∈ r.spans, p.contains x = true) ∧ r.hull = p) ∧
      (∀ f, s.toSpanSet = .error f ↔ ∃ v ∈ values, Span.NoneBehind v f) ∧
      ∀ f, s.toSpan = .error f ↔ s.toSpanSet = .error f := by
  obtain ⟨s, hs⟩ := exists_make h
  have hrising := ascending_of_make hs
  have hmem : ∀ v, v ∈ s.values ↔ v ∈ values := fun v => mem_of_make hs
  have hfails : ∀ f, s.toSpan = .error f ↔ s.toSpanSet = .error f :=
    fun f => hrising.toSpan_eq_error_iff.trans hrising.toSpanSet_eq_error_iff.symm
  refine ⟨s, reported_eq_ok.mpr hs, hrising, hmem, ?_, ?_, ?_, ?_, ?_, hfails⟩
  · intro others hothers
    have hne : others ≠ [] := by
      rintro rfl
      exact List.not_mem_nil ((hothers _).mpr ((hmem _).mp s.first_mem))
    obtain ⟨t, ht⟩ := exists_make hne
    have hsame : t = s := by
      apply (ascending_of_make ht).eq_of_mem_iff hrising
      intro v
      rw [mem_of_make ht, hothers, hmem]
    rw [← hsame]
    exact reported_eq_ok.mpr ht
  · intro v
    rw [hrising.contains_iff_mem, hmem]
  · intro v answer hanswer
    rw [Bool.eq_iff_iff, hanswer.iff_mem hrising, hrising.contains_iff_mem]
  · intro r hr
    cases hp : s.toSpan with
    | error f => exact absurd ((hfails f).mp hp) (by rw [hr]; exact nofun)
    | ok p =>
      refine ⟨fun v => (containsValue_toSpanSet hr).trans (hmem v), p, rfl, ?_⟩
      exact hrising.within_toSpan hr hp
  · intro f
    rw [hrising.toSpanSet_eq_error_iff]
    constructor
    · intro hnone
      exact ⟨s.last, (hmem _).mp s.last_mem, hnone⟩
    · rintro ⟨v, hv, hnone⟩
      rwa [← hrising.eq_last ((hmem v).mpr hv) hnone.2.1]

/-- Three neighbours, one of them twice, and the greatest value. -/
theorem neighbours_and_greatest :
    ([.clamp 3, .clamp 1, .clamp 2, .clamp 3] : List Integer) ≠ [] ∧
      (∃ s : ValueSet Integer, new [.clamp 3, .clamp 1, .clamp 2, .clamp 3] = .ok s ∧
        new [.clamp 1, .clamp 2, .clamp 3] = .ok s ∧ s.contains (.clamp 2) = true ∧
        ∃ r, s.toSpanSet = .ok r ∧ r.containsValue (.clamp 3) = true ∧
          ¬r.containsValue (.clamp 4) = true ∧ s.toSpan = .ok r.hull) ∧
      ∃ s : ValueSet Integer, new [.maximum, .clamp 0] = .ok s ∧
        ∃ cause, s.toSpanSet = .error (.refused cause 1) := by
  have hne : ([.clamp 3, .clamp 1, .clamp 2, .clamp 3] : List Integer) ≠ [] := List.cons_ne_nil _ _
  refine ⟨hne, ?_, ?_⟩
  · obtain ⟨s, hs, -, -, hothers, hcontains, -, hspans, hfails, -⟩ := sets_hold_their_values hne
    refine ⟨s, hs, hothers _ fun v => ?_, (hcontains _).mpr (by decide), ?_⟩
    · simp only [List.mem_cons, List.not_mem_nil, or_false]
      tauto
    · cases hr : s.toSpanSet with
      | error f =>
        obtain ⟨v, hv, -, hgreatest, -⟩ := (hfails f).mp hr
        have hsmall : v.val < 2 ^ 31 - 1 :=
          (by decide : ∀ v ∈ ([.clamp 3, .clamp 1, .clamp 2, .clamp 3] : List Integer),
            v.val < 2 ^ 31 - 1) v hv
        exact absurd (hgreatest .maximum) (Int.not_le.mpr hsmall)
      | ok r =>
        obtain ⟨hmembers, p, hp, -, hhull⟩ := hspans r hr
        exact ⟨r, rfl, (hmembers _).mpr (by decide), (hmembers _).not.mpr (by decide),
          hhull.symm ▸ hp⟩
  · obtain ⟨s, hs, -, -, -, -, -, -, hfails, -⟩ :=
      sets_hold_their_values (List.cons_ne_nil (.maximum : Integer) [.clamp 0])
    refine ⟨s, hs, _, (hfails _).mpr ⟨.maximum, by simp, rfl, ?_, _, rfl, rfl⟩⟩
    intro b
    exact Int.le_sub_one_of_lt b.upper

end ValueSet

end TemporalAlgebra
