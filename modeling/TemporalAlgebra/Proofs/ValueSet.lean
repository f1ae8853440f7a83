import TemporalAlgebra.Proofs.Span.Building
import TemporalAlgebra.ValueSet

/-!
# Value sets

The values of every set that can be built rise, a set contains the values that it is made of, and it
is built again from them.
-/
namespace TemporalAlgebra

namespace ValueSet

variable {α : Type} [SpanDomain α] [LawfulDomain α]

def Ascending (s : ValueSet α) : Prop :=
  s.values.Pairwise fun a b => LawfulDomain.key a < LawfulDomain.key b

/-- A set contains the values that it is made of. -/
lemma Ascending.contains_iff {s : ValueSet α} (h : s.Ascending) (x : α) :
    s.contains x = true ↔ ∃ y ∈ s.values, LawfulDomain.key y = LawfulDomain.key x := by
  unfold Ascending at h
  unfold contains
  simp only [LawfulDomain.order_eq]
  generalize s.values = values at h
  induction values with
  | nil => simp
  | cons y rest ih =>
    rw [List.dropWhile_cons]
    split
    · rename_i hlt
      rw [beq_iff_eq, compare_lt_iff_lt] at hlt
      rw [ih h.tail]
      simp only [List.mem_cons, exists_eq_or_imp]
      constructor
      · exact Or.inr
      · rintro (heq | hex)
        · omega
        · exact hex
    · rename_i hlt
      rw [beq_iff_eq, compare_lt_iff_lt] at hlt
      simp only [List.head?_cons, Option.any_some, beq_iff_eq, compare_eq_iff_eq, List.mem_cons,
        exists_eq_or_imp]
      constructor
      · exact Or.inl
      · rintro (heq | ⟨z, hz, heq⟩)
        · exact heq
        · have := List.rel_of_pairwise_cons h hz
          omega

lemma distinctAfter_ascending {current : α} {values : List α}
    (h : (current :: values).Pairwise fun a b => LawfulDomain.key a ≤ LawfulDomain.key b) :
    (current :: distinctAfter current values).Pairwise
      fun a b => LawfulDomain.key a < LawfulDomain.key b := by
  induction values generalizing current with
  | nil => exact List.pairwise_singleton _ _
  | cons x rest ih =>
    have hle : LawfulDomain.key current ≤ LawfulDomain.key x :=
      List.rel_of_pairwise_cons h (by simp)
    rw [distinctAfter]
    split
    · exact ih (h.sublist (by simp))
    · rename_i hne
      rw [LawfulDomain.order_eq, beq_iff_eq, compare_eq_iff_eq] at hne
      have hx := ih h.tail
      refine List.pairwise_cons.mpr ⟨fun y hy => ?_, hx⟩
      rcases List.mem_cons.mp hy with rfl | hy
      · omega
      · have := List.rel_of_pairwise_cons hx hy
        omega

omit [LawfulDomain α] in
lemma exists_sorted_of_make {values : List α} {s : ValueSet α} (h : make values = .ok s) :
    ∃ first rest, (values.mergeSort fun a b => SpanDomain.order a b != .gt) = first :: rest ∧
      s = ⟨first, distinctAfter first rest⟩ := by
  unfold make at h
  simp only [bind_eq_ok, orRefuse_eq_ok, pure_eq_ok] at h
  obtain ⟨s, hs, -, -, rfl⟩ := h
  unfold ofValues? at hs
  split at hs
  · cases hs
  · rename_i first rest hsorted
    exact ⟨first, rest, hsorted, (Option.some.inj hs).symm⟩

/-- Values of a domain without NaN are never refused if there are any. -/
lemma make_of_ofValues? [SuccessorDomain α] {values : List α} {s : ValueSet α}
    (h : ofValues? values = some s) : make values = .ok s := by
  have hall : values.all SpanDomain.isValid = true :=
    List.all_eq_true.mpr fun x _ => SuccessorDomain.isValid x
  unfold make
  simp only [bind_eq_ok, orRefuse_eq_ok, require_eq_ok, pure_eq_ok]
  exact ⟨s, h, (), hall, rfl⟩

lemma ascending_of_make {values : List α} {s : ValueSet α} (h : make values = .ok s) :
    s.Ascending := by
  have hsorted : (values.mergeSort fun a b => SpanDomain.order a b != .gt).Pairwise
      fun a b => (SpanDomain.order a b != .gt) = true := by
    refine List.pairwise_mergeSort (fun a b c hab hbc => ?_) (fun a b => ?_) values
    · rw [bne_iff_ne, LawfulDomain.order_eq, ne_eq, compare_gt_iff_gt] at hab hbc ⊢
      omega
    · rw [Bool.or_eq_true, bne_iff_ne, bne_iff_ne, LawfulDomain.order_eq, LawfulDomain.order_eq,
        ne_eq, ne_eq, compare_gt_iff_gt, compare_gt_iff_gt]
      omega
  obtain ⟨first, rest, heq, rfl⟩ := exists_sorted_of_make h
  rw [heq] at hsorted
  refine distinctAfter_ascending (hsorted.imp fun {a b} hab => ?_)
  rw [bne_iff_ne, LawfulDomain.order_eq, ne_eq, compare_gt_iff_gt] at hab
  omega

lemma distinctAfter_eq_self {current : α} {values : List α}
    (h : (current :: values).Pairwise fun a b => LawfulDomain.key a < LawfulDomain.key b) :
    distinctAfter current values = values := by
  induction values generalizing current with
  | nil => rfl
  | cons x rest ih =>
    have hlt : LawfulDomain.key current < LawfulDomain.key x :=
      List.rel_of_pairwise_cons h (by simp)
    rw [distinctAfter, LawfulDomain.order_eq, if_neg, ih h.tail]
    rw [beq_iff_eq, compare_eq_iff_eq]
    omega

lemma Ascending.make_eq [SuccessorDomain α] {s : ValueSet α} (h : s.Ascending) :
    make s.values = .ok s := by
  have hsorted : s.values.Pairwise fun a b => (SpanDomain.order a b != .gt) = true := by
    refine h.imp fun {a b} hab => ?_
    rw [bne_iff_ne, LawfulDomain.order_eq, ne_eq, compare_gt_iff_gt]
    omega
  refine make_of_ofValues? ?_
  unfold ofValues?
  rw [List.mergeSort_of_pairwise hsorted]
  change some (ValueSet.mk s.first (distinctAfter s.first s.rest)) = some s
  rw [distinctAfter_eq_self h]

end ValueSet

end TemporalAlgebra
