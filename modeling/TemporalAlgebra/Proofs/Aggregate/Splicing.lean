import TemporalAlgebra.Proofs.Aggregate.Merging
import TemporalAlgebra.Proofs.SkipList

/-!
# Splicing pieces into a row

The state of an aggregate keeps its pieces in a skip list, in order of time. Pieces that are spliced
in are merged with those between the first and the last of them; all others are apart from the new
ones and stay as they are.
-/
namespace TemporalAlgebra

namespace Aggregator

open Sequence

variable {V : Type} [TemporalValue V] {interp : Interpolation} {a b : Sequence V}

section

variable [LawfulValue V]

lemma orderPieces_cases (ha : a.WellFormed) (hb : b.WellFormed) :
    a.Before b ∧ orderPieces a b = .lt ∨ b.Before a ∧ orderPieces a b = .gt ∨
      ¬a.Before b ∧ ¬b.Before a ∧ orderPieces a b = .eq := by
  have hla : a.period.lo ≤ a.period.hi := ha.lo_le_hi
  have hlb : b.period.lo ≤ b.period.hi := hb.lo_le_hi
  have hab : a.Before b ↔ a.period.hi < b.period.lo := Iff.rfl
  have hba : b.Before a ↔ b.period.hi < a.period.lo := Iff.rfl
  rw [hab, hba]
  unfold orderPieces
  split
  · rename_i hov
    rw [Span.overlaps_iff] at hov
    exact Or.inr (Or.inr ⟨by omega, by omega, rfl⟩)
  · rename_i hov
    rw [Span.overlaps_iff] at hov
    rw [Span.order_eq_then]
    rcases lt_trichotomy a.period.lo b.period.lo with h | h | h
    · rw [compare_lt_iff_lt.mpr h]
      exact Or.inl ⟨by omega, rfl⟩
    · omega
    · rw [compare_gt_iff_gt.mpr h]
      exact Or.inr (Or.inl ⟨by omega, rfl⟩)

lemma orderPieces_eq_lt_iff (ha : a.WellFormed) (hb : b.WellFormed) :
    orderPieces a b = .lt ↔ a.Before b := by
  rcases orderPieces_cases ha hb with ⟨h, heq⟩ | ⟨h, heq⟩ | ⟨h, -, heq⟩
  · exact iff_of_true heq h
  · refine iff_of_false (by rw [heq]; simp) fun h' => ?_
    have := ha.lo_le_hi
    have := hb.lo_le_hi
    unfold Before at h h'
    omega
  · exact iff_of_false (by rw [heq]; simp) h

lemma before_of_orderPieces_eq_gt (ha : a.WellFormed) (hb : b.WellFormed)
    (h : orderPieces a b = .gt) : b.Before a := by
  rcases orderPieces_cases ha hb with ⟨-, heq⟩ | ⟨hba, -⟩ | ⟨-, -, heq⟩
  · rw [heq] at h
    cases h
  · exact hba
  · rw [heq] at h
    cases h

end

/-- A skip list of kept pieces. -/
structure Row (interp : Interpolation) (s : SkipList (Sequence V)) : Prop where
  order_eq : s.order = orderPieces
  linked : ∀ t ∈ s.towers, 1 ≤ t.height
  kept : Kept interp s.toList

variable [LawfulValue V] {s s' : SkipList (Sequence V)} {p : Sequence V}

lemma searched_of_kept {pieces : List (Sequence V)} (h : Kept interp pieces) (hp : p.WellFormed) :
    pieces.Pairwise fun a b => orderPieces b p = .lt → orderPieces a p = .lt := by
  refine h.rising.imp_of_mem fun {a b} ha hb hab hlt => ?_
  rw [orderPieces_eq_lt_iff (h.wellFormed b hb) hp] at hlt
  rw [orderPieces_eq_lt_iff (h.wellFormed a ha) hp]
  have := (h.wellFormed b hb).lo_le_hi
  unfold Before at hab hlt ⊢
  omega

omit [LawfulValue V] in
lemma kept_of_perm {old new pieces : List (Sequence V)} (ho : Kept interp old)
    (hn : Kept interp new) (hperm : pieces.Perm (old ++ new)) (hr : pieces.Pairwise Before) :
    Kept interp pieces := by
  have hmem : ∀ q ∈ pieces, q ∈ old ∨ q ∈ new := fun q hq =>
    List.mem_append.mp (hperm.mem_iff.mp hq)
  refine ⟨fun q hq => ?_, fun q hq => ?_, hr, fun hd q hq => ?_⟩
  · exact (hmem q hq).elim (ho.wellFormed q) (hn.wellFormed q)
  · exact (hmem q hq).elim (ho.interp_eq q) (hn.interp_eq q)
  · exact (hmem q hq).elim (ho.single hd q) (hn.single hd q)

lemma bounds_of_occupies {first : Sequence V} {more : List (Sequence V)}
    (h : Kept interp (first :: more)) {n : Int} (hn : Occupies (first :: more) n) :
    first.lo ≤ n ∧ n ≤ (more.getLastD first).hi := by
  induction more generalizing first n with
  | nil =>
    rcases occupies_cons.mp hn with hn | hn
    · exact (h.wellFormed first (by simp)).mem_period hn
    · exact absurd hn not_occupies_nil
  | cons b rest ih =>
    have hb := h.tail.wellFormed b (by simp)
    have hlast := (ih h.tail (occupies_cons.mpr (Or.inl hb.covers_lo))).2
    have hfirst := (h.wellFormed first (by simp)).lo_le_hi
    have hbefore : first.Before b := List.rel_of_pairwise_cons h.rising (by simp)
    unfold Before at hbefore
    rw [List.getLastD_cons]
    rcases occupies_cons.mp hn with hn | hn
    · have := (h.wellFormed first (by simp)).mem_period hn
      omega
    · have := ih h.tail hn
      omega

/-- Around a run of kept pieces and the new ones it is merged with lie the other ones. -/
lemma around_run {before run beyond more : List (Sequence V)} {first : Sequence V}
    (hk : Kept interp (before ++ (run ++ beyond))) (hn : Kept interp (first :: more))
    (hbefore : ∀ q ∈ before, q.Before first)
    (hbeyond : ∀ q ∈ beyond.head?, (more.getLastD first).Before q) (n : Int)
    (hocc : Occupies run n ∨ Occupies (first :: more) n) :
    (∀ q ∈ before, q.hi < n) ∧ ∀ q ∈ beyond, n < q.lo := by
  obtain ⟨-, hright, hleft⟩ := List.pairwise_append.mp hk.rising
  obtain ⟨-, hrising, hcross⟩ := List.pairwise_append.mp hright
  have hall : ∀ q ∈ beyond, (more.getLastD first).Before q := by
    cases beyond with
    | nil => simp
    | cons b rest =>
      have hb := hbeyond b rfl
      intro q hq
      rcases List.mem_cons.mp hq with rfl | hq
      · exact hb
      · have hbq : b.Before q := List.rel_of_pairwise_cons hrising hq
        have := (hk.wellFormed b (by simp)).lo_le_hi
        unfold Before at hb hbq ⊢
        omega
  rcases hocc with ⟨r, hr, hrn⟩ | hnew
  · have hbounds := (hk.wellFormed r (by simp [hr])).mem_period hrn
    refine ⟨fun q hq => ?_, fun q hq => ?_⟩
    · have hqr := hleft q hq r (by simp [hr])
      unfold Before at hqr
      omega
    · have hrq := hcross r hr q hq
      unfold Before at hrq
      omega
  · have hbounds := bounds_of_occupies hn hnew
    refine ⟨fun q hq => ?_, fun q hq => ?_⟩
    · have hq' := hbefore q hq
      unfold Before at hq'
      omega
    · have hq' := hall q hq
      unfold Before at hq'
      omega

namespace Row

lemma searchable (h : Row interp s) (hp : p.WellFormed) : s.Searchable p := by
  refine ⟨h.linked, ?_⟩
  have hsearched := searched_of_kept h.kept hp
  unfold SkipList.toList at hsearched
  rw [List.pairwise_map] at hsearched
  refine hsearched.imp fun {t u} htu => ?_
  unfold SkipList.precedes
  rw [h.order_eq, beq_iff_eq, beq_iff_eq]
  exact htu

/-- A piece apart from all others is linked in its place. -/
lemma link (h : Row interp s) (hp : Kept interp [p])
    (hapart : ∀ q ∈ s.toList, q.Before p ∨ p.Before q) :
    Row interp (s.link p) ∧ (s.link p).toList.Perm (s.toList ++ [p]) := by
  have hwf := hp.wellFormed p (by simp)
  have hlist := SkipList.toList_link (h.searchable hwf)
  rw [h.order_eq] at hlist
  have hperm : (s.link p).toList.Perm (s.toList ++ [p]) := by
    rw [hlist]
    refine List.perm_middle.trans ?_
    rw [List.takeWhile_append_dropWhile]
    exact (List.perm_append_singleton p s.toList).symm
  have hbefore : ∀ q ∈ s.toList.takeWhile (fun a => orderPieces a p == .lt), q.Before p := by
    intro q hq
    have hlt := List.all_eq_true.mp List.all_takeWhile q hq
    exact (orderPieces_eq_lt_iff (h.kept.wellFormed q (List.takeWhile_subset _ hq)) hwf).mp
      (beq_iff_eq.mp hlt)
  have hafter : ∀ q ∈ s.toList.dropWhile (fun a => orderPieces a p == .lt), p.Before q := by
    intro q hq
    have hmem := List.dropWhile_subset _ hq
    have hge := SkipList.not_lt_of_mem_dropWhile (searched_of_kept h.kept hwf) hq
    rw [ne_eq, orderPieces_eq_lt_iff (h.kept.wellFormed q hmem) hwf] at hge
    exact (hapart q hmem).resolve_left hge
  refine ⟨⟨h.order_eq, SkipList.link_linked (h.searchable hwf),
    kept_of_perm h.kept hp hperm ?_⟩, hperm⟩
  rw [hlist, List.pairwise_append, List.pairwise_cons]
  refine ⟨h.kept.rising.sublist (List.takeWhile_sublist _),
    ⟨hafter, h.kept.rising.sublist (List.dropWhile_sublist _)⟩, fun q hq r hr => ?_⟩
  rcases List.mem_cons.mp hr with rfl | hr
  · exact hbefore q hq
  · have hqp := hbefore q hq
    have hpr := hafter r hr
    have := hwf.lo_le_hi
    unfold Before at hqp hpr ⊢
    omega

lemma foldl_link {pieces : List (Sequence V)} (h : Row interp s) (hk : Kept interp pieces)
    (hapart : ∀ q ∈ s.toList, ∀ p ∈ pieces, q.Before p ∨ p.Before q) :
    Row interp (pieces.foldl SkipList.link s) ∧
      (pieces.foldl SkipList.link s).toList.Perm (s.toList ++ pieces) := by
  induction pieces generalizing s with
  | nil => exact ⟨h, by simp⟩
  | cons p rest ih =>
    obtain ⟨hrow, hperm⟩ := h.link (hk.sublist (by simp)) fun q hq => hapart q hq p (by simp)
    have hnext : ∀ q ∈ (s.link p).toList, ∀ r ∈ rest, q.Before r ∨ r.Before q := by
      intro q hq r hr
      rcases List.mem_append.mp (hperm.mem_iff.mp hq) with hq | hq
      · exact hapart q hq r (by simp [hr])
      · obtain rfl := List.mem_singleton.mp hq
        exact Or.inl (List.rel_of_pairwise_cons hk.rising hr)
    obtain ⟨hrow', hperm'⟩ := ih hrow hk.tail hnext
    refine ⟨hrow', hperm'.trans ?_⟩
    rw [List.append_cons]
    exact hperm.append_right rest

/-- Spliced into a row, pieces are merged with those that are there. -/
theorem splice {combine : V → V → Result V} {new : List (Sequence V)}
    {merge : List (Sequence V) → List (Sequence V) → Result (List (Sequence V))}
    (h : Row interp s) (hn : Kept interp new)
    (hmerge : ∀ old found, Kept interp old → old ≠ [] → new ≠ [] → merge old new = .ok found →
      Kept interp found ∧ Combines combine old new found)
    (hok : s.splice new merge = .ok s') :
    Row interp s' ∧ Combines combine s.toList new s'.toList := by
  cases new with
  | nil =>
    obtain rfl := Except.ok.inj hok
    exact ⟨h, Combines.nil_right⟩
  | cons first more =>
    have hfirst := hn.wellFormed first (by simp)
    obtain ⟨run, beyond, merged, left, hlist, hout, hcases, hleft, hlinked, hrest, rfl⟩ :=
      SkipList.splice_eq_ok (h.searchable hfirst) hok
    rw [h.order_eq] at hlist hout hleft hrest
    generalize hbefore : (s.toList.takeWhile fun a => orderPieces a first == .lt) = before at *
    have hkept := h.kept
    rw [hlist] at hkept
    obtain ⟨hm, hc⟩ : Kept interp merged ∧ Combines combine run (first :: more) merged := by
      rcases hcases with ⟨rfl, rfl⟩ | ⟨hrun, hmerged⟩
      · exact ⟨hn, Combines.nil_left⟩
      · exact hmerge run merged (hkept.sublist ((List.sublist_append_left run beyond).trans
          (List.sublist_append_right before _))) hrun (by simp) hmerged
    have hfront : ∀ q ∈ before, q.Before first := by
      intro q hq
      rw [← hbefore] at hq
      exact (orderPieces_eq_lt_iff (h.kept.wellFormed q (List.takeWhile_subset _ hq)) hfirst).mp
        (beq_iff_eq.mp (List.all_eq_true.mp List.all_takeWhile q hq))
    have hback : ∀ q ∈ beyond.head?, (more.getLastD first).Before q := fun q hq =>
      before_of_orderPieces_eq_gt (hkept.wellFormed q (by simp [List.mem_of_mem_head? hq]))
        (hn.wellFormed _ List.getLastD_mem_cons) (hout q hq)
    have haround := around_run hkept hn hfront hback
    have hrow : Row interp left := ⟨hleft, hlinked, hrest ▸ hkept.sublist
      ((List.sublist_append_right run beyond).append_left before)⟩
    obtain ⟨hrow', hperm⟩ := hrow.foldl_link hm fun q hq p hp => by
      rw [hrest, List.mem_append] at hq
      have hlo := (hc.occupies_iff p.lo).mp ⟨p, hp, (hm.wellFormed p hp).covers_lo⟩
      have hhi := (hc.occupies_iff p.hi).mp
        ⟨p, hp, (hm.covers_iff hp _).mpr ⟨(hm.wellFormed p hp).lo_le_hi, le_refl _⟩⟩
      exact hq.imp ((haround p.lo hlo).1 q) ((haround p.hi hhi).2 q)
    have hapart : ∀ n, Occupies (before ++ beyond) n → ¬Occupies (first :: more) n := by
      rintro n ⟨q, hq, hqn⟩ hnew
      rcases List.mem_append.mp hq with hq | hq
      · have := (hkept.covers_iff (by simp [hq]) n).mp hqn
        have := (haround n (Or.inr hnew)).1 q hq
        omega
      · have := (hkept.covers_iff (by simp [hq]) n).mp hqn
        have := (haround n (Or.inr hnew)).2 q hq
        omega
    refine ⟨hrow', (hc.frame hapart).congr (fun n x => ?_) (fun _ _ => Iff.rfl) fun n x => ?_⟩
    · rw [hlist, yields_append, yields_append, yields_append, yields_append]
      tauto
    · rw [yields_perm hperm, hrest]

end Row

end Aggregator

end TemporalAlgebra
