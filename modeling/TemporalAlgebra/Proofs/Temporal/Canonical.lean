import TemporalAlgebra.Proofs.Temporal.Rebuilding
import TemporalAlgebra.Proofs.Temporal.Assembly

/-!
# Values that are built again as they are

A value is canonical if building it again from its instants, or from its sequences, leaves it as it
is: no instant adds nothing and no two sequences can be joined. Whatever is built with normalising
is canonical, so that building again changes nothing.
-/
namespace TemporalAlgebra

variable {V : Type} [TemporalValue V]

namespace Sequence

lemma redundant_congr {interp : Interpolation} (h : interp ≠ .linear) (a m b c : Instant V) :
    redundant interp a m b = redundant interp a m c := by
  cases interp with
  | discrete => rfl
  | step => rfl
  | linear => exact absurd rfl h

lemma kept_kept {interp : Interpolation} (h : interp ≠ .linear) (a : Instant V)
    (rest : List (Instant V)) : kept interp a (kept interp a rest) = kept interp a rest := by
  fun_induction kept interp a rest with
  | case1 a => rfl
  | case2 a m => rfl
  | case3 a m b rest hr ih => exact ih
  | case4 a m b rest hr ih =>
    obtain ⟨n, found, hfound⟩ := List.exists_cons_of_ne_nil
      (kept_ne_nil interp m (List.cons_ne_nil b rest))
    have hdrops : drops interp a m n = drops interp a m b := by
      unfold drops
      rw [redundant_congr h a m n b]
    rw [hfound] at ih ⊢
    rw [kept, hdrops, if_neg hr, ih]

/-- Building the sequence again from its instants leaves it as it is. -/
structure Canonical (s : Sequence V) : Prop where
  wellFormed : s.WellFormed
  rebuilt_eq : s.rebuilt = s
  normalize_eq : normalize s.interp s.first s.rest = .ok s.rest

lemma Canonical.make_eq {s : Sequence V} (h : s.Canonical) :
    make s.instants s.lowerInc s.upperInc s.interp true = .ok s := by
  change makeRun s.first s.rest s.lowerInc s.upperInc s.interp true = .ok s
  unfold makeRun
  rw [check_bind_eq_ok]
  refine ⟨h.wellFormed, ?_⟩
  rw [if_pos rfl, bind_of_ok h.normalize_eq, pure_eq_ok]
  exact h.rebuilt_eq

variable [StepValue V]

lemma canonical_ofRun {first : Instant V} {run : List (Instant V)} {lowerInc upperInc : Bool}
    {interp : Interpolation}
    (h : (ofRun first (kept interp first run) lowerInc upperInc interp).WellFormed) :
    (ofRun first (kept interp first run) lowerInc upperInc interp).Canonical := by
  have hlinear := h.interp_ne_linear
  refine ⟨h, rfl, ?_⟩
  have hdone := completes_normalize h.rising fun hl => absurd hl hlinear
  exact (normalize_eq_ok_iff.mpr hdone).trans (congrArg _ (kept_kept hlinear first run))

lemma canonical_of_make {instants : List (Instant V)} {lowerInc upperInc : Bool}
    {interp : Interpolation} {s : Sequence V}
    (h : make instants lowerInc upperInc interp true = .ok s) : s.Canonical := by
  have hwf := wellFormed_of_make h
  cases instants with
  | nil => simp [make] at h
  | cons first rest =>
    obtain ⟨-, -, rfl⟩ := makeRun_eq_ok_iff.mp h
    exact canonical_ofRun hwf

lemma instants_subset_of_make {instants : List (Instant V)} {lowerInc upperInc : Bool}
    {interp : Interpolation} {s : Sequence V}
    (h : make instants lowerInc upperInc interp true = .ok s) :
    ∀ i ∈ s.instants, i ∈ instants := by
  cases instants with
  | nil => simp [make] at h
  | cons first rest => exact (builtFrom_of_makeRun h).instants_subset

end Sequence

namespace SequenceSet

open Sequence

structure Canonical (s : SequenceSet V) : Prop where
  wellFormed : s.WellFormed
  sequences : ∀ x ∈ s.sequences, x.Canonical
  ofRun_eq : ofRun s.first s.rest = s
  join_eq : join s.first s.rest = .ok (s.first, s.rest)

lemma WellFormed.make_eq {s : SequenceSet V} (h : s.WellFormed) (hrun : ofRun s.first s.rest = s)
    (hjoin : join s.first s.rest = .ok (s.first, s.rest)) : make s.sequences true = .ok s := by
  exact make_cons_eq_ok_iff.mpr ⟨h.kinds, h.rising, _, hjoin, hrun⟩

lemma Canonical.make_eq {s : SequenceSet V} (h : s.Canonical) : make s.sequences true = .ok s :=
  h.wellFormed.make_eq h.ofRun_eq h.join_eq

/-- Whether two sequences can be joined depends on the second one only by its start. -/
lemma joined_eq_none_congr {a b c : Sequence V} (hfirst : c.first = b.first)
    (hlower : c.lowerInc = b.lowerInc) (h : joined a b = none) : joined a c = none := by
  unfold joined at h ⊢
  rw [hfirst, hlower]
  split at h
  · next htouch =>
    rw [if_pos htouch]
    split at h
    · simp at h
    · next hstep =>
      rw [if_neg hstep]
      split at h
      · simp at h
      · next hvalue => rw [if_neg hvalue]
  · next htouch => rw [if_neg htouch]

lemma first_of_joined {a b : Sequence V} {first : Instant V} {run : List (Instant V)}
    (h : joined a b = some (first, run)) : first = a.first := by
  unfold joined at h
  split at h
  · split at h
    · exact (Prod.mk.inj (Option.some.inj h)).1.symm
    · split at h
      · exact (Prod.mk.inj (Option.some.inj h)).1.symm
      · simp at h
  · simp at h

/-- What comes out of joining starts like the first sequence, and no two neighbours in it can be
joined any more. -/
lemma isChain_of_join [LawfulValue V] {a : Sequence V} {rest : List (Sequence V)}
    {first : Sequence V} {more : List (Sequence V)} (h : join a rest = .ok (first, more)) :
    (first.first = a.first ∧ first.lowerInc = a.lowerInc) ∧
      (first :: more).IsChain fun x y => joined x y = none := by
  induction rest generalizing a first more with
  | nil =>
    cases h
    exact ⟨⟨rfl, rfl⟩, List.isChain_singleton a⟩
  | cons b rest ih =>
    cases hj : joined a b with
    | some found =>
      obtain ⟨start, run⟩ := found
      obtain ⟨-, s, hs, h⟩ := (join_eq_ok_of_joined hj).mp h
      obtain ⟨-, -, rfl⟩ := makeRun_eq_ok_iff.mp hs
      obtain ⟨⟨hfirst, hlower⟩, hchain⟩ := ih h
      exact ⟨⟨hfirst.trans (first_of_joined hj), hlower⟩, hchain⟩
    | none =>
      obtain ⟨next, others, hnext, hfound⟩ := (join_eq_ok_of_not_joined hj).mp h
      obtain ⟨rfl, rfl⟩ := Prod.mk.inj hfound
      obtain ⟨⟨hfirst, hlower⟩, hchain⟩ := ih hnext
      exact ⟨⟨rfl, rfl⟩, List.isChain_cons_cons.mpr
        ⟨joined_eq_none_congr hfirst hlower hj, hchain⟩⟩

lemma isChain_of_make [LawfulValue V] {pieces : List (Sequence V)} {set : SequenceSet V}
    (h : make pieces true = .ok set) :
    ofRun set.first set.rest = set ∧ set.sequences.IsChain fun x y => joined x y = none := by
  obtain ⟨first, rest, rfl⟩ := exists_cons_of_make h
  obtain ⟨-, -, ⟨found, more⟩, hjoin, rfl⟩ := make_cons_eq_ok_iff.mp h
  exact ⟨rfl, (isChain_of_join hjoin).2⟩

lemma canonical_of_join [StepValue V] {a : Sequence V} {rest : List (Sequence V)}
    {first : Sequence V} {more : List (Sequence V)} (hc : ∀ s ∈ a :: rest, s.Canonical)
    (h : join a rest = .ok (first, more)) : ∀ s ∈ first :: more, s.Canonical := by
  induction rest generalizing a first more with
  | nil =>
    cases h
    exact hc
  | cons b rest ih =>
    rw [List.forall_mem_cons] at hc
    obtain ⟨ha, hc⟩ := hc
    cases hj : joined a b with
    | some found =>
      obtain ⟨-, s, hs, h⟩ := (join_eq_ok_of_joined hj).mp h
      have hwf := (builtFrom_of_makeRun hs).wellFormed
      obtain ⟨-, -, rfl⟩ := makeRun_eq_ok_iff.mp hs
      exact ih (List.forall_mem_cons.mpr ⟨canonical_ofRun hwf,
        (List.forall_mem_cons.mp hc).2⟩) h
    | none =>
      obtain ⟨next, others, hnext, hfound⟩ := (join_eq_ok_of_not_joined hj).mp h
      obtain ⟨rfl, rfl⟩ := Prod.mk.inj hfound
      exact List.forall_mem_cons.mpr ⟨ha, ih hc hnext⟩

lemma canonical_of_make [StepValue V] {pieces : List (Sequence V)} {set : SequenceSet V}
    (hc : ∀ s ∈ pieces, s.Canonical) (h : make pieces true = .ok set) : set.Canonical := by
  have hwf := wellFormed_of_make (fun s hs => (hc s hs).wellFormed) h
  obtain ⟨hrun, hchain⟩ := isChain_of_make h
  obtain ⟨first, rest, rfl⟩ := exists_cons_of_make h
  obtain ⟨-, -, ⟨found, more⟩, hjoin, rfl⟩ := make_cons_eq_ok_iff.mp h
  exact ⟨hwf, canonical_of_join hc hjoin, hrun, join_eq_self hchain⟩

lemma instants_subset_of_make [LawfulValue V] {pieces : List (Sequence V)} {set : SequenceSet V}
    (hwf : ∀ s ∈ pieces, s.WellFormed) (h : make pieces true = .ok set) :
    ∀ s ∈ set.sequences, ∀ i ∈ s.instants, ∃ p ∈ pieces, i ∈ p.instants := by
  obtain ⟨first, rest, rfl⟩ := exists_cons_of_make h
  obtain ⟨htrain, hcompat⟩ := train_of_make_eq_ok hwf h
  obtain ⟨set', hset, -, hgathers⟩ := make_spec htrain hcompat (.of_eq_ok h)
  obtain rfl : set = set' := Except.ok.inj (h.symm.trans hset)
  exact hgathers.instants_subset

end SequenceSet

def Temporal.Canonical : Temporal V → Prop
  | instant _ => True
  | sequence s => s.Canonical
  | sequenceSet s => s.Canonical

end TemporalAlgebra
