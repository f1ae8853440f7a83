import Mathlib.Data.Nat.Find
import TemporalAlgebra.Proofs.Number.Order
import TemporalAlgebra.Proofs.Temporal.TimeRestriction
import TemporalAlgebra.Temporal.Simplify

/-!
# Simplification within a tolerance

A run of instants is refined segment by segment, in an order that has nothing to do with time. Every
pending segment joins two neighbours among the instants that stay, and every other two neighbours
are settled: no instant between them is farther than the tolerance from their segment. When nothing
is pending, this holds of all instants that are dropped. The first and the last one stay, so that a
linear sequence keeps its period, its bounds and its interpolation.
-/
namespace TemporalAlgebra

open Binary64

/-- Two marked places without a marked one between them. -/
structure Consecutive (keep : List Bool) (i j : Nat) : Prop where
  lt : i < j
  left : keep[i]? = some true
  right : keep[j]? = some true
  between : ∀ k, i < k → k < j → keep[k]? = some false

namespace Consecutive

variable {keep : List Bool} {i j k l : Nat}

lemma le_or_le (h : Consecutive keep i j) (hk : keep[k]? = some true) : k ≤ i ∨ j ≤ k := by
  by_contra hn
  rw [not_or, not_le, not_le] at hn
  have := h.between k hn.1 hn.2
  rw [hk] at this
  cases this

lemma unique {i' j' : Nat} (h : Consecutive keep i j) (h' : Consecutive keep i' j')
    (hi : i < k) (hj : k < j) (hi' : i' < k) (hj' : k < j') : i = i' ∧ j = j' := by
  have := h.le_or_le h'.left
  have := h.le_or_le h'.right
  have := h'.le_or_le h.left
  have := h'.le_or_le h.right
  omega

lemma getElem?_set_self (hk : keep[k]? = some false) : (keep.set k true)[k]? = some true := by
  obtain ⟨hlt, -⟩ := List.getElem?_eq_some_iff.mp hk
  exact List.getElem?_set_self hlt

/-- Marking a place between two consecutive ones makes two segments of one. -/
lemma split (h : Consecutive keep i j) (hi : i < k) (hj : k < j) :
    Consecutive (keep.set k true) i k ∧ Consecutive (keep.set k true) k j := by
  have hk := getElem?_set_self (h.between k hi hj)
  refine ⟨⟨hi, ?_, hk, fun l hl hl' => ?_⟩, ⟨hj, hk, ?_, fun l hl hl' => ?_⟩⟩
  · rw [List.getElem?_set_ne (by omega)]
    exact h.left
  · rw [List.getElem?_set_ne (by omega)]
    exact h.between l hl (by omega)
  · rw [List.getElem?_set_ne (by omega)]
    exact h.right
  · rw [List.getElem?_set_ne (by omega)]
    exact h.between l (by omega) hl'

lemma set (h : Consecutive keep i j) (hk : keep[k]? = some false) (hout : ¬(i < k ∧ k < j)) :
    Consecutive (keep.set k true) i j := by
  have hne : ∀ l, keep[l]? = some true → k ≠ l := by
    rintro l hl rfl
    rw [hk] at hl
    cases hl
  refine ⟨h.lt, ?_, ?_, fun l hl hl' => ?_⟩
  · rw [List.getElem?_set_ne (hne i h.left)]
    exact h.left
  · rw [List.getElem?_set_ne (hne j h.right)]
    exact h.right
  · have hne' : k ≠ l := by
      rintro rfl
      exact hout ⟨hl, hl'⟩
    rw [List.getElem?_set_ne hne']
    exact h.between l hl hl'

lemma of_set (h : Consecutive (keep.set k true) i j) (hk : keep[k]? = some false) (hi : i ≠ k)
    (hj : j ≠ k) : Consecutive keep i j := by
  refine ⟨h.lt, ?_, ?_, fun l hl hl' => ?_⟩
  · have := h.left
    rwa [List.getElem?_set_ne hi.symm] at this
  · have := h.right
    rwa [List.getElem?_set_ne hj.symm] at this
  · have hb := h.between l hl hl'
    have hne : k ≠ l := by
      rintro rfl
      rw [getElem?_set_self hk] at hb
      cases hb
    rwa [List.getElem?_set_ne hne] at hb

/-- After a split a segment is one of the two parts of the old one, or was there before. -/
lemma of_split {i' j' : Nat} (h : Consecutive keep i j) (hi : i < k) (hj : k < j)
    (hc : Consecutive (keep.set k true) i' j') :
    (i', j') = (k, j) ∨ (i', j') = (i, k) ∨ Consecutive keep i' j' ∧ (i', j') ≠ (i, j) := by
  obtain ⟨hleft, hright⟩ := h.split hi hj
  have hlt := hc.lt
  by_cases hi' : i' = k
  · subst hi'
    have := hc.le_or_le hright.right
    have := hright.le_or_le hc.right
    obtain rfl : j' = j := by omega
    exact Or.inl rfl
  by_cases hj' : j' = k
  · subst hj'
    have := hc.le_or_le hleft.left
    have := hleft.le_or_le hc.left
    obtain rfl : i' = i := by omega
    exact Or.inr (Or.inl rfl)
  refine Or.inr (Or.inr ⟨hc.of_set (h.between k hi hj) hi' hj', fun heq => ?_⟩)
  obtain ⟨rfl, rfl⟩ := Prod.mk.inj heq
  rcases hc.le_or_le hleft.right with hle | hle <;> omega

lemma exists_around (hfirst : keep[0]? = some true) (hlast : keep[l]? = some true)
    (hk : keep[k]? = some false) (hle : k ≤ l) : ∃ i j, i < k ∧ k < j ∧ Consecutive keep i j := by
  have hne : ∀ m, keep[m]? = some true → m ≠ k := by
    rintro m hm rfl
    rw [hk] at hm
    cases hm
  have hright : ∃ j, k < j ∧ keep[j]? = some true :=
    ⟨l, lt_of_le_of_ne hle (hne l hlast).symm, hlast⟩
  have hi := Nat.findGreatest_spec (P := fun i => keep[i]? = some true) (Nat.zero_le k) hfirst
  obtain ⟨hj, hj'⟩ := Nat.find_spec hright
  have hik := lt_of_le_of_ne (Nat.findGreatest_le k) (hne _ hi)
  refine ⟨_, _, hik, hj, hik.trans hj, hi, hj', fun m hm hm' => ?_⟩
  have hnot : keep[m]? ≠ some true := by
    intro hmark
    rcases Nat.lt_or_ge k m with hkm | hkm
    · exact Nat.find_min hright hm' ⟨hkm, hmark⟩
    · exact Nat.findGreatest_is_greatest hm hkm hmark
  obtain ⟨hlen, -⟩ := List.getElem?_eq_some_iff.mp hj'
  rw [List.getElem?_eq_getElem (by omega)] at hnot ⊢
  simpa using hnot

end Consecutive

/-- Of some places the farthest one is found if the distances of all of them are told. -/
lemma farthest_spec {distance : Nat → Result Float} {eps : Float} {best found : Nat × Float}
    {places : List Nat} (h : farthest distance best places = .ok found)
    (hbest : shape best.2 ≠ .notANumber) :
    (eps < best.2 → eps < found.2) ∧
      ∀ k ∈ places, ∃ d, distance k = .ok d ∧ (eps < d → eps < found.2) := by
  induction places generalizing best with
  | nil =>
    obtain rfl := Except.ok.inj h
    exact ⟨id, by simp⟩
  | cons k rest ih =>
    rw [farthest, bind_eq_ok] at h
    obtain ⟨d, hd, h⟩ := h
    rw [List.forall_mem_cons]
    by_cases hlt : best.2 < d
    · rw [if_pos hlt] at h
      obtain ⟨hfar, hrest⟩ := ih h (not_nan_of_lt hlt).2
      exact ⟨fun heps => hfar (Binary64.lt_trans heps hlt), ⟨d, hd, hfar⟩, hrest⟩
    · rw [if_neg hlt] at h
      obtain ⟨hfar, hrest⟩ := ih h hbest
      exact ⟨hfar, ⟨d, hd, fun heps => hfar (lt_of_lt_of_not_lt heps hbest hlt)⟩, hrest⟩

lemma not_lt_of_farthestBetween {distance : Nat → Result Float} {eps : Float} {i j k : Nat}
    {found : Nat × Float} (hfound : farthestBetween distance i j = .ok found)
    (h : ¬eps < found.2) (hi : i < k) (hj : k < j) : ∃ d, distance k = .ok d ∧ ¬eps < d := by
  have hnan : shape (-Binary64.infinity) ≠ .notANumber :=
    (beq_self_iff _).mp (by decide +kernel)
  have hmem : k ∈ List.range' (i + 1) (j - (i + 1)) := by
    rw [List.mem_range'_1]
    omega
  obtain ⟨d, hd, hfar⟩ : ∃ d, distance k = .ok d ∧ (eps < d → eps < found.2) :=
    (farthest_spec hfound hnan).2 k hmem
  exact ⟨d, hd, fun hlt => h (hfar hlt)⟩

namespace Refinement

variable {eps : Float} {distance : Nat → Nat → Nat → Result Float} {n : Nat} {r t : Refinement}

/-- No place within a segment is farther from it than the tolerance. -/
def Settled (eps : Float) (distance : Nat → Nat → Nat → Result Float) (i j : Nat) : Prop :=
  ∀ k, i < k → k < j → ∃ d, distance i j k = .ok d ∧ ¬eps < d

/-- Pending segments are distinct and consecutive, and the other consecutive ones are settled. The
first and the last of `n + 1` places are marked. -/
structure Sound (eps : Float) (distance : Nat → Nat → Nat → Result Float) (n : Nat)
    (r : Refinement) : Prop where
  length_eq : r.keep.length = n + 1
  first : r.keep[0]? = some true
  last : r.keep[n]? = some true
  nodup : r.pending.Nodup
  consecutive : ∀ p ∈ r.pending, Consecutive r.keep p.1 p.2
  settled : ∀ i j, Consecutive r.keep i j → (i, j) ∈ r.pending ∨ Settled eps distance i j

lemma Sound.pop {i j : Nat} {pending : List (Nat × Nat)} {keep : List Bool}
    (h : Sound eps distance n ⟨(i, j) :: pending, keep⟩) (hs : Settled eps distance i j) :
    Sound eps distance n ⟨pending, keep⟩ := by
  refine ⟨h.length_eq, h.first, h.last, (List.nodup_cons.mp h.nodup).2,
    fun p hp => h.consecutive p (List.mem_cons_of_mem _ hp), fun i' j' hc => ?_⟩
  rcases h.settled i' j' hc with hp | hset
  · rcases List.mem_cons.mp hp with heq | hp
    · obtain ⟨rfl, rfl⟩ := Prod.mk.inj heq
      exact Or.inr hs
    · exact Or.inl hp
  · exact Or.inr hset

/-- Where a segment is split, both of its parts are pending. -/
lemma Sound.split {i j k : Nat} {pending : List (Nat × Nat)} {keep : List Bool}
    (h : Sound eps distance n ⟨(i, j) :: pending, keep⟩) (hi : i < k) (hj : k < j) :
    Sound eps distance n ⟨(k, j) :: (i, k) :: pending, keep.set k true⟩ := by
  have hij : Consecutive keep i j := h.consecutive (i, j) (List.mem_cons_self ..)
  have hk := hij.between k hi hj
  obtain ⟨hleft, hright⟩ := hij.split hi hj
  obtain ⟨hnot, hnodup⟩ := List.nodup_cons.mp h.nodup
  have hne : ∀ l : Nat, keep[l]? = some true → k ≠ l := by
    rintro l hl rfl
    rw [hk] at hl
    cases hl
  have hold : ∀ p ∈ pending, Consecutive keep p.1 p.2 := fun p hp =>
    h.consecutive p (List.mem_cons_of_mem _ hp)
  refine ⟨(List.length_set ..).trans h.length_eq, ?_, ?_, ?_, fun p hp => ?_, fun i' j' hc => ?_⟩
  · exact (List.getElem?_set_ne (hne 0 h.first)).trans h.first
  · exact (List.getElem?_set_ne (hne n h.last)).trans h.last
  · -- no old segment ends at the place that was not marked
    have hstart : (k, j) ∉ pending := fun hp => hne k (hold _ hp).left rfl
    have hend : (i, k) ∉ pending := fun hp => hne k (hold _ hp).right rfl
    have hparts : (k, j) ≠ (i, k) := fun heq => hi.ne' (Prod.mk.inj heq).1
    exact List.nodup_cons.mpr ⟨by simp [hparts, hstart], List.nodup_cons.mpr ⟨hend, hnodup⟩⟩
  · rcases List.mem_cons.mp hp with rfl | hp
    · exact hright
    rcases List.mem_cons.mp hp with rfl | hp
    · exact hleft
    refine (hold p hp).set hk fun hin => hnot ?_
    obtain ⟨h1, h2⟩ := hij.unique (hold p hp) hi hj hin.1 hin.2
    rw [h1, h2]
    exact hp
  · rcases hij.of_split hi hj hc with heq | heq | ⟨hc, hother⟩
    · exact Or.inl (heq ▸ List.mem_cons_self ..)
    · exact Or.inl (heq ▸ List.mem_cons_of_mem _ (List.mem_cons_self ..))
    · refine (h.settled i' j' hc).imp_left fun hp => ?_
      have hp := (List.mem_cons.mp hp).resolve_left hother
      exact List.mem_cons_of_mem _ (List.mem_cons_of_mem _ hp)

lemma Sound.step (h : Sound eps distance n r) (hstep : r.step eps distance = .ok (some t)) :
    Sound eps distance n t := by
  obtain ⟨pending, keep⟩ := r
  unfold Refinement.step at hstep
  match pending with
  | [] => cases hstep
  | (i, j) :: pending =>
    dsimp only at hstep
    split at hstep
    · obtain rfl := Option.some.inj (Except.ok.inj hstep)
      exact h.pop fun k hi hj => by omega
    · obtain ⟨found, hfound, hstep⟩ := bind_eq_ok.mp hstep
      have hbounds := farthestBetween_bounds (by omega) hfound
      split at hstep
      · obtain rfl := Option.some.inj (Except.ok.inj hstep)
        exact h.split hbounds.1 hbounds.2
      · rename_i hnlt
        obtain rfl := Option.some.inj (Except.ok.inj hstep)
        exact h.pop fun k hi hj => not_lt_of_farthestBetween hfound hnlt hi hj

lemma pending_of_step (h : r.step eps distance = .ok none) : r.pending = [] := by
  obtain ⟨pending, keep⟩ := r
  cases pending with
  | nil => rfl
  | cons p pending =>
    unfold Refinement.step at h
    dsimp only at h
    split at h
    · cases h
    · obtain ⟨found, -, h⟩ := bind_eq_ok.mp h
      split at h <;> cases h

/-- A refinement reaches a state in which nothing is pending, or one that fails. -/
lemma run_ends (eps : Float) (distance : Nat → Nat → Nat → Result Float) (r : Refinement) :
    ∃ t : Refinement, Relation.ReflTransGen (fun a b => a.step eps distance = .ok (some b)) r t ∧
      ((t.pending = [] ∧ r.run eps distance = .ok t.keep) ∨
        ∃ f, t.step eps distance = .error f ∧ r.run eps distance = .error f) := by
  induction hn : r.size using Nat.strong_induction_on generalizing r with
  | _ n ih =>
    rw [run]
    split
    · rename_i f hstep
      exact ⟨r, .refl, Or.inr ⟨f, hstep, rfl⟩⟩
    · rename_i hstep
      exact ⟨r, .refl, Or.inl ⟨pending_of_step hstep, rfl⟩⟩
    · rename_i t hstep
      obtain ⟨u, hpath, hu⟩ := ih t.size (hn ▸ size_lt_of_step hstep) t rfl
      exact ⟨u, hpath.head hstep, hu⟩

lemma Sound.run (h : Sound eps distance n r) {keep : List Bool}
    (hrun : r.run eps distance = .ok keep) : Sound eps distance n ⟨[], keep⟩ := by
  obtain ⟨t, hpath, ⟨ht, hkeep⟩ | ⟨f, -, hf⟩⟩ := run_ends eps distance r
  · obtain rfl := Except.ok.inj (hrun.symm.trans hkeep)
    have hsound : Sound eps distance n t := by
      clear ht hrun hkeep
      induction hpath with
      | refl => exact h
      | tail _ hstep ih => exact ih.step hstep
    obtain ⟨pending, keep⟩ := t
    obtain rfl : pending = [] := ht
    exact hsound
  · rw [hrun] at hf
    cases hf

lemma unrefused_run (hdistance : ∀ i j k, Unrefused (distance i j k)) (r : Refinement) :
    Unrefused (r.run eps distance) := by
  have hfarthest : ∀ (i j : Nat) (best : Nat × Float) (places : List Nat),
      Unrefused (farthest (distance i j) best places) := by
    intro i j best places
    induction places generalizing best with
    | nil => exact Unrefused.ok _
    | cons k rest ih => exact (hdistance i j k).bind fun _ _ => ih _
  intro f hf
  obtain ⟨t, -, ⟨-, hkeep⟩ | ⟨f', hstep, hf'⟩⟩ := run_ends eps distance r
  · rw [hkeep] at hf
    cases hf
  · obtain rfl := Except.error.inj (hf.symm.trans hf')
    refine (?_ : Unrefused (t.step eps distance)) f hstep
    unfold Refinement.step
    split
    · exact Unrefused.ok _
    · split
      · exact Unrefused.ok _
      · refine (hfarthest _ _ _ _).bind fun found _ => ?_
        dsimp only
        split <;> exact Unrefused.ok _

lemma completes_run (hdistance : ∀ i j k, Completes (distance i j k)) (r : Refinement) :
    Completes (r.run eps distance) := by
  have hfarthest : ∀ (i j : Nat) (best : Nat × Float) (places : List Nat),
      Completes (farthest (distance i j) best places) := by
    intro i j best places
    induction places generalizing best with
    | nil => exact Completes.ok _
    | cons k rest ih => exact (hdistance i j k).bind fun _ _ => ih _
  intro haborted
  obtain ⟨t, -, ⟨-, hkeep⟩ | ⟨f, hstep, hf⟩⟩ := run_ends eps distance r
  · rw [hkeep] at haborted
    cases haborted
  · obtain rfl := Except.error.inj (hf.symm.trans haborted)
    refine (?_ : Completes (t.step eps distance)) hstep
    unfold Refinement.step
    split
    · exact Completes.ok _
    · split
      · exact Completes.ok _
      · refine (hfarthest _ _ _ _).bind fun found _ => ?_
        dsimp only
        split <;> exact Completes.ok _

/-- In the beginning only the ends are marked and the segment between them is pending. -/
lemma sound_ends (eps : Float) (distance : Nat → Nat → Nat → Result Float) (hn : 0 < n) :
    Sound eps distance n
      ⟨[(0, n)], ((List.replicate (n + 1) false).set 0 true).set n true⟩ := by
  have hget : ∀ k, (((List.replicate (n + 1) false).set 0 true).set n true)[k]? =
      if k = 0 ∨ k = n then some true else if k < n then some false else none := by
    intro k
    simp only [List.getElem?_set, List.length_set, List.length_replicate,
      List.getElem?_replicate]
    split_ifs <;> first | rfl | omega
  have hmark : ∀ k, (((List.replicate (n + 1) false).set 0 true).set n true)[k]? = some true →
      k = 0 ∨ k = n := by
    intro k hk
    rw [hget] at hk
    by_contra hne
    rw [if_neg hne] at hk
    split at hk <;> simp at hk
  have hends : Consecutive (((List.replicate (n + 1) false).set 0 true).set n true) 0 n := by
    refine ⟨hn, (hget 0).trans (by simp), (hget n).trans (by simp), fun k hk hk' => ?_⟩
    rw [hget, if_neg (by omega), if_pos hk']
  refine ⟨by simp, hends.left, hends.right, by simp, fun p hp => ?_,
    fun i j hc => Or.inl ?_⟩
  · obtain rfl := List.mem_singleton.mp hp
    exact hends
  · have := hc.lt
    have := hmark i hc.left
    have := hmark j hc.right
    obtain ⟨rfl, rfl⟩ : i = 0 ∧ j = n := by omega
    exact List.mem_singleton.mpr rfl

end Refinement

namespace Sequence

section

variable {V : Type} {instants : List (Instant V)} {keep : List Bool}

lemma marked_cons (a : Instant V) (m : Bool) :
    marked (a :: instants) (m :: keep) =
      if m then a :: marked instants keep else marked instants keep := by
  unfold marked
  cases m <;> rfl

lemma marked_sublist (instants : List (Instant V)) (keep : List Bool) :
    (marked instants keep).Sublist instants := by
  induction instants generalizing keep with
  | nil => exact List.Sublist.refl _
  | cons a instants ih =>
    cases keep with
    | nil => exact List.nil_sublist _
    | cons m keep =>
      rw [marked_cons]
      split
      · exact (ih keep).cons_cons a
      · exact (ih keep).cons a

lemma head?_marked (h : keep[0]? = some true) :
    (marked instants keep).head? = instants.head? := by
  cases instants with
  | nil => rfl
  | cons a instants =>
    cases keep with
    | nil => cases h
    | cons m keep =>
      obtain rfl : m = true := by simpa using h
      rw [marked_cons]
      rfl

lemma getLast?_marked (hlen : keep.length = instants.length) (h : keep.getLast? = some true) :
    (marked instants keep).getLast? = instants.getLast? := by
  induction instants generalizing keep with
  | nil => rfl
  | cons a instants ih =>
    obtain ⟨m, keep, rfl⟩ := List.exists_cons_of_length_eq_add_one hlen
    rw [marked_cons]
    cases instants with
    | nil =>
      obtain rfl := List.length_eq_zero_iff.mp (Nat.succ.inj hlen)
      obtain rfl : m = true := by simpa using h
      rfl
    | cons b instants =>
      obtain ⟨m', keep, rfl⟩ := List.exists_cons_of_length_eq_add_one (Nat.succ.inj hlen)
      rw [List.getLast?_cons_cons] at h ⊢
      have hlast := ih (Nat.succ.inj hlen) h
      split
      · rw [List.getLast?_cons, hlast, List.getLast?_cons]
        rfl
      · exact hlast

lemma marked_replicate (instants : List (Instant V)) :
    marked instants (List.replicate instants.length true) = instants := by
  induction instants with
  | nil => rfl
  | cons a instants ih =>
    rw [List.length_cons, List.replicate_succ, marked_cons, ih]
    rfl

end

variable {V : Type} [MetricValue V] {eps : Float} {synchronized : Bool}

/-- Instants that stay of a run, by marks: the first and the last one, and enough of the others that
none of those dropped is farther than `eps` from the segment between its neighbours that stay. -/
structure Thinned (eps : Float) (synchronized : Bool) (instants found : List (Instant V))
    (keep : List Bool) : Prop where
  length_eq : keep.length = instants.length
  found_eq : found = marked instants keep
  first : ∀ m ∈ keep.head?, m = true
  last : ∀ m ∈ keep.getLast?, m = true
  around : ∀ k, keep[k]? = some false → ∃ i j, i < k ∧ k < j ∧ Consecutive keep i j
  within : ∀ i j k a b p, Consecutive keep i j → i < k → k < j → instants[i]? = some a →
    instants[j]? = some b → instants[k]? = some p →
      ∃ d, Instant.distanceFrom synchronized a b p = .ok d ∧ ¬eps < d

lemma Thinned.sublist {instants found : List (Instant V)} {keep : List Bool}
    (h : Thinned eps synchronized instants found keep) : found.Sublist instants := by
  rw [h.found_eq]
  exact marked_sublist instants keep

lemma Thinned.head?_eq {instants found : List (Instant V)} {keep : List Bool}
    (h : Thinned eps synchronized instants found keep) : found.head? = instants.head? := by
  rw [h.found_eq]
  cases keep with
  | nil =>
    obtain rfl := List.length_eq_zero_iff.mp h.length_eq.symm
    rfl
  | cons m keep => exact head?_marked (congrArg some (h.first m rfl))

lemma Thinned.getLast?_eq {instants found : List (Instant V)} {keep : List Bool}
    (h : Thinned eps synchronized instants found keep) : found.getLast? = instants.getLast? := by
  rw [h.found_eq]
  cases hlast : keep.getLast? with
  | none =>
    obtain rfl := List.getLast?_eq_none_iff.mp hlast
    obtain rfl := List.length_eq_zero_iff.mp h.length_eq.symm
    rfl
  | some m => exact getLast?_marked h.length_eq (by rw [hlast, h.last m hlast])

lemma thinned_self (eps : Float) (synchronized : Bool) (instants : List (Instant V)) :
    Thinned eps synchronized instants instants (List.replicate instants.length true) := by
  have hmark : ∀ (k : Nat) m, (List.replicate instants.length true)[k]? = some m → m = true := by
    intro k m hm
    exact List.eq_of_mem_replicate (List.mem_of_getElem? hm)
  refine ⟨List.length_replicate, (marked_replicate instants).symm, fun m hm => ?_, fun m hm => ?_,
    fun k hk => absurd (hmark k _ hk) Bool.false_ne_true, fun i j k a b p hc hi hj => ?_⟩
  · exact List.eq_of_mem_replicate (List.mem_of_mem_head? hm)
  · exact List.eq_of_mem_replicate (List.mem_of_mem_getLast? hm)
  · exact absurd (hmark k _ (hc.between k hi hj)) Bool.false_ne_true

/-- What stays of a run is within the tolerance of what is dropped. -/
lemma exists_thinned {instants found : List (Instant V)}
    (h : douglasPeucker eps synchronized instants = .ok found) :
    ∃ keep, Thinned eps synchronized instants found keep := by
  match instants with
  | [] =>
    obtain rfl := Except.ok.inj h
    exact ⟨_, thinned_self eps synchronized []⟩
  | [a] =>
    obtain rfl := Except.ok.inj h
    exact ⟨_, thinned_self eps synchronized [a]⟩
  | [a, b] =>
    obtain rfl := Except.ok.inj h
    exact ⟨_, thinned_self eps synchronized [a, b]⟩
  | first :: a :: b :: rest =>
    obtain ⟨keep, hkeep, hfound⟩ := bind_eq_ok.mp h
    obtain rfl := Except.ok.inj hfound
    have hpoint : ∀ {k : Nat} {x}, (first :: a :: b :: rest)[k]? = some x →
        (first :: a :: b :: rest).toArray[k]?.getD first = x := by
      intro k x hx
      rw [List.getElem?_toArray, hx]
      rfl
    have hsound := (Refinement.sound_ends eps (fun i j k => Instant.distanceFrom synchronized
      ((first :: a :: b :: rest).toArray[i]?.getD first)
      ((first :: a :: b :: rest).toArray[j]?.getD first)
      ((first :: a :: b :: rest).toArray[k]?.getD first))
      (n := rest.length + 2) (by omega)).run hkeep
    refine ⟨_, hsound.length_eq, rfl, fun m hm => ?_, fun m hm => ?_, fun k hk => ?_,
      fun i j k x y z hc hi hj hx hy hz => ?_⟩
    · rw [List.head?_eq_getElem?, hsound.first] at hm
      exact (Option.some.inj hm).symm
    · rw [List.getLast?_eq_getElem?, hsound.length_eq, Nat.add_sub_cancel, hsound.last] at hm
      exact (Option.some.inj hm).symm
    · obtain ⟨hlt, -⟩ := List.getElem?_eq_some_iff.mp hk
      rw [hsound.length_eq] at hlt
      exact Consecutive.exists_around hsound.first hsound.last hk (by omega)
    · have hset := (hsound.settled i j hc).resolve_left (by simp) k hi hj
      dsimp only at hset
      rw [hpoint hx, hpoint hy, hpoint hz] at hset
      exact hset

lemma unrefused_douglasPeucker (eps : Float) (synchronized : Bool)
    (instants : List (Instant V)) : Unrefused (douglasPeucker eps synchronized instants) := by
  unfold douglasPeucker
  split
  · refine (Refinement.unrefused_run (fun i j k => ?_) _).bind fun _ _ => Unrefused.ok _
    unfold Instant.distanceFrom
    split
    · exact (Timestamp.unrefused_ratio _ _ _).bind fun _ _ => Unrefused.ok _
    · split <;> exact Unrefused.ok _
  · exact Unrefused.ok _

/-- Between instants from one to another of which the microseconds fit in 64 bits every distance is
told, and distances from the closest places always are. -/
lemma completes_douglasPeucker {instants : List (Instant V)} (h : synchronized = true →
      ∀ i ∈ instants, ∀ j ∈ instants, Timestamp.Fits (j.time.micros - i.time.micros)) :
    Completes (douglasPeucker eps synchronized instants) := by
  unfold douglasPeucker
  split
  · rename_i first a b rest
    have hpoint : ∀ k : Nat, (first :: a :: b :: rest).toArray[k]?.getD first ∈
        first :: a :: b :: rest := by
      intro k
      rw [List.getElem?_toArray]
      cases hk : (first :: a :: b :: rest)[k]? with
      | none => exact List.mem_cons_self ..
      | some x => exact List.mem_of_getElem? hk
    refine (Refinement.completes_run (fun i j k => ?_) _).bind fun _ _ => Completes.ok _
    unfold Instant.distanceFrom
    split
    · rename_i hsync
      refine Completes.bind (Completes.of_eq_ok (Timestamp.ratio_eq_ok.mpr ⟨fun _ =>
        ⟨?_, ?_⟩, rfl⟩)) fun _ _ => Completes.ok _
      · exact h hsync _ (hpoint i) _ (hpoint k)
      · exact h hsync _ (hpoint i) _ (hpoint j)
    · split <;> exact Completes.ok _
  · exact Completes.ok _

variable [LawfulValue V] {s : Sequence V}

/-- A sequence over some of the instants of another one, defined at the same places. -/
structure Shortens (s x : Sequence V) : Prop where
  wellFormed : x.WellFormed
  interp_eq : x.interp = s.interp
  period_eq : x.period = s.period
  covers_iff : ∀ n, x.Covers n ↔ s.Covers n
  sublist : x.instants.Sublist s.instants

omit [LawfulValue V] in
lemma WellFormed.shortens_self (h : s.WellFormed) : Shortens s s :=
  ⟨h, rfl, rfl, fun _ => Iff.rfl, List.Sublist.refl _⟩

/-- Over some of the instants of a linear sequence, with the first and the last one, there is a
sequence with the same ends. -/
lemma WellFormed.exists_rebuild (h : s.WellFormed) (hlin : s.interp = .linear)
    {found : List (Instant V)} (hsub : found.Sublist s.instants)
    (hhead : found.head? = s.instants.head?) (hlast : found.getLast? = s.instants.getLast?) :
    ∃ x, s.rebuild found = .ok x ∧ Shortens s x ∧ x.instants = found := by
  have hc := wellFormed_iff.mp h
  obtain ⟨rest, rfl⟩ : ∃ rest, found = s.first :: rest := by
    cases found with
    | nil => cases hhead
    | cons a rest => exact ⟨rest, congrArg (· :: rest) (Option.some.inj hhead)⟩
  have hend : rest.getLastD s.first = s.last := by
    unfold instants at hlast
    rw [List.getLast?_cons, List.getLast?_cons, ← List.getLastD_eq_getLast?,
      ← List.getLastD_eq_getLast?] at hlast
    exact Option.some.inj hlast
  have hchecked : Checked s.first rest s.lowerInc s.upperInc .linear := by
    refine ⟨fun _ => hc.linear hlin, h.rising.sublist hsub, fun hor => hc.closed (Or.inl ?_),
      by simp⟩
    -- if only one instant stays, it is the first and the last one
    obtain rfl := hor.resolve_right (by simp)
    by_contra hne
    have hmem : s.last ∈ s.rest := by
      obtain ⟨xs, z, hxs⟩ := (List.eq_nil_or_concat' s.rest).resolve_left hne
      rw [last_concat hxs, hxs]
      exact List.mem_append_right _ (List.mem_singleton.mpr rfl)
    have hlt := (List.rel_of_pairwise_cons hc.rising hmem).1
    rw [← hend] at hlt
    exact lt_irrefl _ hlt
  have hok : s.rebuild (s.first :: rest) =
      .ok (ofRun s.first rest s.lowerInc s.upperInc .linear) := by
    unfold rebuild withRun
    rw [hlin]
    exact makeRun_eq_ok hchecked
  have hperiod : (ofRun s.first rest s.lowerInc s.upperInc .linear).period = s.period := by
    unfold period
    rw [← hend]
    rfl
  refine ⟨_, hok, ⟨(builtFrom_of_makeRun (makeRun_eq_ok hchecked)).wellFormed, hlin.symm, hperiod,
    fun n => ?_, hsub⟩, rfl⟩
  rw [covers_of_continuous rfl,
    covers_of_continuous (isDiscrete_eq_false_iff.mpr (by rw [hlin]; simp))]
  unfold lo hi
  rw [hperiod]

omit [LawfulValue V] in
lemma simplifyLines_of_ne_linear (hlin : s.interp ≠ .linear) (eps : Float)
    (synchronized : Bool) : s.simplifyLines eps synchronized = .ok s := by
  unfold simplifyLines
  rw [if_pos (bne_iff_ne.mpr hlin)]

/-- A linear sequence is simplified where its instants are. -/
lemma WellFormed.exists_simplifyLines (h : s.WellFormed) (hlin : s.interp = .linear)
    (hdone : Completes (s.simplifyLines eps synchronized)) :
    ∃ x, s.simplifyLines eps synchronized = .ok x ∧ Shortens s x ∧
      douglasPeucker eps synchronized s.instants = .ok x.instants := by
  unfold simplifyLines at hdone ⊢
  rw [hlin, if_neg (by simp)] at hdone ⊢
  obtain ⟨found, hfound⟩ := (unrefused_douglasPeucker eps synchronized s.instants).exists_ok
    hdone.left
  obtain ⟨keep, ht⟩ := exists_thinned hfound
  rw [bind_of_ok hfound, hfound]
  obtain ⟨x, hok, hx, hinstants⟩ :=
    h.exists_rebuild hlin ht.sublist ht.head?_eq ht.getLast?_eq
  exact ⟨x, hok, hx, congrArg _ hinstants.symm⟩

lemma WellFormed.completes_simplifyLines (h : s.WellFormed)
    (hshort : synchronized = true → ShortRun s.interp s.first s.rest) :
    Completes (s.simplifyLines eps synchronized) := by
  by_cases hlin : s.interp = .linear
  · have hpeucker : Completes (douglasPeucker eps synchronized s.instants) := by
      refine completes_douglasPeucker fun hsync i hi j hj => ?_
      have hwidth := hshort hsync hlin
      have := first_le h.rising hi
      have := first_le h.rising hj
      have := place_le_last h.rising i hi
      have := place_le_last h.rising j hj
      unfold Timestamp.place at *
      unfold Timestamp.Fits
      omega
    obtain ⟨found, hfound⟩ := (unrefused_douglasPeucker eps synchronized s.instants).exists_ok
      hpeucker
    obtain ⟨keep, ht⟩ := exists_thinned hfound
    obtain ⟨x, hok, -⟩ := h.exists_rebuild hlin ht.sublist ht.head?_eq ht.getLast?_eq
    unfold simplifyLines
    rw [hlin, if_neg (by simp), bind_of_ok hfound]
    exact Completes.of_eq_ok hok
  · exact Completes.of_eq_ok (simplifyLines_of_ne_linear hlin eps synchronized)

/-- What a sequence is simplified to is over some of its instants. -/
lemma WellFormed.exists_shortened (h : s.WellFormed)
    (hdone : Completes (s.simplifyLines eps synchronized)) :
    ∃ x, s.simplifyLines eps synchronized = .ok x ∧ Shortens s x := by
  by_cases hlin : s.interp = .linear
  · obtain ⟨x, hok, hx, -⟩ := h.exists_simplifyLines hlin hdone
    exact ⟨x, hok, hx⟩
  · exact ⟨s, simplifyLines_of_ne_linear hlin eps synchronized, h.shortens_self⟩

lemma WellFormed.shortens_of_simplifyLines (h : s.WellFormed) {x : Sequence V}
    (hok : s.simplifyLines eps synchronized = .ok x) : Shortens s x := by
  obtain ⟨y, hy, hshort⟩ := h.exists_shortened (Completes.of_eq_ok hok)
  rwa [Except.ok.inj (hok.symm.trans hy)]

end Sequence

namespace Temporal

open Sequence

variable {V : Type} [MetricValue V] [LawfulValue V] {v : Temporal V}

/-- A value each sequence of which is changed; those of a set are joined where they can be. -/
inductive Changes (change : Sequence V → Result (Sequence V)) : Temporal V → Temporal V → Prop
  | instant (i : Instant V) : Changes change (instant i) (instant i)
  | sequence {s x : Sequence V} (h : change s = .ok x) : Changes change (sequence s) (sequence x)
  | sequenceSet {s set : SequenceSet V} {pieces : List (Sequence V)}
    (h : List.Forall₂ (fun x y => change x = .ok y) s.sequences pieces)
    (hset : SequenceSet.make pieces true = .ok set) :
    Changes change (sequenceSet s) (sequenceSet set)

omit [LawfulValue V] in
lemma mapSequences_eq_ok_iff {change : Sequence V → Result (Sequence V)} {w : Temporal V} :
    v.mapSequences change = .ok w ↔ Changes change v w := by
  constructor
  · intro h
    cases v with
    | instant i =>
      obtain rfl := Except.ok.inj h
      exact .instant i
    | sequence s =>
      obtain ⟨x, hx, h⟩ := bind_eq_ok.mp h
      obtain rfl := Except.ok.inj h
      exact .sequence hx
    | sequenceSet s =>
      obtain ⟨pieces, hpieces, h⟩ := bind_eq_ok.mp h
      obtain ⟨set, hset, h⟩ := bind_eq_ok.mp h
      obtain rfl := Except.ok.inj h
      exact .sequenceSet (mapM_eq_ok.mp hpieces) hset
  · intro h
    cases h with
    | instant i => rfl
    | sequence h => exact bind_eq_ok.mpr ⟨_, h, rfl⟩
    | sequenceSet h hset =>
      exact bind_eq_ok.mpr ⟨_, mapM_eq_ok.mpr h, bind_eq_ok.mpr ⟨_, hset, rfl⟩⟩

/-- Pieces over the instants of the sequences of a set follow each other like those. -/
lemma train_of_shortens {s : SequenceSet V} (h : s.WellFormed) {pieces : List (Sequence V)}
    (hshort : List.Forall₂ Shortens s.sequences pieces) :
    Train s.interp pieces ∧ Compatible s.first.first.value pieces ∧
      ∀ n, (∃ x ∈ pieces, x.Covers n) ↔ ∃ x ∈ s.sequences, x.Covers n := by
  have htrain := h.isTrain
  have hfrom : ∀ y ∈ pieces, ∃ x ∈ s.sequences, Shortens x y := fun y hy =>
    exists_of_mem_right hshort hy
  refine ⟨⟨fun y hy => ?_, fun y hy => ?_, htrain.continuous, ?_⟩, fun y hy i hi => ?_,
    fun n => ⟨?_, ?_⟩⟩
  · obtain ⟨x, -, hxy⟩ := hfrom y hy
    exact hxy.wellFormed
  · obtain ⟨x, hx, hxy⟩ := hfrom y hy
    exact hxy.interp_eq.trans (htrain.interp_eq x hx)
  · refine pairwise_of_forall₂ hshort htrain.rising fun x y x' y' hxy hxy' hbefore => ?_
    have hhi : y.hi = x.hi := congrArg Span.hi hxy.period_eq
    have hlo : y'.lo = x'.lo := congrArg Span.lo hxy'.period_eq
    unfold Before at hbefore ⊢
    omega
  · obtain ⟨x, hx, hxy⟩ := hfrom y hy
    exact WellFormed.compatible_first (v := sequenceSet s) h
      (mem_instants_iff.mpr ⟨x, hx, hxy.sublist.subset hi⟩)
  · rintro ⟨y, hy, hn⟩
    obtain ⟨x, hx, hxy⟩ := hfrom y hy
    exact ⟨x, hx, (hxy.covers_iff n).mp hn⟩
  · rintro ⟨x, hx, hn⟩
    obtain ⟨y, hy, hxy⟩ := exists_of_mem_left hshort hx
    exact ⟨y, hy, (hxy.covers_iff n).mpr hn⟩

/-- A value each sequence of which is shortened is defined at the same places. -/
lemma WellFormed.changes_spec (h : v.WellFormed) {change : Sequence V → Result (Sequence V)}
    (hchange : ∀ s x : Sequence V, s.WellFormed → change s = .ok x → Shortens s x)
    {w : Temporal V} (hw : Changes change v w) :
    w.WellFormed ∧ w.interp = v.interp ∧ ∀ n, w.Covers n ↔ v.Covers n := by
  cases hw with
  | instant i => exact ⟨h, rfl, fun _ => Iff.rfl⟩
  | sequence hok =>
    have hx := hchange _ _ h hok
    refine ⟨hx.wellFormed, hx.interp_eq, fun n => ?_⟩
    simp only [Temporal.Covers, Temporal.sequences, List.mem_singleton, exists_eq_left,
      hx.covers_iff n]
  | @sequenceSet s set pieces hpieces hset =>
    have hshort : List.Forall₂ Shortens s.sequences pieces :=
      ((List.forall₂_and_left (p := (· ∈ s.sequences)) _ _).mpr ⟨fun x hx => hx, hpieces⟩).imp
        fun x y hxy => hchange x y (h.sequences x hxy.1) hxy.2
    obtain ⟨htrain, hcompat, hcov⟩ := train_of_shortens h hshort
    cases pieces with
    | nil => cases hset
    | cons first rest =>
      obtain ⟨set', hset', htrain', hg⟩ :=
        SequenceSet.make_spec htrain hcompat (Completes.of_eq_ok hset)
      obtain rfl := Except.ok.inj (hset.symm.trans hset')
      exact ⟨SequenceSet.wellFormed_of_isTrain htrain' (hcompat.gathers hg),
        htrain'.interp_eq set.first (List.mem_cons_self ..),
        fun n => (hg.covers_iff n).trans (hcov n)⟩

/-- A short value whose sequences can all be shortened can be. -/
lemma WellFormed.exists_mapSequences (h : v.WellFormed) (hv : v.Short)
    {change : Sequence V → Result (Sequence V)}
    (hchange : ∀ s ∈ v.sequences, ∃ x, change s = .ok x ∧ Shortens s x) :
    ∃ w, v.mapSequences change = .ok w := by
  simp only [mapSequences_eq_ok_iff]
  cases v with
  | instant i => exact ⟨_, .instant i⟩
  | sequence s =>
    obtain ⟨x, hx, -⟩ := hchange s (List.mem_singleton.mpr rfl)
    exact ⟨_, .sequence hx⟩
  | sequenceSet s =>
    obtain ⟨pieces, hpieces⟩ := exists_forall₂_iff.mpr hchange
    have hshort : List.Forall₂ Shortens s.sequences pieces := hpieces.imp fun _ _ hxy => hxy.2
    obtain ⟨htrain, hcompat, -⟩ := train_of_shortens h hshort
    have hconfined : Confined pieces := (h.confined hv).of_within
      (fun y hy => by
        obtain ⟨x, hx, hxy⟩ := exists_of_mem_right hshort hy
        exact ⟨x, hx, hxy.interp_eq⟩)
      fun y hy => by
        obtain ⟨x, hx, hxy⟩ := exists_of_mem_right hshort hy
        exact ⟨⟨x, hx, (congrArg Span.lo hxy.period_eq).ge⟩, x, hx,
          (congrArg Span.hi hxy.period_eq).le⟩
    cases hpieces with
    | @cons x y xs ys hxy hmore =>
      obtain ⟨set, hset, -⟩ := SequenceSet.make_spec htrain hcompat
        (SequenceSet.completes_make_of_confined htrain hcompat hconfined)
      exact ⟨_, .sequenceSet (.cons hxy.1 (hmore.imp fun _ _ hxy => hxy.1)) hset⟩

omit [LawfulValue V] in
lemma simplifyLines_eq_ok_iff {eps : Float} (heps : (0.0 : Float) ≤ eps) {synchronized : Bool}
    {w : Temporal V} : v.simplifyLines eps synchronized = .ok w ↔
      Changes (fun s => s.simplifyLines eps synchronized) v w := by
  unfold simplifyLines
  rw [reported_eq_ok, check_bind_eq_ok, ← mapSequences_eq_ok_iff]
  exact and_iff_right (require_eq_ok.mpr (decide_eq_true heps))

/-- Simplification by the rule of Douglas and Peucker stays within its tolerance. The instants that
stay of a run are some of it, with its first and last one, and of those dropped none is farther than
the tolerance from the segment between its neighbours that stay; the refinement that finds them
comes to an end. So a linear sequence keeps its period, its bounds and its interpolation, and every
value keeps its time. Only where instants are synchronized that are too far apart, or sequences are
joined over too long a time, is it given up. -/
theorem simplification_spec (V : Type) [MetricValue V] [LawfulValue V] (eps : Float)
    (heps : (0.0 : Float) ≤ eps) (synchronized : Bool) :
    (∀ instants : List (Instant V),
      (∀ found, douglasPeucker eps synchronized instants = .ok found →
        found.Sublist instants ∧ found.head? = instants.head? ∧
        found.getLast? = instants.getLast? ∧
        ∃ keep, Thinned eps synchronized instants found keep) ∧
      (∀ f, douglasPeucker eps synchronized instants = .error f → f = .aborted) ∧
      ((synchronized = true → ∀ i ∈ instants, ∀ j ∈ instants,
          Timestamp.Fits (j.time.micros - i.time.micros)) →
        ∃ found, douglasPeucker eps synchronized instants = .ok found)) ∧
    (∀ (distance : Nat → Nat → Nat → Result Float) (r : Refinement), ∃ t : Refinement,
      Relation.ReflTransGen (fun a b => a.step eps distance = .ok (some b)) r t ∧
        ((t.pending = [] ∧ r.run eps distance = .ok t.keep) ∨
          ∃ f, t.step eps distance = .error f ∧ r.run eps distance = .error f)) ∧
    (∀ s : Sequence V, s.WellFormed →
      (s.interp ≠ .linear → s.simplifyLines eps synchronized = .ok s) ∧
      (∀ f, s.simplifyLines eps synchronized = .error f → f = .aborted) ∧
      (∀ x, s.interp = .linear → s.simplifyLines eps synchronized = .ok x →
        x.WellFormed ∧ douglasPeucker eps synchronized s.instants = .ok x.instants ∧
          x.period = s.period ∧ x.lowerInc = s.lowerInc ∧ x.upperInc = s.upperInc ∧
          x.interp = s.interp) ∧
      ((synchronized = true → ShortRun s.interp s.first s.rest) →
        ∃ x, s.simplifyLines eps synchronized = .ok x)) ∧
    (∀ v : Temporal V, v.WellFormed →
      (∀ w, v.simplifyLines eps synchronized = .ok w ↔
        Changes (fun s => s.simplifyLines eps synchronized) v w) ∧
      (∀ w, v.simplifyLines eps synchronized = .ok w → w.WellFormed ∧ w.interp = v.interp ∧
        w.timespan = v.timespan ∧ w.time = v.time) ∧
      (v.Short → ∃ w, v.simplifyLines eps synchronized = .ok w)) := by
  refine ⟨fun instants => ⟨fun found hfound => ?_, ?_, fun hfits => ?_⟩,
    Refinement.run_ends eps, fun s hs => ⟨fun hlin => ?_, ?_, fun x hlin hok => ?_,
    fun hshort => ?_⟩, fun v hv => ?_⟩
  · obtain ⟨keep, ht⟩ := exists_thinned hfound
    exact ⟨ht.sublist, ht.head?_eq, ht.getLast?_eq, keep, ht⟩
  · exact unrefused_douglasPeucker eps synchronized instants
  · exact (unrefused_douglasPeucker eps synchronized instants).exists_ok
      (completes_douglasPeucker hfits)
  · exact simplifyLines_of_ne_linear hlin eps synchronized
  · refine Unrefused.of_exists fun hdone => ?_
    obtain ⟨x, hok, -⟩ := hs.exists_shortened hdone
    exact ⟨x, hok⟩
  · obtain ⟨y, hy, hx, hinstants⟩ := hs.exists_simplifyLines hlin (Completes.of_eq_ok hok)
    obtain rfl := Except.ok.inj (hok.symm.trans hy)
    exact ⟨hx.wellFormed, hinstants, hx.period_eq, congrArg Span.lowerInc hx.period_eq,
      congrArg Span.upperInc hx.period_eq, hx.interp_eq⟩
  · obtain ⟨x, hok, -⟩ := hs.exists_shortened (hs.completes_simplifyLines hshort)
    exact ⟨x, hok⟩
  · refine ⟨fun w => simplifyLines_eq_ok_iff heps, fun w hw => ?_, fun hshort => ?_⟩
    · obtain ⟨hwf, hinterp, hcov⟩ := hv.changes_spec
        (fun s x hs hok => hs.shortens_of_simplifyLines hok)
        ((simplifyLines_eq_ok_iff heps).mp hw)
      exact ⟨hwf, hinterp, hwf.timespan_eq hv hcov, hwf.time_eq hv hcov⟩
    · obtain ⟨w, hw⟩ := hv.exists_mapSequences hshort fun s hs =>
        (hv.sequences s hs).exists_shortened ((hv.sequences s hs).completes_simplifyLines
          fun _ => hv.shortRun hshort hs)
      exact ⟨w, (simplifyLines_eq_ok_iff heps).mpr (mapSequences_eq_ok_iff.mp hw)⟩

/-- A slope with a bend, whose last instant is not in it. -/
def bend : Temporal Float :=
  sequence (.ofRun ⟨0.0, .nearest 0⟩ [⟨0.25, .nearest 1⟩, ⟨3.0, .nearest 2⟩] true false .linear)

/-- The bend is dropped, because it is 1.25 off the line. -/
theorem bend_simplified :
    (0.0 : Float) ≤ 2.0 ∧ bend.WellFormed ∧ bend.Short ∧
      (List.map Instant.time <$> douglasPeucker 2.0 true bend.instants) =
        .ok [.nearest 0, .nearest 2] ∧
      ∃ w, bend.simplifyLines 2.0 true = .ok w ∧
        w.WellFormed ∧ w.interp = .linear ∧ w.timespan = bend.timespan ∧ w.time = bend.time := by
  have heps : (0.0 : Float) ≤ 2.0 := by decide +kernel
  have hbend : bend.WellFormed := rfl
  have hshort : bend.Short := fun _ => by decide
  obtain ⟨-, -, -, h⟩ := simplification_spec Float 2.0 heps true
  obtain ⟨w, hw⟩ := (h bend hbend).2.2 hshort
  exact ⟨heps, hbend, hshort, by decide +kernel, w, hw, (h bend hbend).2.1 w hw⟩

/-- A line through all of time with an instant in the middle. -/
def rainbow : Temporal Float :=
  sequence (.ofRun ⟨0.0, .nearest (-8000000000000000000)⟩
    [⟨100.0, .nearest 0⟩, ⟨0.0, .nearest 8000000000000000000⟩] true true .linear)

/-- How far the middle is from the place of the line at its time cannot be told. -/
theorem rainbow_given_up :
    (0.0 : Float) ≤ 1.0 ∧ rainbow.WellFormed ∧
      douglasPeucker 1.0 true rainbow.instants = .error .aborted ∧
      rainbow.simplifyLines 1.0 true = .error .aborted :=
  ⟨by decide +kernel, rfl, (map_eq_error (f := fun _ => ())).mp (by decide +kernel),
    (map_eq_error (f := fun _ => ())).mp (by decide +kernel)⟩

end Temporal

end TemporalAlgebra
