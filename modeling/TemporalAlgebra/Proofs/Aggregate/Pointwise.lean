import Mathlib
import TemporalAlgebra.Proofs.Aggregate.Folding
import TemporalAlgebra.Proofs.Temporal.Constant

/-!
# Aggregates are pointwise

The value that an aggregate ends with has, at each timestamp, the total of the given values that are
defined there, whatever the order in which they were added and the states were merged. Totals are
sums, least and greatest values, conjunctions, disjunctions and counts.
-/
namespace TemporalAlgebra

namespace Aggregator

open Sequence

variable {V : Type} [TemporalValue V]

/-- A value that has the total of what is looked up in given ones wherever that is anything, over
the union of their times. -/
structure Aggregates {ι A : Type*} (lookup : ι → Timestamp → Option A) (time : ι → PeriodSet)
    (total : List A → V → Prop) (given : List ι) (found : Option (Temporal V)) : Prop where
  defined_iff : ∀ t, (∃ x, (found.bind fun r => r.valueAt t) = some x) ↔
    ∃ v ∈ given, ∃ a, lookup v t = some a
  total_of_eq_some : ∀ t x, (found.bind fun r => r.valueAt t) = some x →
    total (given.filterMap fun v => lookup v t) x
  time_eq : found.map Temporal.time = SpanSet.ofSpans? (given.flatMap fun v => (time v).spans)

section

variable [StepValue V] {combine : V → V → Result V} {total : List V → V → Prop}
  {s : Aggregator V} {given inputs : List (Temporal V)}

/-- A state in order ends with a value that has the totals. -/
theorem Folded.finish_spec (h : Folded combine total s given)
    (hwf : ∀ v ∈ given, v.WellFormed) :
    ∃ found, s.finish = .ok found ∧
      Aggregates Temporal.valueAt Temporal.time total given found := by
  obtain ⟨interp, hkept⟩ := h.exists_kept
  obtain ⟨found, hfound, ha⟩ :=
    Temporal.exists_ofPieces_of_step hkept.wellFormed hkept.interp_eq hkept.apart
  have hcov : ∀ n, Temporal.SomeCovers found n ↔ ∃ v ∈ given, v.Covers n := fun n =>
    (ha.gathers.covers_iff n).trans (h.tallies.occupies_iff n)
  refine ⟨found, reported_eq_ok.mpr hfound, fun t => ?_, fun t x hx => ?_, ?_⟩
  · simp only [Temporal.bind_valueAt_eq_some_iff ha.wellFormed,
      ← Temporal.someCovers_iff_exists_takes, hcov]
    exact exists_congr fun v => and_congr_right fun hv => ((hwf v hv).exists_valueAt_iff t).symm
  · rw [Temporal.bind_valueAt_eq_some_iff ha.wellFormed] at hx
    exact h.tallies.total_of_yields t x ((ha.gathers.takes_iff inferInstance _ x).mp hx)
  · obtain ⟨hset, hunion⟩ := Temporal.unionOfTimes_spec hwf
    exact Temporal.map_time_eq ha.wellFormed hset fun n => (hcov n).trans (hunion n).symm

end

/-- What is reached from an empty state ends with a value that has the totals. -/
theorem Reached.finish_spec [StepValue V] {start s : Aggregator V} {total : List V → V → Prop}
    {given inputs : List (Temporal V)} (ht : Totals start.combine total)
    (hw : start.window = none) (h : Reached start add s given) (hperm : given.Perm inputs)
    (hwf : ∀ v ∈ inputs, v.WellFormed) : ∃ found, s.finish = .ok found ∧
      Aggregates Temporal.valueAt Temporal.time total inputs found :=
  ((h.folded ht hw fun v hv => hwf v (hperm.mem_iff.mp hv)).perm ht hperm).finish_spec hwf

lemma totals_sum : Totals (V := Integer) NumericValue.add
    fun xs x => x.val = (xs.map Signed.val).sum := by
  refine ⟨fun x => by simp, fun {xs ys x y z} hx hy hz => ?_, fun {xs ys x} hperm hx => ?_⟩
  · have hadd : x.val + y.val = z.val := Signed.ofInt?_eq_some.mp (orRefuse_eq_ok.mp hz)
    rw [List.map_append, List.sum_append, ← hx, ← hy, hadd]
  · rw [hx, (hperm.map _).sum_eq]

omit [TemporalValue V] in
lemma totals_choice {choice : V → V → Bool} (upTo : V → V → Prop) (hrefl : ∀ x, upTo x x)
    (htrans : ∀ {x y z}, upTo x y → upTo y z → upTo x z)
    (hchoice : ∀ x y, if choice x y then upTo y x else upTo x y) :
    Totals (fun x y => .ok (if choice x y then y else x))
      fun xs x => x ∈ xs ∧ ∀ y ∈ xs, upTo x y := by
  refine ⟨fun x => by simp [hrefl], fun {xs ys x y z} hx hy hz => ?_, fun {xs ys x} hperm hx => ?_⟩
  · obtain rfl := Except.ok.inj hz
    have hxy := hchoice x y
    cases hc : choice x y with
    | true =>
      rw [hc, if_pos rfl] at hxy
      rw [if_pos rfl]
      refine ⟨List.mem_append_right xs hy.1, fun w hw => ?_⟩
      exact (List.mem_append.mp hw).elim (fun hw => htrans hxy (hx.2 w hw)) (hy.2 w)
    | false =>
      rw [hc, if_neg Bool.false_ne_true] at hxy
      rw [if_neg Bool.false_ne_true]
      refine ⟨List.mem_append_left ys hx.1, fun w hw => ?_⟩
      exact (List.mem_append.mp hw).elim (hx.2 w) fun hw => htrans hxy (hy.2 w hw)
  · exact ⟨hperm.mem_iff.mp hx.1, fun y hy => hx.2 y (hperm.mem_iff.mpr hy)⟩

lemma totals_minimum : Totals (minimum : Aggregator Integer).combine
    fun xs x => x ∈ xs ∧ ∀ y ∈ xs, x.val ≤ y.val := by
  refine totals_choice (fun x y : Integer => x.val ≤ y.val) (fun x => le_refl _) le_trans
    fun x y => ?_
  change if (compare y.val x.val == .lt) = true then _ else _
  split
  · rename_i h
    rw [beq_iff_eq, compare_lt_iff_lt] at h
    exact h.le
  · rename_i h
    rw [beq_iff_eq, compare_lt_iff_lt] at h
    exact not_lt.mp h

lemma totals_maximum : Totals (maximum : Aggregator Integer).combine
    fun xs x => x ∈ xs ∧ ∀ y ∈ xs, y.val ≤ x.val := by
  refine totals_choice (fun x y : Integer => y.val ≤ x.val) (fun x => le_refl _)
    (fun hxy hyz => hyz.trans hxy) fun x y => ?_
  change if (compare y.val x.val == .gt) = true then _ else _
  split
  · rename_i h
    rw [beq_iff_eq, compare_gt_iff_gt] at h
    exact h.le
  · rename_i h
    rw [beq_iff_eq, compare_gt_iff_gt] at h
    exact not_lt.mp h

lemma totals_conjunction : Totals (fun x y => .ok (x && y)) fun xs x => x = xs.all id := by
  refine ⟨fun x => by simp, fun {xs ys x y z} hx hy hz => ?_, fun {xs ys x} hperm hx => ?_⟩
  · rw [← Except.ok.inj hz, hx, hy, List.all_append]
  · rw [hx, hperm.all_eq]

lemma totals_disjunction : Totals (fun x y => .ok (x || y)) fun xs x => x = xs.any id := by
  refine ⟨fun x => by simp, fun {xs ys x y z} hx hy hz => ?_, fun {xs ys x} hperm hx => ?_⟩
  · rw [← Except.ok.inj hz, hx, hy, List.any_append]
  · rw [hx, hperm.any_eq]

structure Tracked where
  Value : Type
  [temporalValue : TemporalValue Value]
  [lawfulValue : LawfulValue Value]
  value : Temporal Value
  wellFormed : value.WellFormed

namespace Tracked

attribute [instance] temporalValue lawfulValue

/-- Whether a value of any type is defined at a timestamp: a look-up there does not come back
without a value. -/
def definedAt (w : Tracked) (t : Timestamp) : Option Unit :=
  match w.value.lookup t with
  | .ok none => none
  | _ => some ()

lemma definedAt_eq (w : Tracked) (t : Timestamp) [Decidable (w.value.Covers t.place)] :
    w.definedAt t = if w.value.Covers t.place then some () else none := by
  have hnone := w.wellFormed.lookup_eq_none_iff (t := t)
  unfold definedAt
  split <;> simp_all

def time (w : Tracked) : PeriodSet := w.value.time

def count (w : Tracked) : Aggregation Integer Unit := addCount w.value

end Tracked

def Ones (w : Tracked) (v : Temporal Integer) : Prop :=
  w.value.constantLike (Signed.clamp 1 : Integer) = .ok v

lemma Ones.spec {w : Tracked} {v : Temporal Integer} (h : Ones w v) :
    v.WellFormed ∧ v.time = w.time ∧
      ∀ t, v.valueAt t = (w.definedAt t).map fun _ => Signed.clamp 1 := by
  obtain ⟨hwf, hcov, htakes⟩ := Temporal.constantLike_spec h
  obtain ⟨htime, htimecov⟩ := hwf.time_spec
  obtain ⟨hwtime, hwtimecov⟩ := w.wellFormed.time_spec
  refine ⟨hwf, htime.eq_of_covers hwtime fun n => ?_, fun t => ?_⟩
  · rw [htimecov, hcov]
    exact (hwtimecov n).symm
  · classical
    rw [w.definedAt_eq, ← hcov]
    split
    · rename_i hc
      obtain ⟨x, hx⟩ := (hwf.exists_valueAt_iff t).mpr hc
      rw [hx, htakes _ x ((hwf.valueAt_eq_some_iff t x).mp hx)]
      rfl
    · rename_i hc
      exact (hwf.valueAt_eq_none_iff t).mpr hc

lemma succeeds_count {w : Tracked} {s s' : Aggregator Integer} (h : Succeeds w.count s s') :
    ∃ v, Ones w v ∧ Succeeds (add v) s s' := by
  have hrun : outcome w.count s =
      match w.value.constantLike (Signed.clamp 1 : Integer) with
      | .ok ones => outcome (add ones) s
      | .error f => (.error f, s) := by
    unfold Tracked.count addCount
    cases w.value.constantLike (Signed.clamp 1 : Integer) <;> rfl
  unfold Succeeds at h
  rw [hrun] at h
  cases hones : w.value.constantLike (Signed.clamp 1 : Integer) with
  | error f => simp [hones] at h
  | ok v =>
    rw [hones] at h
    exact ⟨v, hones, h⟩

lemma Reached.ones {s : Aggregator Integer} {given : List Tracked}
    (h : Reached count Tracked.count s given) :
    ∃ ones, List.Forall₂ Ones given ones ∧ Reached count add s ones := by
  induction h with
  | empty maxLevel heights => exact ⟨[], .nil, .empty maxLevel heights⟩
  | offer _ hs ih =>
    obtain ⟨ones, hones, hreached⟩ := ih
    obtain ⟨v, hv, hs⟩ := succeeds_count hs
    exact ⟨ones ++ [v], List.rel_append hones (.cons hv .nil), hreached.offer hs⟩
  | merge _ _ hs ih ih' =>
    obtain ⟨ones, hones, hreached⟩ := ih
    obtain ⟨more, hmore, hreached'⟩ := ih'
    exact ⟨ones ++ more, List.rel_append hones hmore, hreached.merge hreached' hs⟩

lemma ones_spec {given : List Tracked} {ones : List (Temporal Integer)}
    (h : List.Forall₂ Ones given ones) :
    (∀ v ∈ ones, v.WellFormed) ∧
      (ones.flatMap fun v => v.time.spans) = (given.flatMap fun w => w.time.spans) ∧
      ∀ t, (ones.filterMap fun v => v.valueAt t) =
        (given.filterMap fun w => w.definedAt t).map fun _ => Signed.clamp 1 := by
  induction h with
  | nil => simp
  | cons hw _ ih =>
    obtain ⟨hwf, htime, hvalue⟩ := hw.spec
    obtain ⟨hall, htimes, hvalues⟩ := ih
    refine ⟨List.forall_mem_cons.mpr ⟨hwf, hall⟩, ?_, fun t => ?_⟩
    · rw [List.flatMap_cons, List.flatMap_cons, htime, htimes]
    · rw [List.filterMap_cons, List.filterMap_cons, hvalue, hvalues]
      cases Tracked.definedAt _ t <;> rfl

lemma exists_lookup_iff {ι A : Type*} {lookup : ι → Option A} {given : List ι} :
    (∃ v ∈ given, ∃ a, lookup v = some a) ↔ given.filterMap lookup ≠ [] := by
  simp [List.filterMap_eq_nil_iff, Option.eq_none_iff_forall_ne_some]

/-- Where values of any type are defined there is their count. -/
theorem Reached.count_spec {s : Aggregator Integer} {given inputs : List Tracked}
    (h : Reached count Tracked.count s given) (hperm : given.Perm inputs) :
    ∃ found, s.finish = .ok found ∧ Aggregates Tracked.definedAt Tracked.time
      (fun (xs : List Unit) (x : Integer) => x.val = xs.length) inputs found := by
  obtain ⟨given', hgiven', hreached⟩ := h.ones
  obtain ⟨ones, hones, hperm'⟩ := List.perm_comp_forall₂ hperm.symm hgiven'
  obtain ⟨hwf, htimes, hvalues⟩ := ones_spec hones
  obtain ⟨found, hfinish, ha⟩ := hreached.finish_spec totals_sum rfl hperm'.symm hwf
  refine ⟨found, hfinish, fun t => ?_, fun t x hx => ?_, ha.time_eq.trans (by rw [htimes])⟩
  · rw [ha.defined_iff, exists_lookup_iff, exists_lookup_iff, hvalues, ne_eq, List.map_eq_nil_iff]
  · have hsum := ha.total_of_eq_some t x hx
    rw [hvalues, List.map_map] at hsum
    rw [hsum]
    have hone : (Signed.val ∘ fun _ : Unit => (Signed.clamp 1 : Integer)) = fun _ => 1 := rfl
    rw [hone, List.map_const', List.sum_replicate]
    simp

/-- Aggregates are pointwise, whatever the order in which values are added and states are merged:
sums, least and greatest values of integers, conjunctions and disjunctions of truth values and
counts of values of any type. The values may be distributed over any number of states. -/
theorem aggregation_pointwise :
    (∀ {s : Aggregator Integer} {given inputs : List (Temporal Integer)}, given.Perm inputs →
      (∀ v ∈ inputs, v.WellFormed) →
        (Reached sum add s given → ∃ found, s.finish = .ok found ∧
          Aggregates Temporal.valueAt Temporal.time
            (fun xs x => x.val = (xs.map Signed.val).sum) inputs found) ∧
        (Reached minimum add s given → ∃ found, s.finish = .ok found ∧
          Aggregates Temporal.valueAt Temporal.time
            (fun xs x => x ∈ xs ∧ ∀ y ∈ xs, x.val ≤ y.val) inputs found) ∧
        (Reached maximum add s given → ∃ found, s.finish = .ok found ∧
          Aggregates Temporal.valueAt Temporal.time
            (fun xs x => x ∈ xs ∧ ∀ y ∈ xs, y.val ≤ x.val) inputs found)) ∧
    (∀ {s : Aggregator Bool} {given inputs : List (Temporal Bool)}, given.Perm inputs →
      (∀ v ∈ inputs, v.WellFormed) →
        (Reached conjunction add s given → ∃ found, s.finish = .ok found ∧
          Aggregates Temporal.valueAt Temporal.time (fun xs x => x = xs.all id) inputs found) ∧
        (Reached disjunction add s given → ∃ found, s.finish = .ok found ∧
          Aggregates Temporal.valueAt Temporal.time (fun xs x => x = xs.any id) inputs found)) ∧
    ∀ {s : Aggregator Integer} {given inputs : List Tracked}, given.Perm inputs →
      Reached count Tracked.count s given → ∃ found, s.finish = .ok found ∧
        Aggregates Tracked.definedAt Tracked.time
          (fun (xs : List Unit) (x : Integer) => x.val = xs.length) inputs found := by
  refine ⟨fun {s given inputs} hperm hwf => ⟨fun h => ?_, fun h => ?_, fun h => ?_⟩,
    fun {s given inputs} hperm hwf => ⟨fun h => ?_, fun h => ?_⟩,
    fun {s given inputs} hperm h => h.count_spec hperm⟩
  · exact h.finish_spec totals_sum rfl hperm hwf
  · exact h.finish_spec totals_minimum rfl hperm hwf
  · exact h.finish_spec totals_maximum rfl hperm hwf
  · exact h.finish_spec totals_conjunction rfl hperm hwf
  · exact h.finish_spec totals_disjunction rfl hperm hwf

section

variable [StepValue V] (start : Aggregator V) {total : List V → V → Prop}

lemma exists_reached_instant (hw : start.window = none) (hi : start.interp = none) (i : Instant V) :
    ∃ s, Reached start add s [.instant i] ∧ s.interp = some .discrete := by
  have hempty : Folded start.combine (fun _ _ => True)
      { start with list := .ofHeights orderPieces 1 fun _ => 1 } [] := Folded.empty hw 1 _
  obtain ⟨s, hs, hinterp⟩ := hempty.exists_spliced (by simp [hi])
    (kept_ownPieces (Temporal.wellFormed_instant i)) (Or.inl rfl)
  exact ⟨s, (Reached.empty 1 fun _ => 1).offer ((succeeds_add_iff hempty.window_eq).mpr hs),
    hinterp⟩

lemma exists_reached_instants (ht : Totals start.combine total) (hw : start.window = none)
    (hi : start.interp = none) (hcombine : ∀ x y, ∃ z, start.combine x y = .ok z)
    (i j : Instant V) : ∃ s, Reached start add s [.instant i, .instant j] := by
  obtain ⟨s, hs, hsi⟩ := exists_reached_instant start hw hi i
  obtain ⟨other, ho, hoi⟩ := exists_reached_instant start hw hi j
  have hfolded := hs.folded ht hw fun v hv => by
    obtain rfl := List.mem_singleton.mp hv
    exact Temporal.wellFormed_instant i
  have hfolded' := ho.folded ht hw fun v hv => by
    obtain rfl := List.mem_singleton.mp hv
    exact Temporal.wellFormed_instant j
  obtain ⟨s', hs', -⟩ := hfolded.exists_spliced (by simp [hsi])
    (hfolded'.row .discrete (by simp [hoi])).kept (Or.inr hcombine)
  exact ⟨s', hs.merge ho (succeeds_merge_iff.mpr (Or.inr ⟨.discrete, hoi, hs'⟩))⟩

end

/-- The conjunction of opposite truth values that were added to a state each, and the sum of one
number. -/
theorem opposites_aggregated_pointwise :
    (∃ s found, Reached conjunction add s
        [.instant ⟨true, .nearest 0⟩, .instant ⟨false, .nearest 0⟩] ∧ s.finish = .ok found ∧
      (found.bind fun r => r.valueAt (.nearest 0)) = some false) ∧
    ∃ s found, Reached (sum : Aggregator Integer) add s
        [.instant ⟨Signed.clamp 7, .nearest 0⟩] ∧ s.finish = .ok found ∧
      (found.bind fun r => r.valueAt (.nearest 0)) = some (Signed.clamp 7 : Integer) := by
  obtain ⟨hinteger, hbool, -⟩ := aggregation_pointwise
  constructor
  · obtain ⟨s, hs⟩ := exists_reached_instants conjunction totals_conjunction rfl rfl
      (fun x y => ⟨x && y, rfl⟩) ⟨true, .nearest 0⟩ ⟨false, .nearest 0⟩
    obtain ⟨found, hfinish, ha⟩ := (hbool (List.Perm.swap _ _ [])
      (by simp [Temporal.wellFormed_instant])).1 hs
    obtain ⟨x, hx⟩ := (ha.defined_iff (.nearest 0)).mpr ⟨_, List.mem_cons_self .., false, rfl⟩
    have hall := ha.total_of_eq_some _ x hx
    exact ⟨s, found, hs, hfinish, hx.trans (congrArg some hall)⟩
  · obtain ⟨s, hs, -⟩ := exists_reached_instant (sum : Aggregator Integer) rfl rfl
      ⟨Signed.clamp 7, .nearest 0⟩
    obtain ⟨found, hfinish, ha⟩ := (hinteger (List.Perm.refl _)
      (by simp [Temporal.wellFormed_instant])).1 hs
    obtain ⟨x, hx⟩ := (ha.defined_iff (.nearest 0)).mpr
      ⟨_, List.mem_cons_self .., Signed.clamp 7, rfl⟩
    have hsum : x.val = 7 := ha.total_of_eq_some _ x hx
    rw [← Signed.clamp_val x, hsum] at hx
    exact ⟨s, found, hs, hfinish, hx⟩

end Aggregator

end TemporalAlgebra
