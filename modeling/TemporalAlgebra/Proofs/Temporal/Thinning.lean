import TemporalAlgebra.Proofs.Temporal.Deleting
import TemporalAlgebra.Temporal.Simplify

/-!
# Thinning by a smallest interval

A run of instants is gone through once, and an instant is kept if it is far enough from the one kept
before it. What is kept of a run and what is kept of the rest of it fit together, so that every
instant that is dropped is too close to the last one kept before it. A run in which every instant is
far enough from its neighbour stays as it is. The last instant of a sequence is exempt from the
rule, and where steps end before it, it takes the value that is then the one before it.
-/
namespace TemporalAlgebra

namespace Sequence

section

variable {V : Type} {keeps : Instant V → Instant V → Bool} {kept m : Instant V}
  {run : List (Instant V)}

/-- The instants of a run that are kept next to the one kept before them. -/
def thinned (keeps : Instant V → Instant V → Bool) (kept : Instant V) :
    List (Instant V) → List (Instant V)
  | [] => []
  | m :: rest => if keeps kept m then m :: thinned keeps m rest else thinned keeps kept rest

lemma greedy_concat (kept : Instant V) (run : List (Instant V)) (last : Instant V) :
    greedy keeps kept (run ++ [last]) = thinned keeps kept run ++ [last] := by
  induction run generalizing kept with
  | nil => rfl
  | cons m run ih =>
    obtain ⟨n, rest, hrest⟩ : ∃ n rest, run ++ [last] = n :: rest :=
      List.exists_cons_of_ne_nil (by simp)
    rw [List.cons_append, hrest, greedy, ← hrest, thinned, ih, ih]
    split <;> rfl

lemma thinned_append (kept : Instant V) (xs ys : List (Instant V)) :
    thinned keeps kept (xs ++ ys) =
      thinned keeps kept xs ++ thinned keeps ((thinned keeps kept xs).getLastD kept) ys := by
  induction xs generalizing kept with
  | nil => rfl
  | cons m xs ih =>
    rw [List.cons_append, thinned, thinned]
    split
    · rw [ih, List.getLastD_cons, List.cons_append]
    · exact ih kept

lemma thinned_sublist (kept : Instant V) (run : List (Instant V)) :
    (thinned keeps kept run).Sublist run := by
  induction run generalizing kept with
  | nil => exact List.Sublist.refl _
  | cons m run ih =>
    rw [thinned]
    split
    · exact (ih m).cons_cons m
    · exact (ih kept).cons m

lemma isChain_thinned (kept : Instant V) (run : List (Instant V)) :
    (kept :: thinned keeps kept run).IsChain fun a b => keeps a b = true := by
  induction run generalizing kept with
  | nil => exact List.isChain_singleton _
  | cons m run ih =>
    rw [thinned]
    split
    · rename_i hkeep
      exact List.isChain_cons_cons.mpr ⟨hkeep, ih m⟩
    · exact ih kept

lemma thinned_of_isChain (h : (kept :: run).IsChain fun a b => keeps a b = true) :
    thinned keeps kept run = run := by
  induction run generalizing kept with
  | nil => rfl
  | cons m run ih =>
    obtain ⟨hkeep, hrun⟩ := List.isChain_cons_cons.mp h
    rw [thinned, if_pos hkeep, ih hrun]

lemma thinned_thinned (kept : Instant V) (run : List (Instant V)) :
    thinned keeps kept (thinned keeps kept run) = thinned keeps kept run :=
  thinned_of_isChain (isChain_thinned kept run)

/-- Where an instant is dropped: it is not kept next to the last one that is kept before it. -/
lemma exists_of_dropped (hm : m ∈ run) (hdrop : m ∉ thinned keeps kept run) :
    ∃ before after, run = before ++ m :: after ∧
      keeps ((thinned keeps kept before).getLastD kept) m = false ∧
      (thinned keeps kept run).Sublist (thinned keeps kept before ++ after) := by
  obtain ⟨before, after, rfl⟩ := List.append_of_mem hm
  rw [thinned_append, thinned] at hdrop
  refine ⟨before, after, rfl, ?_, ?_⟩
  · by_contra hkeep
    rw [Bool.not_eq_false] at hkeep
    rw [if_pos hkeep] at hdrop
    simp at hdrop
  · rw [thinned_append, thinned, if_neg ?_]
    · exact (thinned_sublist _ after).append_left _
    · intro hkeep
      rw [if_pos hkeep] at hdrop
      simp at hdrop

end

variable {V : Type} [TemporalValue V]

/-- A sequence over some of the timestamps of another one, with the first and the last one and in
the same period: of the others those that are far enough from the one kept before, while those that
are dropped are not. The values stay, except that an open sequence of steps may end in another
one. -/
structure Thins (far : Instant V → Instant V → Prop) (s x : Sequence V) : Prop where
  wellFormed : x.WellFormed
  interp_eq : x.interp = s.interp
  period_eq : x.period = s.period
  first_eq : x.first = s.first
  last_time : x.last.time = s.last.time
  times : (x.instants.map Instant.time).Sublist (s.instants.map Instant.time)
  kept : x.instants.dropLast.IsChain far
  dropped : ∀ i ∈ s.instants, i.time ∉ x.instants.map Instant.time →
    ∃ k ∈ x.instants, k.time < i.time ∧
      (∀ j ∈ x.instants, j.time < i.time → j.time ≤ k.time) ∧ ¬far k i
  values : ∀ i ∈ x.instants, i ∈ s.instants ∨
    s.interp = .step ∧ s.upperInc = false ∧ i = x.last

/-- The last instant over the instants that are kept: at an open end of steps it takes the value
before it. -/
def ending (s : Sequence V) (before last : Instant V) : Instant V :=
  if s.interp == .step && !s.upperInc then last.withValue before.value else last

lemma ending_time (s : Sequence V) (before last : Instant V) :
    (s.ending before last).time = last.time := by
  unfold ending
  split <;> rfl

lemma ending_ending {s x : Sequence V} (hinterp : x.interp = s.interp)
    (hupper : x.upperInc = s.upperInc) (before last : Instant V) :
    x.ending before (s.ending before last) = s.ending before last := by
  unfold ending
  rw [hinterp, hupper]
  split <;> rfl

end Sequence

namespace Sequence

variable {V : Type} [MetricValue V] {s : Sequence V} {keeps : Instant V → Instant V → Bool}

lemma rebuild_concat (s : Sequence V) (first : Instant V) (run : List (Instant V))
    (last : Instant V) : s.rebuild (first :: (run ++ [last])) =
      makeRun first (run ++ [s.ending (run.getLastD first) last]) s.lowerInc s.upperInc s.interp
        false := by
  unfold rebuild withRun ending
  dsimp only
  rw [repeatEnd_concat]
  split <;> rfl

lemma simplifyGreedy_concat {run : List (Instant V)} {last : Instant V}
    (hrest : s.rest = run ++ [last]) (hrun : run ≠ []) :
    s.simplifyGreedy keeps = makeRun s.first (thinned keeps s.first run ++
      [s.ending ((thinned keeps s.first run).getLastD s.first) last]) s.lowerInc s.upperInc
        s.interp false := by
  have hlong : ¬s.rest.length < 2 := by
    have := List.length_pos_iff.mpr hrun
    rw [hrest, List.length_append, List.length_singleton]
    omega
  unfold simplifyGreedy
  rw [if_neg hlong, hrest, greedy_concat, rebuild_concat]

/-- The sequence over what is kept of a run and the instant after it. -/
def thin (s : Sequence V) (keeps : Instant V → Instant V → Bool) (run : List (Instant V))
    (last : Instant V) : Sequence V :=
  ofRun s.first (thinned keeps s.first run ++
    [s.ending ((thinned keeps s.first run).getLastD s.first) last]) s.lowerInc s.upperInc s.interp

lemma thin_thin (s : Sequence V) (keeps : Instant V → Instant V → Bool)
    (run : List (Instant V)) (last : Instant V) :
    (s.thin keeps run last).thin keeps (thinned keeps s.first run)
      (s.ending ((thinned keeps s.first run).getLastD s.first) last) = s.thin keeps run last := by
  have hfirst : (s.thin keeps run last).first = s.first := rfl
  have hending := ending_ending (s := s) (x := s.thin keeps run last) rfl rfl
  rw [thin, hfirst, thinned_thinned, hending]
  rfl

lemma WellFormed.thins_self (h : s.WellFormed) (hshort : s.rest.length < 2)
    (far : Instant V → Instant V → Prop) : Thins far s s := by
  refine ⟨h, rfl, rfl, rfl, rfl, List.Sublist.refl _, ?_, fun i hi hnot => ?_,
    fun i hi => Or.inl hi⟩
  · have hlen : s.instants.dropLast.length ≤ 1 := by
      unfold instants
      rw [List.length_dropLast, List.length_cons]
      omega
    match hd : s.instants.dropLast with
    | [] => exact List.isChain_nil
    | [a] => exact List.isChain_singleton a
    | a :: b :: rest =>
      rw [hd, List.length_cons, List.length_cons] at hlen
      omega
  · exact absurd (List.mem_map_of_mem hi) hnot

/-- The last instant kept before one that is dropped is the latest one kept that is earlier. -/
lemma exists_kept_before {first i : Instant V} {run : List (Instant V)}
    (hrise : (first :: run).Pairwise Instant.Precedes) (hi : i ∈ run)
    (hdrop : i ∉ thinned keeps first run) :
    ∃ k ∈ first :: thinned keeps first run, k.time < i.time ∧
      (∀ j ∈ first :: thinned keeps first run, j.time < i.time → j.time ≤ k.time) ∧
        keeps k i = false := by
  obtain ⟨before, after, rfl, hkeep, hsub⟩ := exists_of_dropped hi hdrop
  rw [← List.cons_append, List.pairwise_append] at hrise
  obtain ⟨hbefore, hafter, hacross⟩ := hrise
  have hkept : (first :: thinned keeps first before).Sublist (first :: before) :=
    (thinned_sublist first before).cons_cons first
  have hk : (thinned keeps first before).getLastD first ∈ first :: thinned keeps first before :=
    List.getLastD_mem_cons
  have hparts : ∀ j ∈ first :: thinned keeps first (before ++ i :: after),
      j ∈ first :: thinned keeps first before ∨ j ∈ after := by
    intro j hj
    rw [← List.mem_append, List.cons_append]
    exact (hsub.cons_cons first).subset hj
  refine ⟨_, ?_, ?_, fun j hj hji => ?_, hkeep⟩
  · rw [thinned_append, ← List.cons_append]
    exact List.mem_append_left _ hk
  · exact Timestamp.lt_iff.mpr (hacross _ (hkept.subset hk) i (List.mem_cons_self ..)).1
  · rcases hparts j hj with hj | hj
    · exact Timestamp.le_iff.mpr (place_le_last (hbefore.sublist hkept) j hj)
    · have hij := (List.rel_of_pairwise_cons hafter hj).1
      rw [Timestamp.lt_iff] at hji
      omega

variable [StepValue V]

lemma WellFormed.checked_thinned (h : s.WellFormed) {run : List (Instant V)} {last : Instant V}
    (hrest : s.rest = run ++ [last]) (keeps : Instant V → Instant V → Bool) :
    Checked s.first (thinned keeps s.first run ++
      [s.ending ((thinned keeps s.first run).getLastD s.first) last]) s.lowerInc s.upperInc
        s.interp := by
  have hc := wellFormed_iff.mp h
  have hsub : (s.first :: thinned keeps s.first run ++ [last]).Sublist s.instants := by
    unfold instants
    rw [hrest, ← List.cons_append]
    exact ((thinned_sublist s.first run).cons_cons s.first).append_right [last]
  have hplaces := (h.rising.sublist hsub).imp fun hab => hab.1
  refine ⟨hc.linear, ?_, fun hor => hc.closed (Or.inr (hor.resolve_left (by simp))),
    fun hstep hopen => ?_⟩
  · refine pairwise_precedes (c := last.value) ?_ fun _ _ => StepValue.compatible_eq_ok _ _
    rw [← List.cons_append]
    rw [List.pairwise_append] at hplaces ⊢
    refine ⟨hplaces.1, List.pairwise_singleton _ _, fun i hi j hj => ?_⟩
    rw [List.mem_singleton.mp hj, ending_time]
    exact hplaces.2.2 i hi last (List.mem_singleton_self last)
  · rw [endsRepeated_concat]
    unfold ending
    rw [hstep, hopen, if_pos (by decide)]
    exact BEq.rfl

lemma WellFormed.simplifyGreedy_eq (h : s.WellFormed) {run : List (Instant V)}
    {last : Instant V} (hrest : s.rest = run ++ [last]) (hrun : run ≠ [])
    (keeps : Instant V → Instant V → Bool) :
    s.simplifyGreedy keeps = .ok (s.thin keeps run last) :=
  (simplifyGreedy_concat hrest hrun).trans (makeRun_eq_ok (h.checked_thinned hrest keeps))

omit [StepValue V] in
lemma instants_thin (s : Sequence V) (keeps : Instant V → Instant V → Bool)
    (run : List (Instant V)) (last : Instant V) :
    (s.thin keeps run last).instants = (s.first :: thinned keeps s.first run) ++
      [s.ending ((thinned keeps s.first run).getLastD s.first) last] := rfl

omit [StepValue V] in
lemma last_thin (s : Sequence V) (keeps : Instant V → Instant V → Bool)
    (run : List (Instant V)) (last : Instant V) :
    (s.thin keeps run last).last =
      s.ending ((thinned keeps s.first run).getLastD s.first) last :=
  last_concat rfl

/-- An instant whose timestamp is dropped is not kept next to the latest one kept before it. -/
lemma WellFormed.exists_kept_of_dropped (h : s.WellFormed) {run : List (Instant V)}
    {last i : Instant V} (hrest : s.rest = run ++ [last]) (hi : i ∈ s.instants)
    (hdrop : i.time ∉ (s.thin keeps run last).instants.map Instant.time) :
    ∃ k ∈ (s.thin keeps run last).instants, k.time < i.time ∧
      (∀ j ∈ (s.thin keeps run last).instants, j.time < i.time → j.time ≤ k.time) ∧
        keeps k i = false := by
  have hinstants : s.instants = (s.first :: run) ++ [last] := congrArg (s.first :: ·) hrest
  have hrise := h.rising
  rw [hinstants, List.pairwise_append] at hrise
  rw [instants_thin, List.map_append, List.map_singleton, ending_time] at hdrop
  have hmem : i ∈ run := by
    rw [hinstants] at hi
    rcases List.mem_append.mp hi with hi | hi
    · refine (List.mem_cons.mp hi).resolve_left ?_
      rintro rfl
      simp at hdrop
    · rw [List.mem_singleton.mp hi] at hdrop
      simp at hdrop
  have hnot : i ∉ thinned keeps s.first run := fun hkept =>
    hdrop (List.mem_append_left _ (List.mem_map_of_mem (List.mem_cons_of_mem _ hkept)))
  obtain ⟨k, hk, hki, hlatest, hkeep⟩ := exists_kept_before hrise.1 hmem hnot
  rw [instants_thin]
  refine ⟨k, List.mem_append_left _ hk, hki, fun j hj hji => ?_, hkeep⟩
  rcases List.mem_append.mp hj with hj | hj
  · exact hlatest j hj hji
  · -- the last instant is later than all the others
    have hil := (hrise.2.2 i (List.mem_cons_of_mem _ hmem) last (List.mem_singleton_self last)).1
    rw [List.mem_singleton.mp hj, ending_time, Timestamp.lt_iff] at hji
    omega

lemma WellFormed.thins_thin (h : s.WellFormed) {run : List (Instant V)} {last : Instant V}
    (hrest : s.rest = run ++ [last]) (keeps : Instant V → Instant V → Bool) :
    Thins (fun a b => keeps a b = true) s (s.thin keeps run last) := by
  have hinstants : s.instants = (s.first :: run) ++ [last] := congrArg (s.first :: ·) hrest
  have hlast : (s.thin keeps run last).last.time = s.last.time := by
    rw [last_thin, ending_time, last_concat hrest]
  have hsub : (s.first :: thinned keeps s.first run).Sublist (s.first :: run) :=
    (thinned_sublist s.first run).cons_cons s.first
  refine ⟨wellFormed_iff.mpr (h.checked_thinned hrest keeps), rfl, ?_, rfl, hlast, ?_, ?_,
    fun i hi hdrop => ?_, fun i hi => ?_⟩
  · unfold period
    rw [hlast]
    rfl
  · rw [hinstants, instants_thin, List.map_append, List.map_append, List.map_singleton,
      List.map_singleton, ending_time]
    exact (hsub.map Instant.time).append_right [last.time]
  · rw [instants_thin, List.dropLast_concat]
    exact isChain_thinned s.first run
  · obtain ⟨k, hk, hki, hlatest, hkeep⟩ := h.exists_kept_of_dropped hrest hi hdrop
    exact ⟨k, hk, hki, hlatest, by simp [hkeep]⟩
  · rw [last_thin, hinstants]
    rw [instants_thin] at hi
    rcases List.mem_append.mp hi with hi | hi
    · exact Or.inl (List.mem_append_left _ (hsub.subset hi))
    · obtain rfl := List.mem_singleton.mp hi
      by_cases hopen : (s.interp == .step && !s.upperInc) = true
      · obtain ⟨hstep, hupper⟩ : s.interp = .step ∧ s.upperInc = false := by simpa using hopen
        exact Or.inr ⟨hstep, hupper, rfl⟩
      · unfold ending
        rw [if_neg hopen]
        exact Or.inl (List.mem_append_right _ (List.mem_singleton_self last))

lemma WellFormed.exists_simplifyGreedy (h : s.WellFormed)
    (keeps : Instant V → Instant V → Bool) :
    ∃ x, s.simplifyGreedy keeps = .ok x ∧ Thins (fun a b => keeps a b = true) s x ∧
      x.simplifyGreedy keeps = .ok x := by
  by_cases hshort : s.rest.length < 2
  · have hself : s.simplifyGreedy keeps = .ok s := if_pos hshort
    exact ⟨s, hself, h.thins_self hshort _, hself⟩
  obtain ⟨run, last, hrest⟩ : ∃ run last, s.rest = run ++ [last] :=
    (List.eq_nil_or_concat' s.rest).resolve_left fun hnil => by simp [hnil] at hshort
  have hrun : run ≠ [] := by
    rintro rfl
    simp [hrest] at hshort
  have hthins := h.thins_thin hrest keeps
  refine ⟨_, h.simplifyGreedy_eq hrest hrun keeps, hthins, ?_⟩
  by_cases hnone : thinned keeps s.first run = []
  · refine if_pos ?_
    simp [thin, ofRun, hnone]
  · rw [hthins.wellFormed.simplifyGreedy_eq rfl hnone keeps]
    exact congrArg Except.ok (thin_thin s keeps run last)

end Sequence

/-- The interval between two timestamps is cut to 64 bits of microseconds. -/
lemma Timestamp.lt_since_iff {d : Interval} (hd : Interval.zero < d) (t u : Timestamp) :
    d < t.since u ↔ d < .ofMicros (t.micros - u.micros) ∧ d < .ofMicros (2 ^ 63 - 1) := by
  have hpos : 0 < d.nanos := hd
  change d.nanos < (Signed.clamp (w := 63) (t.micros - u.micros)).val * 1000 ↔
    d.nanos < (t.micros - u.micros) * 1000 ∧ d.nanos < (2 ^ 63 - 1) * 1000
  unfold Signed.clamp
  split
  · dsimp only
    omega
  · split <;> dsimp only <;> omega

/-- One instant is more than `d` after another, and `d` is shorter than the longest interval that
fits in 64 bits of microseconds. -/
def Instant.Apart {V : Type} (d : Interval) (a b : Instant V) : Prop :=
  d < .ofMicros (b.time.micros - a.time.micros) ∧ d < .ofMicros (2 ^ 63 - 1)

namespace Temporal

open Sequence

/-- A sequence of integers is thinned by every positive interval. An instant between the first and
the last one is kept if it is more than the interval after the last one kept before it, where no
two instants count as apart by more than fits in 64 bits of microseconds; thinning again changes
nothing. -/
theorem thinning_spec {s : Sequence Integer} (h : s.WellFormed) {d : Interval}
    (hd : Interval.zero < d) :
    ∃ x, (sequence s).simplifyInterval d = .ok (sequence x) ∧ Thins (Instant.Apart d) s x ∧
      (sequence x).simplifyInterval d = .ok (sequence x) := by
  have hsimplify : ∀ {y z : Sequence Integer},
      (y.simplifyGreedy fun a b => decide (d < b.time.since a.time)) = .ok z →
        (sequence y).simplifyInterval d = .ok (sequence z) := by
    intro y z hyz
    refine reported_eq_ok.mpr (check_bind_eq_ok.mpr ⟨require_eq_ok.mpr (decide_eq_true hd), ?_⟩)
    exact (bind_of_ok hyz).trans rfl
  have hapart : (fun a b : Instant Integer => decide (d < b.time.since a.time) = true) =
      Instant.Apart d := by
    funext a b
    rw [decide_eq_true_eq, Timestamp.lt_since_iff hd]
    rfl
  obtain ⟨x, hok, hthins, hagain⟩ := h.exists_simplifyGreedy
    fun a b => decide (d < b.time.since a.time)
  rw [hapart] at hthins
  exact ⟨x, hsimplify hok, hthins, hsimplify hagain⟩

def threeSteps : Sequence Integer :=
  .ofRun ⟨.clamp 1, .nearest 0⟩ [⟨.clamp 2, .nearest 3⟩, ⟨.clamp 3, .nearest 5⟩,
    ⟨.clamp 3, .nearest 6⟩] true false .step

/-- The third instant is too close to the second one, and the open end takes the value of that. -/
theorem threeSteps_thinned :
    threeSteps.WellFormed ∧ Interval.zero < .ofMicros 2 ∧
      ∃ x, (sequence threeSteps).simplifyInterval (.ofMicros 2) = .ok (sequence x) ∧
        Thins (Instant.Apart (.ofMicros 2)) threeSteps x ∧
        x.instants = [⟨.clamp 1, .nearest 0⟩, ⟨.clamp 2, .nearest 3⟩, ⟨.clamp 2, .nearest 6⟩] ∧
        (sequence x).simplifyInterval (.ofMicros 2) = .ok (sequence x) := by
  have h : threeSteps.WellFormed := rfl
  have hd : Interval.zero < .ofMicros 2 := by decide
  obtain ⟨x, hok, hthins, hagain⟩ := thinning_spec h hd
  have hfound : (sequence threeSteps).simplifyInterval (.ofMicros 2) =
      .ok (sequence (.ofRun ⟨.clamp 1, .nearest 0⟩
        [⟨.clamp 2, .nearest 3⟩, ⟨.clamp 2, .nearest 6⟩] true false .step)) := rfl
  have heq := Temporal.sequence.inj (Except.ok.inj (hok.symm.trans hfound))
  exact ⟨h, hd, x, hok, hthins, by rw [heq]; rfl, hagain⟩

def farSteps : Sequence Integer :=
  .ofRun ⟨.clamp 1, .nearest (-8000000000000000000)⟩
    [⟨.clamp 2, .nearest 8000000000000000000⟩, ⟨.clamp 2, .nearest 8100000000000000000⟩]
    true true .step

/-- An interval between two timestamps that does not fit in 64 bits of microseconds counts as
shorter than it is, so that an instant is dropped that is far enough from the one before it. -/
theorem distant_instant_dropped :
    ¬∀ (s : Sequence Integer) (d : Interval), s.WellFormed → Interval.zero < d →
      ∃ x, (sequence s).simplifyInterval d = .ok (sequence x) ∧
        Thins (fun a b => d < .ofMicros (b.time.micros - a.time.micros)) s x := by
  intro h
  obtain ⟨x, hok, hx⟩ := h farSteps (.ofSeconds 9300000000000 0) rfl (by decide)
  have hfound : (sequence farSteps).simplifyInterval (.ofSeconds 9300000000000 0) =
      .ok (sequence (.ofRun ⟨.clamp 1, .nearest (-8000000000000000000)⟩
        [⟨.clamp 2, .nearest 8100000000000000000⟩] true true .step)) := rfl
  have heq := Temporal.sequence.inj (Except.ok.inj (hok.symm.trans hfound))
  obtain ⟨k, hk, hbefore, -, hnear⟩ := hx.dropped
    ⟨.clamp 2, .nearest 8000000000000000000⟩ (List.mem_cons_of_mem _ (List.mem_cons_self ..))
    (by rw [heq]; decide)
  rw [heq] at hk
  rcases List.mem_pair.mp hk with rfl | rfl
  · exact hnear (by decide)
  · exact absurd hbefore (by decide)

end Temporal

end TemporalAlgebra
