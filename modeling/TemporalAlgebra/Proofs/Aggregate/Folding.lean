import TemporalAlgebra.Proofs.Aggregate.Splicing

/-!
# Folding values into an aggregate

Values are added to the states of an aggregate one by one, and states are merged, in any order. What
a state holds at a timestamp only depends on the values of all that went into it: it is their total
there, and it is missing where none of them is defined.
-/
namespace TemporalAlgebra

namespace Aggregator

open Sequence

variable {V : Type} [TemporalValue V]

def outcome (step : Aggregation V Unit) (s : Aggregator V) : Result Unit × Aggregator V :=
  step.run s

def Succeeds (step : Aggregation V Unit) (s s' : Aggregator V) : Prop :=
  outcome step s = (.ok (), s')

lemma outcome_reporting (step : Aggregation V Unit) (s : Aggregator V) :
    outcome (reporting step) s = match outcome step s with
      | (.error f, s') => (.error f.again, s')
      | (.ok u, s') => (.ok u, s') := by
  unfold outcome
  simp only [reporting, tryCatch, tryCatchThe, MonadExceptOf.tryCatch, ExceptT.tryCatch,
    ExceptT.run, ExceptT.mk, bind, StateT.bind]
  rcases step s with ⟨u | f, s'⟩ <;> rfl

lemma succeeds_reporting {step : Aggregation V Unit} {s s' : Aggregator V} :
    Succeeds (reporting step) s s' ↔ Succeeds step s s' := by
  unfold Succeeds
  rw [outcome_reporting]
  rcases outcome step s with ⟨f | u, t⟩ <;> simp

lemma succeeds_set {r : Result (Aggregator V)} {s s' : Aggregator V} :
    Succeeds (do set (← (r : Result _))) s s' ↔ r = .ok s' := by
  have hrun : outcome (do set (← (r : Result _)) : Aggregation V Unit) s = match r with
      | .error f => (.error f, s)
      | .ok s' => (.ok (), s') := by
    cases r <;> rfl
  unfold Succeeds
  rw [hrun]
  cases r <;> simp

/-- The pieces of a value, discrete ones cut into instants. -/
def ownPieces (v : Temporal V) : List (Sequence V) :=
  if v.isDiscrete then v.instants.map fun i => .ofInstant i .discrete else v.sequences

lemma succeeds_add_iff {v : Temporal V} {s s' : Aggregator V} (hw : s.window = none) :
    Succeeds (add v) s s' ↔ s.spliced v.interp (ownPieces v) = .ok s' := by
  obtain ⟨list, combine, crossings, interp, window⟩ := s
  obtain rfl := hw
  rw [← succeeds_set]
  exact succeeds_reporting

lemma succeeds_merge_iff {s s' other : Aggregator V} : Succeeds (merge other) s s' ↔
    other.interp = none ∧ s' = s ∨
      ∃ interp, other.interp = some interp ∧ s.spliced interp other.pieces = .ok s' := by
  obtain ⟨list, combine, crossings, interp, window⟩ := other
  cases interp with
  | none =>
    have hnone : Succeeds (merge ⟨list, combine, crossings, none, window⟩) s s' ↔
        ((.ok (), s) : Result Unit × Aggregator V) = (.ok (), s') := Iff.rfl
    rw [hnone]
    simp [eq_comm]
  | some interp =>
    simp only [reduceCtorEq, false_and, false_or, Option.some.injEq, exists_eq_left']
    rw [← succeeds_set]
    exact succeeds_reporting

/-- A state that is reached from empty ones by offering values to them and by merging them, and the
values that went into it. The towers may have any heights. -/
inductive Reached {ι : Type*} (start : Aggregator V) (offer : ι → Aggregation V Unit) :
    Aggregator V → List ι → Prop
  | empty (maxLevel : Nat) (heights : Nat → Nat) :
    Reached start offer { start with list := .ofHeights orderPieces maxLevel heights } []
  | offer {s s' : Aggregator V} {given : List ι} {v : ι} (reached : Reached start offer s given)
    (succeeds : Succeeds (offer v) s s') : Reached start offer s' (given ++ [v])
  | merge {s s' other : Aggregator V} {given more : List ι} (reached : Reached start offer s given)
    (added : Reached start offer other more) (succeeds : Succeeds (merge other) s s') :
    Reached start offer s' (given ++ more)

/-- The total of some values: of one value that value itself, of more what is made of the totals of
two parts of them. -/
structure Totals (combine : V → V → Result V) (total : List V → V → Prop) : Prop where
  single : ∀ x, total [x] x
  append : ∀ {xs ys x y z}, total xs x → total ys y → combine x y = .ok z → total (xs ++ ys) z
  perm : ∀ {xs ys x}, xs.Perm ys → total xs x → total ys x

/-- Pieces that are defined where some given value is and that have the total of the given values
at each timestamp. -/
structure Tallies (total : List V → V → Prop) (pieces : List (Sequence V))
    (given : List (Temporal V)) : Prop where
  occupies_iff : ∀ n, Occupies pieces n ↔ ∃ v ∈ given, v.Covers n
  total_of_yields : ∀ t x, Yields pieces t.place x →
    total (given.filterMap fun v => v.valueAt t) x

section

variable [LawfulValue V]

/-- Kept pieces have one value at a place. -/
lemma yields_unique {interp : Interpolation} {pieces : List (Sequence V)}
    (h : Kept interp pieces) {n : Int} {x y : V} (hx : Yields pieces n x)
    (hy : Yields pieces n y) : x = y := by
  induction pieces with
  | nil => exact absurd hx not_yields_nil
  | cons p rest ih =>
    have hfirst : ∀ z, p.Takes n z → n ≤ p.hi := fun z hz =>
      ((h.wellFormed p (by simp)).mem_period hz.covers).2
    rcases yields_cons.mp hx with hx | hx <;> rcases yields_cons.mp hy with hy | hy
    · exact hx.2.symm.trans hy.2
    · exact absurd (h.lt_of_occupies hy.occupies) (not_lt.mpr (hfirst x hx))
    · exact absurd (h.lt_of_occupies hx.occupies) (not_lt.mpr (hfirst y hy))
    · exact ih h.tail hx hy

lemma kept_ownPieces {v : Temporal V} (h : v.WellFormed) : Kept v.interp (ownPieces v) := by
  unfold ownPieces
  split
  · rename_i hd
    have hi : v.interp = .discrete := by simpa [Temporal.isDiscrete] using hd
    refine ⟨fun p hp => ?_, fun p hp => ?_, List.pairwise_map.mpr ?_, fun _ p hp => ?_⟩
    · obtain ⟨i, -, rfl⟩ := List.mem_map.mp hp
      exact wellFormed_ofInstant i (by simp)
    · obtain ⟨i, -, rfl⟩ := List.mem_map.mp hp
      exact hi.symm
    · refine (h.rising_of_discrete hd).imp fun {i j} hij => ?_
      have := hij.1
      unfold Before
      rw [hi_eq, lo_eq]
      change i.time.place - 0 < j.time.place + 0
      omega
    · obtain ⟨i, -, rfl⟩ := List.mem_map.mp hp
      rfl
  · rename_i hd
    exact ⟨h.sequences, h.interp_eq, h.rising,
      fun hi => absurd hi (by simpa [Temporal.isDiscrete] using hd)⟩

lemma yields_ownPieces {v : Temporal V} (h : v.WellFormed) (n : Int) (x : V) :
    Yields (ownPieces v) n x ↔ v.Takes n x := by
  unfold ownPieces
  split
  · rename_i hd
    have hseq : ∀ s ∈ v.sequences, s.isDiscrete = true := fun s hs => by
      rw [isDiscrete_iff, h.interp_eq s hs]
      simpa [Temporal.isDiscrete] using hd
    constructor
    · rintro ⟨p, hp, hn⟩
      obtain ⟨i, hi, rfl⟩ := List.mem_map.mp hp
      obtain ⟨rfl, rfl⟩ := (takes_ofInstant i .discrete n x).mp hn
      obtain ⟨s, hs, his⟩ := Temporal.mem_instants_iff.mp hi
      exact ⟨s, hs, ((h.sequences s hs).takes_of_discrete (hseq s hs) _ _).mpr ⟨i, his, rfl, rfl⟩⟩
    · rintro ⟨s, hs, hn⟩
      obtain ⟨i, hi, rfl, rfl⟩ := ((h.sequences s hs).takes_of_discrete (hseq s hs) n x).mp hn
      exact ⟨_, List.mem_map_of_mem (Temporal.mem_instants_iff.mpr ⟨s, hs, hi⟩),
        (takes_ofInstant i .discrete _ _).mpr ⟨rfl, rfl⟩⟩
  · exact Iff.rfl

end

lemma tallies_ownPieces [StepValue V] {combine : V → V → Result V} {total : List V → V → Prop}
    (ht : Totals combine total) {v : Temporal V} (h : v.WellFormed) :
    Tallies total (ownPieces v) [v] := by
  refine ⟨fun n => ?_, fun t x hx => ?_⟩
  · rw [occupies_iff_exists_yields]
    simp only [yields_ownPieces h, List.mem_singleton, exists_eq_left]
    exact Temporal.covers_iff_exists_takes.symm
  · rw [yields_ownPieces h, ← h.valueAt_eq_some_iff] at hx
    rw [List.filterMap_cons, hx]
    exact ht.single x

/-- What is made of the pieces of two lots of values has the totals of both. -/
lemma Tallies.combines [StepValue V] {combine : V → V → Result V} {total : List V → V → Prop}
    (ht : Totals combine total) {interp : Interpolation} {old new found : List (Sequence V)}
    {given more : List (Temporal V)} (ho : Tallies total old given) (hn : Tallies total new more)
    (hwf : ∀ v ∈ given ++ more, v.WellFormed) (hk : Kept interp found)
    (hc : Combines combine old new found) : Tallies total found (given ++ more) := by
  have hnone : ∀ {pieces : List (Sequence V)} {vs : List (Temporal V)}, Tallies total pieces vs →
      (∀ v ∈ vs, v.WellFormed) → ∀ t : Timestamp, ¬Occupies pieces t.place →
        (vs.filterMap fun v => v.valueAt t) = [] := by
    intro pieces vs hp hvs t hocc
    rw [List.filterMap_eq_nil_iff]
    intro v hv
    rw [Option.eq_none_iff_forall_ne_some]
    intro x hx
    exact hocc ((hp.occupies_iff _).mpr
      ⟨v, hv, ((hvs v hv).exists_valueAt_iff t).mp ⟨x, hx⟩⟩)
  refine ⟨fun n => ?_, fun t x hx => ?_⟩
  · rw [hc.occupies_iff, ho.occupies_iff, hn.occupies_iff]
    simp only [List.mem_append, or_and_right, exists_or]
  · rw [List.filterMap_append]
    by_cases hold : Occupies old t.place
    · obtain ⟨y, hy⟩ := occupies_iff_exists_yields.mp hold
      by_cases hnew : Occupies new t.place
      · obtain ⟨z, hz⟩ := occupies_iff_exists_yields.mp hnew
        obtain ⟨w, hw, hfound⟩ := hc.both _ y z hy hz
        obtain rfl := yields_unique hk hx hfound
        exact ht.append (ho.total_of_yields t y hy) (hn.total_of_yields t z hz) hw
      · obtain rfl := yields_unique hk hx (hc.old_only _ y hy hnew)
        rw [hnone hn (fun v hv => hwf v (by simp [hv])) t hnew, List.append_nil]
        exact ho.total_of_yields t x hy
    · have hnew := ((hc.occupies_iff _).mp hx.occupies).resolve_left hold
      obtain ⟨z, hz⟩ := occupies_iff_exists_yields.mp hnew
      obtain rfl := yields_unique hk hx (hc.new_only _ z hz hold)
      rw [hnone ho (fun v hv => hwf v (by simp [hv])) t hold, List.nil_append]
      exact hn.total_of_yields t x hz

lemma checkInterp_eq_ok_iff {s : Aggregator V} {interp : Interpolation} {u : Unit} :
    s.checkInterp interp = .ok u ↔ ∀ i ∈ s.interp, i = interp := by
  unfold checkInterp
  cases hi : s.interp with
  | none => simp
  | some current =>
    simp only [check_bind_eq_ok, require_eq_ok, beq_iff_eq, Option.mem_some_iff, forall_eq']
    refine ⟨fun h => h.2, ?_⟩
    rintro rfl
    exact ⟨rfl, rfl⟩

/-- A state with its pieces in a row of the interpolation of what was added so far, or of any
interpolation as long as nothing was. -/
def InRow (s : Aggregator V) : Prop :=
  ∀ interp, (∀ i ∈ s.interp, i = interp) → Row interp s.list

lemma spliced_spec [StepValue V] {s s' : Aggregator V} {interp : Interpolation}
    {new : List (Sequence V)} (h : s.InRow) (hn : Kept interp new)
    (hok : s.spliced interp new = .ok s') :
    s'.combine = s.combine ∧ s'.window = s.window ∧ s'.interp = some interp ∧
      Row interp s'.list ∧ Combines s.combine s.pieces new s'.pieces := by
  unfold Aggregator.spliced at hok
  rw [check_bind_eq_ok] at hok
  obtain ⟨hcheck, hok⟩ := hok
  simp only [bind_eq_ok, pure_eq_ok] at hok
  obtain ⟨list, hlist, rfl⟩ := hok
  have hmerge : ∀ old found, Kept interp old → old ≠ [] → new ≠ [] →
      (if interp == .discrete then mergeInstants s.combine
        else mergeSequences s.combine s.crossings) old new = .ok found →
      Kept interp found ∧ Combines s.combine old new found := by
    intro old found ho hold hnew hmerged
    by_cases hd : interp = .discrete
    · subst hd
      exact mergeInstants_spec ho hn hmerged
    · rw [if_neg (by simpa using hd)] at hmerged
      exact mergeSequences_spec hd ho hn hold hnew hmerged
  obtain ⟨hrow, hc⟩ := (h interp (checkInterp_eq_ok_iff.mp hcheck)).splice hn hmerge hlist
  exact ⟨rfl, rfl, rfl, hrow, hc⟩

/-- What is spliced into a state in a row leaves it in a row. -/
lemma InRow.spliced [StepValue V] {s s' : Aggregator V} {interp : Interpolation}
    {new : List (Sequence V)} (h : s.InRow) (hn : Kept interp new)
    (hok : s.spliced interp new = .ok s') : s'.InRow := by
  obtain ⟨-, -, hinterp, hrow, -⟩ := spliced_spec h hn hok
  intro i hi
  obtain rfl := hi interp hinterp
  exact hrow

/-- A state in order, with the totals of all values that went into it. -/
structure Folded (combine : V → V → Result V) (total : List V → V → Prop) (s : Aggregator V)
    (given : List (Temporal V)) : Prop where
  combine_eq : s.combine = combine
  window_eq : s.window = none
  row : s.InRow
  tallies : Tallies total s.pieces given

section

variable [StepValue V] {combine : V → V → Result V} {total : List V → V → Prop}
  {s s' other : Aggregator V} {given more : List (Temporal V)}

/-- Spliced into a state, pieces add what they have the totals of. -/
theorem Folded.spliced (ht : Totals combine total) (h : Folded combine total s given)
    {interp : Interpolation} {new : List (Sequence V)} (hn : Kept interp new)
    (hmore : Tallies total new more) (hwf : ∀ v ∈ given ++ more, v.WellFormed)
    (hok : s.spliced interp new = .ok s') : Folded combine total s' (given ++ more) := by
  obtain ⟨hcombine, hwindow, -, hrow, hc⟩ := spliced_spec h.row hn hok
  rw [h.combine_eq] at hc
  exact ⟨hcombine.trans h.combine_eq, hwindow.trans h.window_eq, h.row.spliced hn hok,
    h.tallies.combines ht hmore hwf hrow.kept hc⟩

omit [StepValue V] in
lemma Folded.exists_kept (h : Folded combine total s given) :
    ∃ interp, Kept interp s.pieces := by
  cases hi : s.interp with
  | none => exact ⟨.step, (h.row .step (by simp [hi])).kept⟩
  | some interp => exact ⟨interp, (h.row interp (by simp [hi])).kept⟩

theorem Folded.add (ht : Totals combine total) (h : Folded combine total s given)
    {v : Temporal V} (hwf : ∀ w ∈ given ++ [v], w.WellFormed) (hs : Succeeds (add v) s s') :
    Folded combine total s' (given ++ [v]) := by
  have hv := hwf v (by simp)
  exact h.spliced ht (kept_ownPieces hv) (tallies_ownPieces ht hv) hwf
    ((succeeds_add_iff h.window_eq).mp hs)

theorem Folded.merge (ht : Totals combine total) (h : Folded combine total s given)
    (ho : Folded combine total other more) (hwf : ∀ v ∈ given ++ more, v.WellFormed)
    (hs : Succeeds (merge other) s s') : Folded combine total s' (given ++ more) := by
  rcases succeeds_merge_iff.mp hs with ⟨hi, rfl⟩ | ⟨interp, hi, hok⟩
  · -- A state without interpolation has pieces of none.
    have hrow := ho.row .step (by simp [hi])
    have hrow' := ho.row .linear (by simp [hi])
    have hnil : other.pieces = [] := by
      rw [List.eq_nil_iff_forall_not_mem]
      intro p hp
      have := (hrow.kept.interp_eq p hp).symm.trans (hrow'.kept.interp_eq p hp)
      cases this
    have htallies := ho.tallies
    rw [hnil] at htallies
    obtain ⟨interp, hkept⟩ := h.exists_kept
    exact ⟨h.combine_eq, h.window_eq, h.row,
      h.tallies.combines ht htallies hwf hkept Combines.nil_right⟩
  · have hrow := ho.row interp (by simp [hi])
    exact h.spliced ht hrow.kept ho.tallies hwf hok

/-- Discrete pieces can be spliced into an empty state, and into any discrete one if all values can
be combined. -/
theorem Folded.exists_spliced (h : Folded combine total s given)
    (hi : ∀ i ∈ s.interp, i = .discrete) {new : List (Sequence V)} (hn : Kept .discrete new)
    (hcombine : s.pieces = [] ∨ ∀ x y, ∃ z, combine x y = .ok z) :
    ∃ s', s.spliced .discrete new = .ok s' ∧ s'.interp = some .discrete := by
  have hrow := h.row .discrete hi
  have hlist : ∃ list, s.list.splice new (mergeInstants s.combine) = .ok list := by
    cases new with
    | nil => exact ⟨s.list, rfl⟩
    | cons first more =>
      refine SkipList.exists_splice (hrow.searchable (hn.wellFormed first (by simp)))
        fun run hrun hsub => ?_
      rcases hcombine with hnil | htotal
      · exact absurd (List.sublist_nil.mp (hnil ▸ hsub)) hrun
      · rw [h.combine_eq]
        exact exists_mergeInstants htotal run _
  obtain ⟨list, hlist⟩ := hlist
  exact ⟨_, check_bind_eq_ok.mpr ⟨checkInterp_eq_ok_iff.mpr hi, bind_eq_ok.mpr ⟨list, hlist, rfl⟩⟩,
    rfl⟩

omit [StepValue V] in
lemma inRow_empty (start : Aggregator V) (maxLevel : Nat) (heights : Nat → Nat) :
    InRow { start with list := .ofHeights orderPieces maxLevel heights } := fun _ _ =>
  ⟨rfl, fun _ ht => absurd ht List.not_mem_nil, Kept.nil⟩

omit [StepValue V] in
lemma Folded.empty {start : Aggregator V} (hw : start.window = none) (maxLevel : Nat)
    (heights : Nat → Nat) :
    Folded start.combine total
      { start with list := .ofHeights orderPieces maxLevel heights } [] := by
  refine ⟨rfl, hw, inRow_empty start maxLevel heights, fun n => ?_, fun t x hx => ?_⟩
  · exact iff_of_false not_occupies_nil (by simp)
  · exact absurd hx not_yields_nil

omit [StepValue V] in
lemma Folded.perm (ht : Totals combine total) (h : Folded combine total s given)
    (hperm : given.Perm more) : Folded combine total s more := by
  refine ⟨h.combine_eq, h.window_eq, h.row, fun n => ?_, fun t x hx => ?_⟩
  · simp only [h.tallies.occupies_iff, hperm.mem_iff]
  · exact ht.perm (hperm.filterMap _) (h.tallies.total_of_yields t x hx)

/-- Every state that is reached has the totals of all values that went into it. -/
theorem Reached.folded {start : Aggregator V} (ht : Totals start.combine total)
    (hw : start.window = none) (h : Reached start add s given)
    (hwf : ∀ v ∈ given, v.WellFormed) : Folded start.combine total s given := by
  induction h with
  | empty maxLevel heights => exact Folded.empty hw maxLevel heights
  | offer _ hs ih => exact (ih fun v hv => hwf v (by simp [hv])).add ht hwf hs
  | merge _ _ hs ih ih' =>
    exact (ih fun v hv => hwf v (by simp [hv])).merge ht (ih' fun v hv => hwf v (by simp [hv]))
      hwf hs

end

end Aggregator

end TemporalAlgebra
