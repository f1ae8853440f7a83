import TemporalAlgebra.Proofs.SpanSet.Identities
import TemporalAlgebra.Proofs.Temporal.TimeRestriction
import TemporalAlgebra.Temporal.Delete

/-!
# Deletion away from a value

Times at which a value is not defined can hold one of its instants still: the one at an exclusive
bound. Deletion that leaves gaps open takes nothing away then. Deletion that connects goes by
instants: it drops the one at the bound, and with it all values up to the next instant.
-/
namespace TemporalAlgebra

namespace Sequence

variable {V : Type} [TemporalValue V]

omit [TemporalValue V] in
lemma repeatEnd_concat (a : Instant V) (xs : List (Instant V)) (z : Instant V) :
    repeatEnd a (xs ++ [z]) = xs ++ [z.withValue (xs.getLastD a).value] := by
  induction xs generalizing a with
  | nil => rfl
  | cons x xs ih =>
    obtain ⟨y, ys, hy⟩ : ∃ y ys, xs ++ [z] = y :: ys := List.exists_cons_of_ne_nil (by simp)
    rw [List.cons_append, hy, repeatEnd, ← hy, ih, List.getLastD_cons, List.cons_append]

/-- Whether a place lies between two instants outside of given times. -/
def Flanked (s : Sequence V) (times : PeriodSet) (n : Int) : Prop :=
  ∃ i ∈ s.instants, ∃ j ∈ s.instants, ¬times.Covers i.time.place ∧ ¬times.Covers j.time.place ∧
    i.time.place ≤ n ∧ n ≤ j.time.place

/-- A sequence over a run of instants with given bounds, which holds the values of the run. -/
structure RunsOver (first : Instant V) (rest : List (Instant V)) (lowerInc upperInc : Bool)
    (interp : Interpolation) (x : Sequence V) : Prop where
  wellFormed : x.WellFormed
  interp_eq : x.interp = interp
  lo_eq : x.lo = first.time.place + if lowerInc then 0 else 1
  hi_eq : x.hi = (rest.getLastD first).time.place - if upperInc then 0 else 1
  held_eq : ∀ n ≤ x.hi, x.held n = heldFrom n first rest

variable [StepValue V] {s : Sequence V} {first : Instant V} {rest : List (Instant V)}
  {lowerInc upperInc : Bool}

/-- The instant at an exclusive end has no place of its own: it can take another value. -/
lemma runsOver_of_makeRun {xs : List (Instant V)} {z : Instant V} {value : V}
    {interp : Interpolation} {x : Sequence V} (hvalue : upperInc = true → value = z.value)
    (hl : interp ≠ .linear) (hrise : (first :: (xs ++ [z])).Pairwise Instant.Precedes)
    (hok : makeRun first (xs ++ [z.withValue value]) lowerInc upperInc interp true = .ok x) :
    RunsOver first (xs ++ [z]) lowerInc upperInc interp x := by
  have hbuilt := builtFrom_of_makeRun hok
  have hhi := hbuilt.hi_eq
  rw [List.getLastD_concat] at hhi
  refine ⟨hbuilt.wellFormed, hbuilt.interp_eq, hbuilt.lo_eq, ?_, fun n hn => ?_⟩
  · rw [List.getLastD_concat]
    exact hhi
  · rw [held_of_makeRun hl hok, heldFrom_append hrise,
      heldFrom_append (makeRun_eq_ok_iff.mp hok).1.rising]
    change (if z.time.place ≤ n then value else _) = if z.time.place ≤ n then z.value else _
    split
    · rename_i hz
      rw [hvalue]
      by_contra hu
      rw [if_neg hu] at hhi
      change x.hi = z.time.place - 1 at hhi
      omega
    · rfl

/-- A run of rising instants, of one only if both bounds are inclusive, makes up a sequence. -/
lemma exists_withRun (h : s.WellFormed) (hd : s.isDiscrete = false)
    (hrise : (first :: rest).Pairwise Instant.Precedes)
    (hclosed : rest = [] → lowerInc = true ∧ upperInc = true) :
    ∃ x, s.withRun first rest lowerInc upperInc true = .ok x ∧
      RunsOver first rest lowerInc upperInc s.interp x := by
  have hl := h.interp_ne_linear
  have hd := isDiscrete_eq_false_iff.mp hd
  have hmake : ∀ {run : List (Instant V)}, Checked first run lowerInc upperInc s.interp →
      ∃ x, makeRun first run lowerInc upperInc s.interp true = .ok x :=
    exists_makeRun_of_ne_linear hl
  rcases List.eq_nil_or_concat rest with rfl | ⟨xs, z, rfl⟩
  · obtain ⟨x, hok⟩ := hmake ⟨fun hi => absurd hi hl, hrise, fun _ => hclosed rfl,
      fun _ hu => by simp [hclosed rfl] at hu⟩
    have hbuilt := builtFrom_of_makeRun hok
    refine ⟨x, ?_, hbuilt.wellFormed, hbuilt.interp_eq, hbuilt.lo_eq, hbuilt.hi_eq, fun n _ =>
      held_of_makeRun hl hok n⟩
    unfold withRun
    rw [repeatEnd, ite_self]
    exact hok
  · rw [List.concat_eq_append] at hrise ⊢
    have hrun : ∀ value, (s.interp = .step → upperInc = false →
        value = (xs.getLastD first).value) →
        Checked first (xs ++ [z.withValue value]) lowerInc upperInc s.interp := by
      intro value hvalue
      refine ⟨fun hi => absurd hi hl, ?_, ?_, fun hs hu => ?_⟩
      · refine pairwise_precedes (c := value) ?_ fun _ _ => StepValue.compatible_eq_ok _ _
        have hplaces := hrise.imp fun hab => hab.1
        rw [← List.cons_append, List.pairwise_append] at hplaces ⊢
        simpa [Instant.withValue] using hplaces
      · rintro (hn | hi)
        · simp at hn
        · exact absurd hi hd
      · rw [endsRepeated_concat, ← hvalue hs hu]
        exact BEq.rfl
    unfold withRun
    by_cases hrepeat : (s.interp == .step && !upperInc) = true
    · rw [if_pos hrepeat, repeatEnd_concat]
      obtain ⟨x, hok⟩ := hmake (hrun _ fun _ _ => rfl)
      refine ⟨x, hok, runsOver_of_makeRun (fun hu => ?_) hl hrise hok⟩
      simp [hu] at hrepeat
    · rw [if_neg hrepeat]
      obtain ⟨x, hok⟩ := hmake (hrun z.value fun hs hu => absurd (by simp [hs, hu]) hrepeat)
      exact ⟨x, hok, runsOver_of_makeRun (fun _ => rfl) hl hrise hok⟩

section

variable {times : PeriodSet}

omit [TemporalValue V] [StepValue V] in
lemma mem_outside (ht : times.WellFormed) {instants : List (Instant V)} {i : Instant V} :
    i ∈ instants.filter (fun i => !times.containsValue i.time) ↔
      i ∈ instants ∧ ¬times.Covers i.time.place := by
  rw [List.mem_filter, Bool.not_eq_true', ← Bool.not_eq_true, ht.containsValue_iff]
  rfl

variable (h : s.WellFormed) (hd : s.isDiscrete = false) (ht : times.WellFormed)
  (haway : ∀ n, s.Covers n → ¬times.Covers n)
  (hkept : s.instants.filter (fun i => !times.containsValue i.time) = first :: rest)

include hkept

include ht in
omit [StepValue V] in
lemma mem_kept {i : Instant V} :
    i ∈ first :: rest ↔ i ∈ s.instants ∧ ¬times.Covers i.time.place := by
  rw [← hkept, mem_outside ht]

include h

lemma rising_kept : (first :: rest).Pairwise Instant.Precedes := by
  rw [← hkept]
  exact h.rising.sublist List.filter_sublist

include ht

lemma flanked_iff {n : Int} : s.Flanked times n ↔
    first.time.place ≤ n ∧ n ≤ (rest.getLastD first).time.place := by
  have hrise := rising_kept h hkept
  constructor
  · rintro ⟨i, hi, j, hj, hiout, hjout, hin, hnj⟩
    exact ⟨(first_le hrise ((mem_kept ht hkept).mpr ⟨hi, hiout⟩)).trans hin,
      hnj.trans (place_le_last hrise j ((mem_kept ht hkept).mpr ⟨hj, hjout⟩))⟩
  · rintro ⟨hin, hnj⟩
    obtain ⟨hi, hiout⟩ := (mem_kept ht hkept).mp (List.mem_cons_self ..)
    obtain ⟨hj, hjout⟩ := (mem_kept ht hkept).mp (List.getLastD_mem_cons (l := rest) (a := first))
    exact ⟨first, hi, _, hj, hiout, hjout, hin, hnj⟩

include haway

/-- A first instant that is dropped is at an exclusive bound, so what follows it lies inside. -/
lemma lower_kept : (first.time.place +
    if s.lowerInc || times.containsValue s.first.time then 0 else 1) =
      max s.lo first.time.place := by
  obtain ⟨hmem, hout⟩ := (mem_kept ht hkept).mp (List.mem_cons_self ..)
  have hle := first_le h.rising hmem
  have hlo := lo_eq s
  by_cases hin : times.containsValue s.first.time = true
  · have hplace : times.Covers s.first.time.place := (ht.containsValue_iff _).mp hin
    have hexclusive : s.lowerInc = false := by
      by_contra hinc
      rw [Bool.not_eq_false] at hinc
      rw [hinc, if_pos rfl, Int.add_zero] at hlo
      exact haway _ (hlo ▸ h.covers_lo) hplace
    have hne : s.first.time.place ≠ first.time.place := fun heq => hout (heq ▸ hplace)
    rw [hexclusive, if_neg Bool.false_ne_true] at hlo
    rw [hin, Bool.or_true, if_pos rfl]
    omega
  · have hfirst : s.first ∈ first :: rest :=
      (mem_kept ht hkept).mpr ⟨by simp [instants], fun hc => hin ((ht.containsValue_iff _).mpr hc)⟩
    have hge := first_le (rising_kept h hkept) hfirst
    rw [Bool.eq_false_iff.mpr hin, Bool.or_false, le_antisymm hge hle, ← hlo]
    refine (max_eq_left ?_).symm
    split at hlo <;> omega

include hd

lemma upper_kept : ((rest.getLastD first).time.place -
    if s.upperInc || times.containsValue s.last.time then 0 else 1) =
      min s.hi (rest.getLastD first).time.place := by
  obtain ⟨hmem, hout⟩ := (mem_kept ht hkept).mp (List.getLastD_mem_cons (l := rest) (a := first))
  have hle := place_le_last h.rising _ hmem
  change _ ≤ s.last.time.place at hle
  have hhi := hi_eq s
  by_cases hin : times.containsValue s.last.time = true
  · have hplace : times.Covers s.last.time.place := (ht.containsValue_iff _).mp hin
    have hexclusive : s.upperInc = false := by
      by_contra hinc
      rw [Bool.not_eq_false] at hinc
      rw [hinc, if_pos rfl, Int.sub_zero] at hhi
      refine haway _ ((covers_of_continuous hd _).mpr ⟨?_, hhi.ge⟩) hplace
      exact hhi ▸ h.lo_le_hi
    have hne : s.last.time.place ≠ (rest.getLastD first).time.place :=
      fun heq => hout (heq ▸ hplace)
    rw [hexclusive, if_neg Bool.false_ne_true] at hhi
    rw [hin, Bool.or_true, if_pos rfl]
    omega
  · have hlast : s.last ∈ first :: rest :=
      (mem_kept ht hkept).mpr ⟨s.last_mem, fun hc => hin ((ht.containsValue_iff _).mpr hc)⟩
    have hge := place_le_last (rising_kept h hkept) _ hlast
    rw [Bool.eq_false_iff.mpr hin, Bool.or_false, le_antisymm hle hge, ← hhi]
    refine (min_eq_left ?_).symm
    split at hhi <;> omega

lemma held_kept {n : Int} (hn : s.Covers n) (hfirst : first.time.place ≤ n) :
    heldFrom n first rest = s.held n := by
  obtain ⟨hmem, hout⟩ := (mem_kept ht hkept).mp (List.mem_cons_self ..)
  rw [covers_of_continuous hd] at hn
  obtain ⟨i, hi, hv⟩ := exists_latest h.rising ((first_le h.rising hmem).trans hfirst)
  have hafter := hi.le_place first hmem hfirst
  have hle := hi.place_le
  -- the latest instant is inside, unless it is the first one that is kept
  have hiout : ¬times.Covers i.time.place := by
    intro hc
    have hne : first.time.place ≠ i.time.place := fun heq => hout (heq ▸ hc)
    have hfirst' := first_le h.rising hmem
    have hlo := lo_eq s
    refine haway i.time.place ((covers_of_continuous hd _).mpr ?_) hc
    split at hlo <;> omega
  have hlatest : Latest n (first :: rest) i :=
    ⟨(mem_kept ht hkept).mpr ⟨hi.mem, hiout⟩, hle,
      fun j hj hjn => hi.le_place j ((mem_kept ht hkept).mp hj).1 hjn⟩
  rw [heldFrom_of_latest (rising_kept h hkept) hlatest]
  exact hv.symm

end

/-- Connected deletion of times away from a sequence leaves what lies between the instants that are
outside of them. -/
lemma exists_withoutPeriods {times : PeriodSet} (h : s.WellFormed) (hd : s.isDiscrete = false)
    (ht : times.WellFormed) (haway : ∀ n, s.Covers n → ¬times.Covers n) (c : V) :
    ∃ found, s.withoutPeriods times = .ok found ∧ Cuts c [s] (s.Flanked times) found.toList := by
  unfold withoutPeriods
  simp only [Bool.not_not]
  split
  · rename_i hnone
    refine ⟨none, rfl, Cuts.of_not_covers ?_⟩
    rintro n - ⟨i, hi, -, -, hiout, -⟩
    have := (mem_outside ht).mpr ⟨hi, hiout⟩
    rw [hnone] at this
    simp at this
  · rename_i first rest hkept
    have hlower := lower_kept h ht haway hkept
    have hupper := upper_kept h hd ht haway hkept
    generalize (s.lowerInc || times.containsValue s.first.time) = lowerInc at hlower ⊢
    generalize (s.upperInc || times.containsValue s.last.time) = upperInc at hupper ⊢
    split
    · rename_i hfew
      rw [Bool.and_eq_true, List.isEmpty_iff] at hfew
      obtain ⟨rfl, hopen⟩ := hfew
      refine ⟨none, rfl, Cuts.of_not_covers ?_⟩
      rintro n ⟨x, hx, hn⟩ hflanked
      obtain rfl := List.mem_singleton.mp hx
      rw [flanked_iff h ht hkept] at hflanked
      rw [covers_of_continuous hd] at hn
      rw [List.getLastD_nil] at hflanked hupper
      cases lowerInc with
      | false => simp only [Bool.false_eq_true, if_false] at hlower; omega
      | true =>
        cases upperInc with
        | false => simp only [Bool.false_eq_true, if_false] at hupper; omega
        | true => simp at hopen
    · rename_i hmany
      have hclosed : rest = [] → lowerInc = true ∧ upperInc = true :=
        fun hnil => by simpa [hnil] using hmany
      obtain ⟨x, hok, hx⟩ := exists_withRun h hd (rising_kept h hkept) hclosed
      have hxd : x.isDiscrete = false := by
        rw [isDiscrete_eq_false_iff, hx.interp_eq]
        exact isDiscrete_eq_false_iff.mp hd
      have hcov : ∀ n, x.Covers n ↔ s.Covers n ∧ s.Flanked times n := by
        intro n
        rw [covers_of_continuous hxd, covers_of_continuous hd, flanked_iff h ht hkept, hx.lo_eq,
          hx.hi_eq, hlower, hupper]
        omega
      refine ⟨some x, ?_, Cuts.single hx.wellFormed hx.interp_eq
        (fun i _ => StepValue.compatible_eq_ok c i.value) hcov fun _ n hn => ?_⟩
      · simp only [bind_eq_ok, pure_eq_ok]
        exact ⟨x, hok, rfl⟩
      · obtain ⟨hsn, hflanked⟩ := (hcov n).mp hn
        rw [hx.held_eq n ((covers_of_continuous hxd n).mp hn).2]
        exact held_kept h hd ht haway hkept hsn ((flanked_iff h ht hkept).mp hflanked).1

end Sequence

namespace Temporal

open Sequence

variable {V : Type} [TemporalValue V]

def Flanked (v : Temporal V) (times : PeriodSet) (n : Int) : Prop :=
  ∃ s ∈ v.sequences, s.Covers n ∧ s.Flanked times n

variable [StepValue V] {v : Temporal V} {times : PeriodSet}

lemma flanked_iff_of_covers (h : v.WellFormed) {s : Sequence V} (hs : s ∈ v.sequences) {n : Int}
    (hn : s.Covers n) : v.Flanked times n ↔ s.Flanked times n := by
  refine ⟨?_, fun hflanked => ⟨s, hs, hn, hflanked⟩⟩
  rintro ⟨s', hs', hn', hflanked⟩
  rwa [h.eq_of_mem_period hs hs' ((h.sequences s hs).mem_period hn)
    ((h.sequences s' hs').mem_period hn')]

lemma flanked_of_outside (h : v.WellFormed) (hout : ∀ i ∈ v.instants, ¬times.Covers i.time.place)
    {n : Int} (hn : v.Covers n) : v.Flanked times n := by
  obtain ⟨s, hs, hn⟩ := hn
  have hlo := lo_eq s
  have hhi := hi_eq s
  have hmem := (h.sequences s hs).mem_period hn
  refine ⟨s, hs, hn, s.first, by simp [Sequence.instants], s.last, s.last_mem,
    hout _ (mem_instants_iff.mpr ⟨s, hs, by simp [Sequence.instants]⟩),
    hout _ (mem_instants_iff.mpr ⟨s, hs, s.last_mem⟩), ?_, ?_⟩
  · split at hlo <;> omega
  · split at hhi <;> omega

/-- Connected deletion of times away from a value leaves what lies between instants outside of
them. -/
lemma connected_deletion_restricts (h : v.WellFormed) (hd : v.isDiscrete = false)
    (ht : times.WellFormed) (haway : ∀ n, v.Covers n → ¬times.Covers n) :
    ∃ found, v.deletePeriods times true = .ok found ∧ Restricts v (v.Flanked times) found := by
  have hpiece : ∀ s ∈ v.sequences, ∃ found, s.withoutPeriods times = .ok found ∧
      Cuts v.firstInstant.value [s] (v.Flanked times) found.toList := by
    intro s hs
    obtain ⟨found, hok, hcuts⟩ := exists_withoutPeriods (h.sequences s hs)
      ((h.isTrain hd).isDiscrete hs) ht (fun n hn => haway n ⟨s, hs, hn⟩) v.firstInstant.value
    refine ⟨found, hok, hcuts.congr ?_⟩
    rintro n ⟨x, hx, hn⟩
    obtain rfl := List.mem_singleton.mp hx
    exact (flanked_iff_of_covers h hs hn).symm
  choose! piece hok hcuts using hpiece
  obtain ⟨pieces, hpieces, hall⟩ := mapM_cut_spec h.sequences h.rising fun s hs =>
    ⟨(piece s).toList, rfl, hcuts s hs⟩
  obtain rfl := Except.ok.inj (hpieces.symm.trans (mapM_eq_map fun s _ => rfl))
  obtain ⟨found, hfound, hr⟩ := restricts_of_cuts h hall (completes_ofPieces hall.wellFormed
    (interp_eq_of_cuts h.interp_eq hall) hall.apart hall.compatible
    (confined_of_ne_linear fun s hs => (hall.wellFormed s hs).interp_ne_linear))
  refine ⟨found, ?_, hr⟩
  unfold deletePeriods
  rw [hd, if_neg (by simp), reported_eq_ok, bind_of_ok (mapM_eq_map hok), List.filterMap_map,
    List.filterMap_eq_flatMap_toList]
  exact hfound

/-- Deletion of times at which a value is not defined, with gaps left open, of a discrete value or
where none of its instants lies in the times, leaves the value as it is at every timestamp. Deletion
that connects otherwise leaves the values between instants that do not lie in the times only. -/
theorem deletion_away_from_value (h : v.WellFormed) (ht : times.WellFormed)
    (haway : v.time.overlaps times = false) (connecting : Bool) :
    ∃ found, v.deletePeriods times connecting = .ok found ∧
      (connecting = false ∨ v.isDiscrete = true ∨
          (∀ i ∈ v.instants, times.containsValue i.time = false) →
        ∃ r, found = some r ∧ ∀ t, r.valueAt t = v.valueAt t) ∧
      (connecting = true → v.isDiscrete = false → ∀ t x,
        (found.bind fun r => r.valueAt t) = some x ↔
          v.valueAt t = some x ∧ v.Flanked times t.place) := by
  obtain ⟨htime, hcov⟩ := h.time_spec
  have haway : ∀ n, v.Covers n → ¬times.Covers n := fun n hn =>
    (htime.overlaps_eq_false_iff ht).mp haway n ((hcov n).mpr hn)
  by_cases hopen : (!connecting || v.isDiscrete) = true
  · obtain ⟨found, hok, hr⟩ := exists_outsidePeriods h ht
    refine ⟨found, ?_, fun _ => hr.unchanged h haway, fun hc hd => ?_⟩
    · unfold deletePeriods
      rw [if_pos hopen]
      exact reported_eq_ok.mpr hok
    · simp [hc, hd] at hopen
  · rw [Bool.or_eq_true, Bool.not_eq_true', not_or, Bool.not_eq_false, Bool.not_eq_true] at hopen
    obtain ⟨rfl, hd⟩ := hopen
    obtain ⟨found, hok, hr⟩ := connected_deletion_restricts h hd ht haway
    refine ⟨found, hok, ?_, fun _ _ t x => ?_⟩
    · rintro (hc | hd' | hout)
      · simp at hc
      · simp [hd] at hd'
      · refine hr.unchanged h fun n hn => flanked_of_outside h (fun i hi hc => ?_) hn
        have := hout i hi
        rw [(ht.containsValue_iff i.time).mpr hc] at this
        simp at this
    · rw [bind_valueAt_eq_some_iff hr.wellFormed, hr.takes_iff inferInstance,
        h.valueAt_eq_some_iff]

/-- What goes up by steps is the same without times after it, and with its exclusive end deleted if
the gap is left open. -/
theorem stairs_undeleted :
    stairs.WellFormed ∧ (SpanSet.ofSpan (Period.singleton (.nearest 20))).WellFormed ∧
      stairs.time.overlaps (.ofSpan (Period.singleton (.nearest 20))) = false ∧
      ∃ r, stairs.deletePeriods (.ofSpan (Period.singleton (.nearest 20))) false = .ok (some r) ∧
        ∀ t, r.valueAt t = stairs.valueAt t := by
  have ht := SpanSet.wellFormed_ofSpan (Period.singleton_valid (.nearest 20))
  have haway : stairs.time.overlaps (.ofSpan (Period.singleton (.nearest 20))) = false := by decide
  obtain ⟨found, hok, hunchanged, -⟩ := deletion_away_from_value stairs_wellFormed ht haway false
  obtain ⟨r, rfl, hr⟩ := hunchanged (Or.inl rfl)
  exact ⟨stairs_wellFormed, ht, haway, r, hok, hr⟩

/-- Connected deletion at the exclusive end of what goes up by steps takes the last step away. -/
theorem stairs_clipped :
    stairs.WellFormed ∧ (SpanSet.ofSpan (Period.singleton (.nearest 20))).WellFormed ∧
      stairs.time.overlaps (.ofSpan (Period.singleton (.nearest 20))) = false ∧
      ∃ r, stairs.deletePeriods (.ofSpan (Period.singleton (.nearest 20))) true = .ok (some r) ∧
        r.valueAt (.nearest 15) = none ∧ stairs.valueAt (.nearest 15) = some (.clamp 2) := by
  have hpieces : stairs.sequences.mapM (fun s => s.withoutPeriods
      (.ofSpan (Period.singleton (.nearest 20)))) =
        .ok [some (.ofRun ⟨.clamp 1, .nearest 0⟩ [⟨.clamp 2, .nearest 10⟩] true true .step)] := rfl
  refine ⟨stairs_wellFormed, SpanSet.wellFormed_ofSpan (Period.singleton_valid (.nearest 20)),
    by decide, .sequence (.ofRun ⟨.clamp 1, .nearest 0⟩ [⟨.clamp 2, .nearest 10⟩] true true .step),
    ?_, rfl, rfl⟩
  unfold deletePeriods
  rw [if_neg (by decide), reported_eq_ok, bind_of_ok hpieces]
  have hstep : Interpolation.step ≠ .discrete := by decide
  refine (ofPieces_continuous hstep (List.forall_mem_singleton.mpr rfl)).mpr
    (Or.inr ⟨List.cons_ne_nil _ _, _, rfl, ?_⟩)
  rw [List.mergeSort_singleton]
  rfl

end Temporal

end TemporalAlgebra
