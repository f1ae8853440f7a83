import TemporalAlgebra.Proofs.Temporal.Cutting
import TemporalAlgebra.Proofs.Temporal.Lookup
import TemporalAlgebra.Proofs.ValueSet

/-!
# Restriction to times

What is left of a value within periods and what is left outside of them share no place and make up
the whole: the time of the one is the common part of the time of the value and the periods, the time
of the other one is the rest. Values that change by steps stay what they are at every timestamp. The
same holds of the timestamps of a set.
-/
namespace TemporalAlgebra

namespace Temporal

open Sequence

variable {V : Type} [TemporalValue V] [LawfulValue V]

omit [LawfulValue V] in
/-- The period of a set goes from the first place of its first to the last place of its last
sequence. -/
lemma timespan_lo_hi (s : SequenceSet V) :
    (sequenceSet s).timespan.lo = s.first.lo ∧ (sequenceSet s).timespan.hi = s.last.hi := by
  have hlo : s.first.period.lo % 3 ≠ 0 := by
    have := s.first.period.lo_emod
    omega
  have hhi : s.last.period.hi % 3 ≠ 2 := by
    have := s.last.period.hi_emod
    omega
  exact ⟨Span.lo_ofBounds _ hlo, Span.hi_ofBounds _ hhi⟩

/-- The places of a value lie in its smallest period. -/
lemma WellFormed.timespan_covers {v : Temporal V} (h : v.WellFormed) {n : Int}
    (hn : v.Covers n) : v.timespan.Covers n := by
  cases v with
  | instant i =>
    obtain ⟨s, hs, hn⟩ := hn
    obtain rfl := List.mem_singleton.mp hs
    exact (Period.covers_singleton i.time n).mpr ((covers_ofInstant i .discrete n).mp hn)
  | sequence s =>
    obtain ⟨x, hx, hn⟩ := hn
    obtain rfl := List.mem_singleton.mp hx
    exact Sequence.WellFormed.mem_period h hn
  | sequenceSet s =>
    obtain ⟨x, hx, hn⟩ := hn
    have htrain := SequenceSet.WellFormed.isTrain h
    have hlast := SequenceSet.hi_le_last htrain x hx
    have hmem := (htrain.wellFormed x hx).mem_period hn
    have hfirst : s.first.lo ≤ x.lo := by
      rcases List.mem_cons.mp hx with rfl | hx
      · exact le_refl _
      · have hb : s.first.Before x := List.rel_of_pairwise_cons htrain.rising hx
        have := (htrain.wellFormed s.first (List.mem_cons_self ..)).lo_le_hi
        unfold Before at hb
        omega
    obtain ⟨hlo, hhi⟩ := timespan_lo_hi s
    change (sequenceSet s).timespan.lo ≤ n ∧ n ≤ (sequenceSet s).timespan.hi
    change x.hi ≤ s.last.hi at hlast
    omega

lemma WellFormed.covers_timespan_ends {v : Temporal V} (h : v.WellFormed) :
    v.Covers v.timespan.lo ∧ v.Covers v.timespan.hi := by
  cases v with
  | instant i =>
    have hlo : (Period.singleton i.time).lo = i.time.place := rfl
    have hhi : (Period.singleton i.time).hi = i.time.place := rfl
    have hcov : (instant i).Covers i.time.place :=
      ⟨ofInstant i .discrete, List.mem_singleton.mpr rfl, (covers_ofInstant ..).mpr rfl⟩
    exact ⟨hlo ▸ hcov, hhi ▸ hcov⟩
  | sequence s =>
    have hs : s ∈ (sequence s).sequences := List.mem_singleton.mpr rfl
    exact ⟨⟨s, hs, Sequence.WellFormed.covers_lo h⟩, s, hs, Sequence.WellFormed.covers_hi h⟩
  | sequenceSet s =>
    obtain ⟨hlo, hhi⟩ := timespan_lo_hi s
    have hfirst : s.first ∈ s.sequences := List.mem_cons_self ..
    have hlast : s.last ∈ s.sequences := List.getLastD_mem_cons
    rw [hlo, hhi]
    exact ⟨⟨s.first, hfirst, (h.sequences _ hfirst).covers_lo⟩, s.last, hlast,
      (h.sequences _ hlast).covers_hi⟩

lemma WellFormed.timespan_eq {v w : Temporal V} (hv : v.WellFormed) (hw : w.WellFormed)
    (h : ∀ n, v.Covers n ↔ w.Covers n) : v.timespan = w.timespan := by
  obtain ⟨hvlo, hvhi⟩ := hv.covers_timespan_ends
  obtain ⟨hwlo, hwhi⟩ := hw.covers_timespan_ends
  have h1 := hw.timespan_covers ((h _).mp hvlo)
  have h2 := hw.timespan_covers ((h _).mp hvhi)
  have h3 := hv.timespan_covers ((h _).mpr hwlo)
  have h4 := hv.timespan_covers ((h _).mpr hwhi)
  unfold Span.Covers at h1 h2 h3 h4
  exact Span.eq_of_lo_hi (by omega) (by omega)

omit [LawfulValue V] in
lemma proper_of_mem {v : Temporal V} (hp : v.Proper) {s : Sequence V} (hs : s ∈ v.sequences) :
    s.Proper := fun _ i hi => hp i (mem_instants_iff.mpr ⟨s, hs, hi⟩)

omit [LawfulValue V] in
lemma proper_of_step [StepValue V] (v : Temporal V) : v.Proper := fun _ _ => BEq.rfl

lemma compatible_of_mem {v : Temporal V} (h : v.WellFormed) {s : Sequence V}
    (hs : s ∈ v.sequences) : ∀ i ∈ s.instants,
      TemporalValue.compatible v.firstInstant.value i.value = .ok () :=
  fun _ hi => h.compatible_first (mem_instants_iff.mpr ⟨s, hs, hi⟩)

omit [LawfulValue V] in
lemma restricts_self {v : Temporal V} (h : v.WellFormed) {inside : Int → Prop}
    (hin : ∀ n, v.Covers n → inside n) : Restricts v inside (some v) := by
  refine ⟨?_, ?_, fun n => ?_, fun _ n x => ?_⟩
  · rintro x ⟨⟩
    exact h
  · rintro x ⟨⟩
    rfl
  · exact ⟨fun hn => ⟨hn, hin n hn⟩, And.left⟩
  · exact ⟨fun hx => ⟨hx, hin n (covers_iff_exists_takes.mpr ⟨x, hx⟩)⟩, And.left⟩

omit [LawfulValue V] in
lemma restricts_none {v : Temporal V} {inside : Int → Prop}
    (hin : ∀ n, v.Covers n → ¬inside n) : Restricts v inside none := by
  refine ⟨by simp, by simp, fun n => ?_, fun _ n x => ?_⟩
  · exact iff_of_false (not_someCovers_none n) fun hn => hin n hn.1 hn.2
  · refine iff_of_false (not_someTakes_none n x) fun hx => ?_
    exact hin n (covers_iff_exists_takes.mpr ⟨x, hx.1⟩) hx.2

/-- A value whose sequences can be cut to periods has a part within them. -/
lemma withinPeriods_of_cuts {v : Temporal V} (h : v.WellFormed) {times : PeriodSet}
    (ht : times.WellFormed) (hcut : v.timespan.overlaps times.hull = true →
      ∀ s ∈ v.sequences, Completes (s.atPeriods times) → ∃ pieces,
        s.atPeriods times = .ok pieces ∧ Cuts v.firstInstant.value [s] times.Covers pieces)
    (hdone : Completes (v.withinPeriods times)) :
    ∃ found, v.withinPeriods times = .ok found ∧ Restricts v times.Covers found := by
  unfold withinPeriods at hdone ⊢
  by_cases hov : v.timespan.overlaps times.hull = true
  · have hcut := cut_spec h (hcut hov)
    rw [hov, Bool.not_true, if_neg Bool.false_ne_true] at hdone ⊢
    cases v with
    | instant i =>
      have hi : ∀ n, (instant i).Covers n → n = i.time.place := by
        rintro n ⟨s, hs, hn⟩
        obtain rfl := List.mem_singleton.mp hs
        exact (covers_ofInstant i .discrete n).mp hn
      have hcontains : times.containsValue i.time = true ↔ times.Covers i.time.place :=
        ht.containsValue_iff i.time
      refine ⟨_, rfl, ?_⟩
      by_cases hin : times.containsValue i.time = true
      · rw [if_pos hin]
        refine restricts_self h fun n hn => ?_
        rw [hi n hn]
        exact hcontains.mp hin
      · rw [if_neg hin]
        refine restricts_none fun n hn => ?_
        rw [hi n hn]
        exact fun hc => hin (hcontains.mpr hc)
    | sequence s => exact hcut hdone
    | sequenceSet s => exact hcut hdone
  · rw [Bool.not_eq_true] at hov
    rw [hov, Bool.not_false, if_pos rfl]
    refine ⟨none, rfl, restricts_none fun n hn hin => ?_⟩
    rw [← Bool.not_eq_true, Span.overlaps_iff] at hov
    have h1 := h.timespan_covers hn
    have h2 := ht.covers_hull hin
    unfold Span.Covers at h1 h2
    omega

/-- The part within periods, unless it is given up, is what is left of the value inside of them. -/
theorem withinPeriods_spec {v : Temporal V} (h : v.WellFormed) (hp : v.Proper) {times : PeriodSet}
    (ht : times.WellFormed) (hdone : Completes (v.withinPeriods times)) :
    ∃ found, v.withinPeriods times = .ok found ∧ Restricts v times.Covers found :=
  withinPeriods_of_cuts h ht (fun _ s hs =>
    atPeriods_spec (h.sequences s hs) (proper_of_mem hp hs) (compatible_of_mem h hs) ht) hdone

/-- The part of a short value within periods is not given up. -/
lemma completes_withinPeriods {v : Temporal V} (h : v.WellFormed) (hp : v.Proper)
    (hshort : v.Short) {times : PeriodSet} (ht : times.WellFormed) :
    Completes (v.withinPeriods times) := by
  have hcut := completes_cut h hshort (fun s hs =>
      atPeriods_spec (h.sequences s hs) (proper_of_mem hp hs) (compatible_of_mem h hs) ht)
    fun s hs => completes_atPeriods (h.sequences s hs) (proper_of_mem hp hs)
      (compatible_of_mem h hs) ht (h.shortRun hshort hs)
  unfold withinPeriods
  split
  · exact Completes.ok _
  · cases v with
    | instant i => exact Completes.ok _
    | sequence s => exact hcut
    | sequenceSet s => exact hcut

omit [LawfulValue V] in
lemma withinPeriods_of_overlaps {s : Sequence V} {v : Temporal V} {times : PeriodSet}
    (hov : v.timespan.overlaps times.hull = true) (hs : s ∈ v.sequences)
    {found : Option (Temporal V)} (hok : v.withinPeriods times = .ok found) :
    s.isDiscrete = true ∨ ∃ pieces, s.atPeriods times = .ok pieces := by
  unfold withinPeriods at hok
  rw [hov, Bool.not_true, if_neg Bool.false_ne_true] at hok
  cases v with
  | instant i =>
    obtain rfl := List.mem_singleton.mp hs
    exact Or.inl rfl
  | sequence s =>
    obtain ⟨all, hall, -⟩ := bind_eq_ok.mp hok
    obtain ⟨pieces, -, hpieces⟩ := mem_mapM_of_mem hall hs
    exact Or.inr ⟨pieces, hpieces⟩
  | sequenceSet s =>
    obtain ⟨all, hall, -⟩ := bind_eq_ok.mp hok
    obtain ⟨pieces, -, hpieces⟩ := mem_mapM_of_mem hall hs
    exact Or.inr ⟨pieces, hpieces⟩

/-- The part within periods, if it is not refused, is what is left of the value inside of them. -/
theorem returns_restricts_withinPeriods {v : Temporal V} (h : v.WellFormed) {times : PeriodSet}
    (ht : times.WellFormed) : Returns (Restricts v times.Covers) (v.withinPeriods times) := by
  intro found hok
  obtain ⟨found', hok', hr⟩ := withinPeriods_of_cuts h ht (fun hov s hs _ => by
    have hwf := h.sequences s hs
    have hc := compatible_of_mem h hs
    rcases withinPeriods_of_overlaps hov hs hok with hd | ⟨pieces, hpieces⟩
    · exact atPeriods_of_atPeriod hwf hc ht fun hcontinuous => by simp [hd] at hcontinuous
    · exact ⟨pieces, hpieces, returns_cuts_atPeriods hwf hc ht pieces hpieces⟩) (.of_eq_ok hok)
  obtain rfl : found = found' := Except.ok.inj (hok.symm.trans hok')
  exact hr

/-- The part outside periods, unless it is given up, is what is left of the value elsewhere. -/
theorem outsidePeriods_spec {v : Temporal V} (h : v.WellFormed) (hp : v.Proper)
    {times : PeriodSet} (ht : times.WellFormed) (hdone : Completes (v.outsidePeriods times)) :
    ∃ found, v.outsidePeriods times = .ok found ∧ Restricts v (fun n => ¬times.Covers n) found := by
  obtain ⟨htime, hcov⟩ := h.time_spec
  unfold outsidePeriods at hdone ⊢
  by_cases hov : v.timespan.overlaps times.hull = true
  · rw [hov, Bool.not_true, if_neg Bool.false_ne_true] at hdone ⊢
    have hleft := htime.someCovers_minus ht
    cases hminus : v.time.minus times with
    | none =>
      refine ⟨none, rfl, restricts_none fun n hn hout => ?_⟩
      have := (hleft n).mpr ⟨(hcov n).mpr hn, hout⟩
      rw [hminus] at this
      exact SpanSet.someCovers_none n this
    | some left =>
      rw [hminus] at hdone
      obtain ⟨found, hok, hr⟩ := withinPeriods_spec h hp (htime.minus ht hminus) hdone
      have hiff : ∀ n, v.Covers n → (left.Covers n ↔ ¬times.Covers n) := by
        intro n hn
        have := hleft n
        rw [hminus, SpanSet.someCovers_some, hcov] at this
        rw [this]
        exact and_iff_right hn
      refine ⟨found, hok, hr.wellFormed, hr.interp_eq, fun n => ?_, fun hl n x => ?_⟩
      · rw [hr.covers_iff]
        exact and_congr_right (hiff n)
      · rw [hr.takes_iff hl]
        exact and_congr_right fun hx => hiff n (covers_iff_exists_takes.mpr ⟨x, hx⟩)
  · rw [Bool.not_eq_true] at hov
    rw [hov, Bool.not_false, if_pos rfl]
    refine ⟨some v, rfl, restricts_self h fun n hn hin => ?_⟩
    rw [← Bool.not_eq_true, Span.overlaps_iff] at hov
    have h1 := h.timespan_covers hn
    have h2 := ht.covers_hull hin
    unfold Span.Covers at h1 h2
    omega

/-- The part of a short value outside periods is not given up. -/
lemma completes_outsidePeriods {v : Temporal V} (h : v.WellFormed) (hp : v.Proper)
    (hshort : v.Short) {times : PeriodSet} (ht : times.WellFormed) :
    Completes (v.outsidePeriods times) := by
  unfold outsidePeriods
  split
  · exact Completes.ok _
  · cases hminus : v.time.minus times with
    | none => exact Completes.ok _
    | some left =>
      exact completes_withinPeriods h hp hshort (h.time_spec.1.minus ht hminus)

section

variable [StepValue V] {v : Temporal V} (h : v.WellFormed) {times : PeriodSet}
  (ht : times.WellFormed)
include h ht

omit [LawfulValue V] in
lemma exists_withinPeriods :
    ∃ found, v.withinPeriods times = .ok found ∧ Restricts v times.Covers found :=
  withinPeriods_spec h (proper_of_step v) ht
    (completes_withinPeriods h (proper_of_step v) h.short ht)

omit [LawfulValue V] in
lemma exists_outsidePeriods : ∃ found, v.outsidePeriods times = .ok found ∧
    Restricts v (fun n => ¬times.Covers n) found :=
  outsidePeriods_spec h (proper_of_step v) ht
    (completes_outsidePeriods h (proper_of_step v) h.short ht)

end

lemma someCovers_map_time {found : Option (Temporal V)} (hf : ∀ v ∈ found, v.WellFormed)
    (n : Int) : SpanSet.SomeCovers (found.map time) n ↔ SomeCovers found n := by
  cases found with
  | none => simp [not_someCovers_none]
  | some v =>
    rw [Option.map_some, SpanSet.someCovers_some, someCovers_some]
    exact (hf v rfl).time_spec.2 n

lemma isSome_iff_someCovers {found : Option (Temporal V)} (h : ∀ v ∈ found, v.WellFormed) :
    found.isSome = true ↔ ∃ n, SomeCovers found n := by
  cases found with
  | none => simp [not_someCovers_none]
  | some v =>
    obtain ⟨s, hs⟩ := exists_mem_sequences v
    have hlo : v.Covers s.lo := ⟨s, hs, ((h v rfl).sequences s hs).covers_lo⟩
    exact iff_of_true rfl ⟨s.lo, someCovers_some.mpr hlo⟩

lemma map_time_eq {found : Option (Temporal V)} {times : Option PeriodSet}
    (hf : ∀ v ∈ found, v.WellFormed) (ht : ∀ s ∈ times, s.WellFormed)
    (h : ∀ n, SomeCovers found n ↔ SpanSet.SomeCovers times n) : found.map time = times := by
  refine SpanSet.eq_of_someCovers (fun s hs => ?_) ht fun n => ?_
  · obtain ⟨v, hv, rfl⟩ := Option.map_eq_some_iff.mp hs
    exact (hf v hv).time_spec.1
  · rw [someCovers_map_time hf, h]

lemma bind_valueAt_eq_some_iff [StepValue V] {found : Option (Temporal V)}
    (hf : ∀ v ∈ found, v.WellFormed) (t : Timestamp) (x : V) :
    (found.bind fun v => v.valueAt t) = some x ↔ SomeTakes found t.place x := by
  cases found with
  | none => simp [not_someTakes_none]
  | some v => exact (hf v rfl).valueAt_eq_some_iff t x

lemma Restricts.valueAt_eq [StepValue V] {v : Temporal V} {inside : Int → Prop}
    {found : Option (Temporal V)} (hr : Restricts v inside found) (h : v.WellFormed)
    (t : Timestamp) (b : Bool) (hb : b = true ↔ inside t.place) :
    (found.bind fun x => x.valueAt t) = if b then v.valueAt t else none := by
  refine Option.ext fun x => ?_
  rw [bind_valueAt_eq_some_iff hr.wellFormed, hr.takes_iff inferInstance, ← hb,
    ← h.valueAt_eq_some_iff]
  cases b <;> simp

lemma Restricts.unchanged [StepValue V] {v : Temporal V} {inside : Int → Prop}
    {found : Option (Temporal V)} (hr : Restricts v inside found) (h : v.WellFormed)
    (hin : ∀ n, v.Covers n → inside n) :
    ∃ r, found = some r ∧ ∀ t, r.valueAt t = v.valueAt t := by
  cases found with
  | none =>
    obtain ⟨s, hs⟩ := exists_mem_sequences v
    have hcov : v.Covers s.lo := ⟨s, hs, (h.sequences s hs).covers_lo⟩
    exact absurd ((hr.covers_iff s.lo).mpr ⟨hcov, hin _ hcov⟩) (not_someCovers_none _)
  | some r =>
    refine ⟨r, rfl, fun t => Option.ext fun x => ?_⟩
    rw [(hr.wellFormed r rfl).valueAt_eq_some_iff, h.valueAt_eq_some_iff]
    refine (hr.takes_iff inferInstance t.place x).trans (and_iff_left_of_imp fun hx => ?_)
    exact hin _ (covers_iff_exists_takes.mpr ⟨x, hx⟩)

lemma WellFormed.compatible_valueAt {v : Temporal V} (h : v.WellFormed) {t : Timestamp} {x : V}
    (hx : v.valueAt t = some x) :
    TemporalValue.compatible v.firstInstant.value x = .ok () := by
  obtain ⟨s, hs, hx⟩ := (valueAt_eq_some_iff_exists h t x).mp hx
  have hc := compatible_of_mem h hs
  have hcov := Sequence.covers_of_valueAt hx
  have hlookup := foundIn_eq_some.mp hx
  cases hd : s.isDiscrete with
  | true =>
    rw [lookup_of_discrete hd, Except.ok.injEq] at hlookup
    obtain ⟨i, hi, rfl⟩ := Option.map_eq_some_iff.mp hlookup
    exact hc i (List.mem_of_find?_eq_some hi)
  | false =>
    rw [lookup_of_covers hd hcov, map_eq_ok] at hlookup
    obtain ⟨y, hy, hyx⟩ := hlookup
    obtain rfl := Option.some.inj hyx
    exact compatible_valueFrom s.interp t hc y hy

def instantsAt (v : Temporal V) (times : List Timestamp) : List (Instant V) :=
  times.filterMap fun t => (v.valueAt t).map fun x => ⟨x, t⟩

omit [LawfulValue V] in
lemma mem_instantsAt {v : Temporal V} {times : List Timestamp} {i : Instant V} :
    i ∈ v.instantsAt times ↔ i.time ∈ times ∧ v.valueAt i.time = some i.value := by
  unfold instantsAt
  rw [List.mem_filterMap]
  constructor
  · rintro ⟨t, ht, hi⟩
    obtain ⟨x, hx, rfl⟩ := Option.map_eq_some_iff.mp hi
    exact ⟨ht, hx⟩
  · rintro ⟨ht, hx⟩
    exact ⟨i.time, ht, Option.map_eq_some_iff.mpr ⟨i.value, hx, rfl⟩⟩

lemma instantsAt_rising {v : Temporal V} (h : v.WellFormed) {times : List Timestamp}
    (ht : times.Pairwise fun a b => a.place < b.place) :
    (v.instantsAt times).Pairwise Instant.Precedes := by
  refine pairwise_precedes (c := v.firstInstant.value) ?_ fun i hi =>
    h.compatible_valueAt (mem_instantsAt.mp hi).2
  unfold instantsAt
  rw [List.pairwise_filterMap]
  refine ht.imp fun {a b} hab i hi j hj => ?_
  obtain ⟨x, -, rfl⟩ := Option.map_eq_some_iff.mp hi
  obtain ⟨y, -, rfl⟩ := Option.map_eq_some_iff.mp hj
  exact hab

omit [LawfulValue V] in
lemma ascending_iff (times : ValueSet Timestamp) :
    times.Ascending ↔ (times.first :: times.rest).Pairwise fun a b => a.place < b.place := by
  have hplace : ∀ {a b : Timestamp}, LawfulDomain.key a < LawfulDomain.key b ↔
      a.place < b.place := by
    intro a b
    change a.micros < b.micros ↔ _
    unfold Timestamp.place
    omega
  exact ⟨fun h => h.imp hplace.mp, fun h => h.imp hplace.mpr⟩

lemma contains_iff_exists_place {times : ValueSet Timestamp} (h : times.Ascending)
    (t : Timestamp) : times.contains t = true ↔ ∃ y ∈ times.values, y.place = t.place := by
  rw [h.contains_iff]
  refine exists_congr fun y => and_congr_right fun _ => ?_
  change y.micros = t.micros ↔ _
  unfold Timestamp.place
  omega

lemma contains_iff_mem {times : ValueSet Timestamp} (h : times.Ascending) (t : Timestamp) :
    times.contains t = true ↔ t ∈ times.values := by
  rw [contains_iff_exists_place h]
  constructor
  · rintro ⟨y, hy, heq⟩
    rwa [← Timestamp.eq_iff.mpr heq]
  · exact fun hmem => ⟨t, hmem, rfl⟩

/-- Among the instants at the timestamps of a set there is found what the value is there. -/
lemma find?_instantsAt {v : Temporal V} (h : v.WellFormed) {times : ValueSet Timestamp}
    (ht : times.Ascending) (t : Timestamp) :
    ((v.instantsAt times.values).find? fun i => i.time == t).map Instant.value =
      if times.contains t then v.valueAt t else none := by
  have hrise : (v.instantsAt times.values).Pairwise Instant.Precedes :=
    instantsAt_rising h ((ascending_iff times).mp ht)
  refine Option.ext fun x => ?_
  rw [find?_time_eq_some_iff hrise]
  constructor
  · rintro ⟨i, hi, heq, rfl⟩
    obtain ⟨hmem, hx⟩ := mem_instantsAt.mp hi
    rw [Timestamp.eq_iff.mpr heq] at hmem hx
    rw [if_pos ((contains_iff_mem ht t).mpr hmem)]
    exact hx
  · intro hx
    split at hx
    · rename_i hin
      exact ⟨⟨x, t⟩, mem_instantsAt.mpr ⟨(contains_iff_mem ht t).mp hin, hx⟩, rfl, rfl⟩
    · exact absurd hx (by simp)

/-- Look-ups that end find the instants at their timestamps. -/
lemma lookups_eq {v : Temporal V} (h : v.WellFormed) {times : List Timestamp}
    (hdone : Completes (times.mapM fun t => do
      return (← v.lookup t).map fun x => (⟨x, t⟩ : Instant V))) :
    ∃ found, (times.mapM fun t => do
        return (← v.lookup t).map fun x => (⟨x, t⟩ : Instant V)) = .ok found ∧
      found.filterMap id = v.instantsAt times := by
  have hlookup : ∀ t, Completes (do return (← v.lookup t).map fun x => (⟨x, t⟩ : Instant V)) →
      (do return (← v.lookup t).map fun x => (⟨x, t⟩ : Instant V)) =
        .ok ((v.valueAt t).map fun x => ⟨x, t⟩) :=
    fun t ht => bind_of_ok (h.lookup_of_completes ht.left)
  obtain ⟨_, hfound, -⟩ := Completes.exists_mapM (p := fun _ _ => True)
    (fun t _ ht => ⟨_, hlookup t ht, trivial⟩) hdone
  refine ⟨times.map fun t => (v.valueAt t).map fun x => ⟨x, t⟩, mapM_eq_map fun t ht => ?_, ?_⟩
  · obtain ⟨_, -, hok⟩ := mem_mapM_of_mem hfound ht
    exact hlookup t (.of_eq_ok hok)
  · rw [List.filterMap_map]
    rfl

/-- The values that are found at the timestamps of a set are what the value is there. -/
lemma atTimestamps_of_lookups {v : Temporal V} (h : v.WellFormed) {times : ValueSet Timestamp}
    (ht : times.Ascending) (hdone : Completes (times.values.mapM fun t => do
      return (← v.lookup t).map fun x => (⟨x, t⟩ : Instant V))) :
    ∃ found, v.atTimestamps times = .ok found ∧ ∀ t,
      (found.bind fun r => r.valueAt t) = if times.contains t then v.valueAt t else none := by
  have hrise : (v.instantsAt times.values).Pairwise Instant.Precedes :=
    instantsAt_rising h ((ascending_iff times).mp ht)
  have hlookup := find?_instantsAt h ht
  obtain ⟨found, hfound, hinstants⟩ := lookups_eq h hdone
  unfold atTimestamps
  rw [bind_of_ok hfound, hinstants]
  cases hfound : v.instantsAt times.values with
  | nil =>
    refine ⟨none, rfl, fun t => ?_⟩
    rw [← hlookup, hfound]
    rfl
  | cons first rest =>
    rw [hfound] at hrise hlookup
    cases rest with
    | nil =>
      refine ⟨some (instant first), rfl, fun t => ?_⟩
      rw [← hlookup, List.find?_singleton]
      change (if first.time == t then some first.value else none) = _
      split <;> rfl
    | cons second rest =>
      have hok := makeRun_eq_ok (checked_discrete hrise)
      refine ⟨some (sequence (ofRun first (second :: rest) true true .discrete)), ?_, fun t => ?_⟩
      · simp only [bind_eq_ok, pure_eq_ok]
        exact ⟨_, reported_eq_ok.mpr hok, rfl⟩
      · rw [← hlookup]
        rfl

/-- The values at the timestamps of a set, unless they are given up, are what the value is there. -/
theorem atTimestamps_spec {v : Temporal V} (h : v.WellFormed) {times : ValueSet Timestamp}
    (ht : times.Ascending) (hdone : Completes (v.atTimestamps times)) :
    ∃ found, v.atTimestamps times = .ok found ∧ ∀ t,
      (found.bind fun r => r.valueAt t) = if times.contains t then v.valueAt t else none :=
  atTimestamps_of_lookups h ht hdone.left

/-- The values of a short value at timestamps are not given up. -/
lemma completes_atTimestamps {v : Temporal V} (h : v.WellFormed) (hshort : v.Short)
    {times : ValueSet Timestamp} (ht : times.Ascending) : Completes (v.atTimestamps times) := by
  obtain ⟨_, hfound, -⟩ := atTimestamps_of_lookups h ht (Completes.mapM fun t _ =>
    (h.completes_lookup hshort t).bind fun _ _ => Completes.ok _)
  exact .of_eq_ok hfound

/-- Restriction to times and its complement partition a value, unless they are given up; of a short
value they never are. -/
theorem time_restriction_partitions {v : Temporal V} (h : v.WellFormed) (hp : v.Proper) :
    (∀ times : PeriodSet, times.WellFormed →
      (Completes (v.atPeriods times) → ∃ inside, v.atPeriods times = .ok inside ∧
        inside.map time = v.time.intersection times ∧
        (StepValue V → ∀ t, (inside.bind fun x => x.valueAt t) =
          if times.containsValue t then v.valueAt t else none)) ∧
      (Completes (v.minusPeriods times) → ∃ outside, v.minusPeriods times = .ok outside ∧
        outside.map time = v.time.minus times ∧
        (StepValue V → ∀ t, (outside.bind fun x => x.valueAt t) =
          if times.containsValue t then none else v.valueAt t)) ∧
      (v.Short → Completes (v.atPeriods times) ∧ Completes (v.minusPeriods times))) ∧
    ∀ times : ValueSet Timestamp, times.Ascending →
      (Completes (v.atTimestamps times) → ∃ inside, v.atTimestamps times = .ok inside ∧
        (StepValue V → ∀ t, (inside.bind fun x => x.valueAt t) =
          if times.contains t then v.valueAt t else none)) ∧
      (Completes (v.minusTimestamps times) → ∃ outside, v.minusTimestamps times = .ok outside ∧
        (StepValue V → ∀ t, (outside.bind fun x => x.valueAt t) =
          if times.contains t then none else v.valueAt t)) ∧
      (v.Short → Completes (v.atTimestamps times) ∧ Completes (v.minusTimestamps times)) := by
  obtain ⟨htime, hcov⟩ := h.time_spec
  have hnot : ∀ b : Bool, ∀ t, (if b then none else v.valueAt t) =
      if !b then v.valueAt t else none := by
    intro b t
    cases b <;> rfl
  constructor
  · intro times ht
    have hcontains : ∀ t, times.containsValue t = true ↔ times.Covers t.place :=
      fun t => ht.containsValue_iff t
    refine ⟨fun hdone => ?_, fun hdone => ?_, fun hshort => ?_⟩
    · obtain ⟨inside, hin, hrin⟩ := withinPeriods_spec h hp ht (completes_reported.mp hdone)
      refine ⟨inside, reported_eq_ok.mpr hin, ?_,
        fun _ t => hrin.valueAt_eq h t _ (hcontains t)⟩
      refine map_time_eq hrin.wellFormed (fun s hs => htime.intersection ht hs) fun n => ?_
      rw [hrin.covers_iff, htime.someCovers_intersection ht, hcov]
    · obtain ⟨outside, hout, hrout⟩ := outsidePeriods_spec h hp ht (completes_reported.mp hdone)
      refine ⟨outside, reported_eq_ok.mpr hout, ?_, fun _ t => ?_⟩
      · refine map_time_eq hrout.wellFormed (fun s hs => htime.minus ht hs) fun n => ?_
        rw [hrout.covers_iff, htime.someCovers_minus ht, hcov]
      · rw [hnot]
        refine hrout.valueAt_eq h t _ ?_
        rw [Bool.not_eq_true', ← hcontains, Bool.not_eq_true]
    · exact ⟨completes_reported.mpr (completes_withinPeriods h hp hshort ht),
        completes_reported.mpr (completes_outsidePeriods h hp hshort ht)⟩
  · intro times ht
    obtain ⟨hpoints, hpcov⟩ := pointPeriods_spec ((ascending_iff times).mp ht)
    refine ⟨fun hdone => ?_, fun hdone => ?_, fun hshort => ?_⟩
    · obtain ⟨inside, hin, hlookup⟩ := atTimestamps_spec h ht hdone
      exact ⟨inside, hin, fun _ t => hlookup t⟩
    · obtain ⟨outside, hout, hrout⟩ :=
        outsidePeriods_spec h hp hpoints (completes_reported.mp hdone)
      refine ⟨outside, reported_eq_ok.mpr hout, fun _ t => ?_⟩
      rw [hnot]
      refine hrout.valueAt_eq h t _ ?_
      rw [Bool.not_eq_true', ← Bool.not_eq_true, contains_iff_exists_place ht, hpcov]
      rfl
    · exact ⟨completes_atTimestamps h hshort ht,
        completes_reported.mpr (completes_outsidePeriods h hp hshort hpoints)⟩

def stairs : Temporal Integer :=
  .sequence (.ofRun ⟨.clamp 1, .nearest 0⟩ [⟨.clamp 2, .nearest 10⟩, ⟨.clamp 2, .nearest 20⟩] true
    false .step)

lemma stairs_wellFormed : stairs.WellFormed := rfl

lemma stairs_proper : stairs.Proper := fun _ _ => BEq.rfl

/-- What goes up by steps is parted by a timestamp within one of them. -/
theorem stairs_partitioned_by_time :
    stairs.WellFormed ∧ stairs.Proper ∧ StepValue Integer ∧ stairs.Short ∧
      (∃ inside outside,
        stairs.atPeriods (.ofSpan (Period.singleton (.nearest 5))) = .ok inside ∧
          stairs.minusPeriods (.ofSpan (Period.singleton (.nearest 5))) = .ok outside ∧
          (outside.bind fun x => x.valueAt (.nearest 5)) = none) ∧
      ∃ inside outside, stairs.atTimestamps ⟨.nearest 5, [.nearest 25]⟩ = .ok inside ∧
        stairs.minusTimestamps ⟨.nearest 5, [.nearest 25]⟩ = .ok outside ∧
        (outside.bind fun x => x.valueAt (.nearest 5)) = none := by
  have h := time_restriction_partitions stairs_wellFormed stairs_proper
  have hshort : stairs.Short := stairs_wellFormed.short
  refine ⟨stairs_wellFormed, stairs_proper, inferInstance, hshort, ?_, ?_⟩
  · obtain ⟨hat, hminus, hdone⟩ :=
      h.1 _ (SpanSet.wellFormed_ofSpan (Period.singleton_valid (.nearest 5)))
    obtain ⟨inside, hin, -⟩ := hat (hdone hshort).1
    obtain ⟨outside, hout, -, hvalue⟩ := hminus (hdone hshort).2
    exact ⟨inside, outside, hin, hout, hvalue inferInstance (.nearest 5)⟩
  · obtain ⟨hat, hminus, hdone⟩ :=
      h.2 ⟨.nearest 5, [.nearest 25]⟩ (List.pairwise_pair.mpr (by decide))
    obtain ⟨inside, hin, -⟩ := hat (hdone hshort).1
    obtain ⟨outside, hout, hvalue⟩ := hminus (hdone hshort).2
    exact ⟨inside, outside, hin, hout, hvalue inferInstance (.nearest 5)⟩

lemma ages_proper : ages.Proper := by
  unfold Proper
  decide

/-- What goes up through all of the time cannot be cut to a timestamp in the middle of it. -/
theorem ages_not_cut : ages.WellFormed ∧ ages.Proper ∧
    ages.atPeriods (.ofSpan (Period.singleton (.nearest 0))) = .error .aborted :=
  ⟨ages_wellFormed, ages_proper, rfl⟩

end Temporal

end TemporalAlgebra
