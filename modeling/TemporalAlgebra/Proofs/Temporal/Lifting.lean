import TemporalAlgebra.Proofs.Temporal.Synchronization
import TemporalAlgebra.Proofs.Temporal.TimeRestriction
import TemporalAlgebra.Temporal.Arithmetic
import TemporalAlgebra.Temporal.Comparison
import TemporalAlgebra.Temporal.Letters
import TemporalAlgebra.Temporal.Logic

/-!
# Lifted functions

A function lifted to values over time is defined where both values are and has its result there. All
pairs of sequences are synchronized; when one of the values is discrete, only the timestamps of that
one matter. Arithmetic, logic, concatenation and comparison over time are such functions.
-/
namespace TemporalAlgebra

namespace Temporal

open Sequence

variable {V R : Type} [TemporalValue V] [TemporalValue R]

/-- A value that is defined where two others both are, and there has the results of a function of
them. -/
structure Lifts (g : Lifting V R) (a b : Temporal V) (found : Option (Temporal R)) : Prop where
  wellFormed : ∀ r ∈ found, r.WellFormed
  interp_eq : (a.isDiscrete || b.isDiscrete) = false →
    ∀ r ∈ found, r.interp = liftedInterp R a.interp b.interp
  covers_iff : ∀ n, SomeCovers found n ↔ a.Covers n ∧ b.Covers n
  takes_iff : StepValue V → StepValue R → ∀ n z,
    SomeTakes found n z ↔ ∃ x y, a.Takes n x ∧ b.Takes n y ∧ g.apply x y = .ok z

variable [LawfulValue V] [LawfulValue R] {a b : Temporal V} {g : Lifting V R}

omit [TemporalValue R] [LawfulValue R] in
/-- Lifted to timestamps, a function has its results where both values are defined. -/
lemma liftInstants_spec (ha : a.WellFormed) (hb : b.WellFormed) {times : List Timestamp}
    {found : List (Instant R)} (h : liftInstants g a b times = .ok found) :
    (found.map Instant.time).Sublist times ∧
      (∀ i ∈ found, ∃ x y, a.valueAt i.time = some x ∧ b.valueAt i.time = some y ∧
        g.apply x y = .ok i.value) ∧
      ∀ t ∈ times, a.Covers t.place → b.Covers t.place → ∃ i ∈ found, i.time = t := by
  induction times generalizing found with
  | nil =>
    obtain rfl := Except.ok.inj h
    simp
  | cons t rest ih =>
    rw [liftInstants] at h
    obtain ⟨foundA, hfoundA, h⟩ := bind_eq_ok.mp h
    obtain ⟨foundB, hfoundB, h⟩ := bind_eq_ok.mp h
    -- where one of the two is not defined nothing is added
    have hskip : ∀ {more : List (Instant R)}, liftInstants g a b rest = .ok more →
        ¬(a.Covers t.place ∧ b.Covers t.place) →
        (more.map Instant.time).Sublist (t :: rest) ∧
          (∀ i ∈ more, ∃ x y, a.valueAt i.time = some x ∧ b.valueAt i.time = some y ∧
            g.apply x y = .ok i.value) ∧
          ∀ u ∈ t :: rest, a.Covers u.place → b.Covers u.place → ∃ i ∈ more, i.time = u := by
      intro more hmore hno
      obtain ⟨hsub, hvalue, hall⟩ := ih hmore
      refine ⟨hsub.cons t, hvalue, fun u hu hau hbu => ?_⟩
      rcases List.mem_cons.mp hu with rfl | hu
      · exact absurd ⟨hau, hbu⟩ hno
      · exact hall u hu hau hbu
    cases foundA with
    | none => exact hskip h fun hc => ha.lookup_eq_none_iff.mp hfoundA hc.1
    | some x =>
      cases foundB with
      | none => exact hskip h fun hc => hb.lookup_eq_none_iff.mp hfoundB hc.2
      | some y =>
        simp only [bind_eq_ok, pure_eq_ok] at h
        obtain ⟨z, hz, more, hmore, rfl⟩ := h
        obtain ⟨hsub, hvalue, hall⟩ := ih hmore
        refine ⟨hsub.cons_cons t, fun i hi => ?_, fun u hu hau hbu => ?_⟩
        · rcases List.mem_cons.mp hi with rfl | hi
          · exact ⟨x, y, foundIn_eq_some.mpr hfoundA, foundIn_eq_some.mpr hfoundB, hz⟩
          · exact hvalue i hi
        · rcases List.mem_cons.mp hu with rfl | hu
          · exact ⟨⟨z, u⟩, by simp, rfl⟩
          · obtain ⟨i, hi, ht⟩ := hall u hu hau hbu
            exact ⟨i, by simp [hi], ht⟩

omit [TemporalValue R] [LawfulValue R] in
lemma WellFormed.rising_of_discrete {v : Temporal V} (h : v.WellFormed)
    (hd : v.isDiscrete = true) : v.instants.Pairwise Instant.Precedes := by
  cases v with
  | instant i => simp [instants]
  | sequence s => exact Sequence.WellFormed.rising h
  | sequenceSet s => exact absurd (eq_of_beq hd) (SequenceSet.WellFormed.isTrain h).continuous

omit [TemporalValue R] [LawfulValue R] in
/-- The timestamps of a discrete value rise and are the places at which it is defined. -/
lemma WellFormed.timestamps_spec {v : Temporal V} (h : v.WellFormed) (hd : v.isDiscrete = true) :
    (v.timestamps.Pairwise fun t u => t.place < u.place) ∧
      ∀ n, v.Covers n ↔ ∃ t ∈ v.timestamps, t.place = n := by
  have hrise : (v.instants.map Instant.time).Pairwise fun t u => t.place < u.place :=
    List.pairwise_map.mpr ((h.rising_of_discrete hd).imp fun hij => hij.1)
  obtain ⟨hdistinct, hmem⟩ := Timestamp.distinctBy_spec (hrise.imp fun htu => htu.le)
  refine ⟨hdistinct, fun n => ?_⟩
  have hcov : v.Covers n ↔ ∃ i ∈ v.instants, i.time.place = n := by
    cases v with
    | instant i => simp [Covers, Temporal.sequences, covers_ofInstant, instants, eq_comm]
    | sequence s =>
      unfold Covers
      simp only [Temporal.sequences, List.mem_singleton, exists_eq_left]
      exact covers_of_discrete hd n
    | sequenceSet s => exact absurd (eq_of_beq hd) (SequenceSet.WellFormed.isTrain h).continuous
  rw [hcov]
  unfold timestamps
  simp only [hmem, List.mem_map, exists_exists_and_eq_and]

/-- Results at rising timestamps that are all those at which both values are defined. -/
structure Samples (g : Lifting V R) (a b : Temporal V) (found : List (Instant R)) : Prop where
  rising : (found.map Instant.time).Pairwise fun t u => t.place < u.place
  value : ∀ i ∈ found, ∃ x y, a.valueAt i.time = some x ∧ b.valueAt i.time = some y ∧
    g.apply x y = .ok i.value
  place_iff : ∀ n, (∃ i ∈ found, i.time.place = n) ↔ a.Covers n ∧ b.Covers n

omit [TemporalValue R] [LawfulValue R] in
lemma samples_of_liftInstants (ha : a.WellFormed) (hb : b.WellFormed) {times : List Timestamp}
    (hrise : times.Pairwise fun t u => t.place < u.place)
    (htimes : ∀ n, a.Covers n ∧ b.Covers n → ∃ t ∈ times, t.place = n)
    {found : List (Instant R)} (h : liftInstants g a b times = .ok found) :
    Samples g a b found := by
  obtain ⟨hsub, hvalue, hall⟩ := liftInstants_spec ha hb h
  refine ⟨hrise.sublist hsub, hvalue, fun n => ⟨?_, fun hn => ?_⟩⟩
  · rintro ⟨i, hi, rfl⟩
    obtain ⟨x, y, hx, hy, -⟩ := hvalue i hi
    exact ⟨covers_of_valueAt ha hx, covers_of_valueAt hb hy⟩
  · obtain ⟨t, ht, rfl⟩ := htimes n hn
    obtain ⟨i, hi, rfl⟩ := hall t ht hn.1 hn.2
    exact ⟨i, hi, rfl⟩

omit [LawfulValue R] in
lemma Samples.lifts (ha : a.WellFormed) (hb : b.WellFormed)
    (hd : (a.isDiscrete || b.isDiscrete) = true) {instants : List (Instant R)}
    (h : Samples g a b instants) {found : Option (Temporal R)}
    (hwf : ∀ r ∈ found, r.WellFormed)
    (hcov : ∀ n, SomeCovers found n ↔ ∃ i ∈ instants, i.time.place = n)
    (htakes : ∀ n z, SomeTakes found n z ↔ ∃ i ∈ instants, i.time.place = n ∧ i.value = z) :
    Lifts g a b found := by
  refine ⟨hwf, fun hc => absurd (hd.symm.trans hc) (by simp),
    fun n => (hcov n).trans (h.place_iff n), fun hv hr n z => ?_⟩
  rw [htakes]
  constructor
  · rintro ⟨i, hi, rfl, rfl⟩
    obtain ⟨x, y, hx, hy, hz⟩ := h.value i hi
    exact ⟨x, y, (ha.valueAt_eq_some_iff _ _).mp hx, (hb.valueAt_eq_some_iff _ _).mp hy, hz⟩
  · rintro ⟨x, y, hx, hy, hz⟩
    obtain ⟨i, hi, rfl⟩ := (h.place_iff n).mpr
      ⟨covers_iff_exists_takes.mpr ⟨x, hx⟩, covers_iff_exists_takes.mpr ⟨y, hy⟩⟩
    obtain ⟨x', y', hx', hy', hz'⟩ := h.value i hi
    obtain rfl := ha.takes_unique hx ((ha.valueAt_eq_some_iff _ _).mp hx')
    obtain rfl := hb.takes_unique hy ((hb.valueAt_eq_some_iff _ _).mp hy')
    exact ⟨i, hi, rfl, Except.ok.inj (hz'.symm.trans hz)⟩

omit [LawfulValue R] in
lemma Samples.lifts_instant (ha : a.WellFormed) (hb : b.WellFormed)
    (hd : (a.isDiscrete || b.isDiscrete) = true) {i : Instant R} (h : Samples g a b [i]) :
    Lifts g a b (some (instant i)) := by
  refine h.lifts ha hb hd ?_ (fun n => ?_) fun n z => ?_
  · rintro r ⟨⟩
    trivial
  · rw [someCovers_some]
    simp [Covers, Temporal.sequences, covers_ofInstant, eq_comm]
  · simp only [SomeTakes, parts, Temporal.sequences, List.mem_singleton, exists_eq_left,
      Sequence.Takes, covers_ofInstant]
    exact and_congr_left fun _ => eq_comm

lemma Samples.lifts_sequence (ha : a.WellFormed) (hb : b.WellFormed)
    (hd : (a.isDiscrete || b.isDiscrete) = true) {first : Instant R} {rest : List (Instant R)}
    (h : Samples g a b (first :: rest)) {s : Sequence R}
    (hs : Sequence.makeRun first rest true true .discrete false = .ok s) :
    Lifts g a b (some (sequence s)) := by
  have hbuilt := builtFrom_of_makeRun hs
  have hsd : s.isDiscrete = true := isDiscrete_iff.mpr hbuilt.interp_eq
  have hinstants : s.instants = first :: rest := by
    obtain ⟨-, -, rfl⟩ := makeRun_eq_ok_iff.mp hs
    rfl
  rw [← hinstants] at h
  refine h.lifts ha hb hd ?_ (fun n => ?_) fun n z => ?_
  · rintro r ⟨⟩
    exact hbuilt.wellFormed
  · simp only [SomeCovers, parts, Temporal.sequences, List.mem_singleton, exists_eq_left]
    exact covers_of_discrete hsd n
  · simp only [SomeTakes, parts, Temporal.sequences, List.mem_singleton, exists_eq_left]
    exact hbuilt.wellFormed.takes_of_discrete hsd n z

omit [TemporalValue R] [LawfulValue V] [LawfulValue R] in
/-- At most one result is sampled when one of the values is a single instant. -/
lemma Samples.eq_singleton {first : Instant R} {rest : List (Instant R)}
    (h : Samples g a b (first :: rest)) (hi : a.isInstant = true ∨ b.isInstant = true) :
    rest = [] := by
  have hplace : ∀ {v : Temporal V}, v.isInstant = true → ∃ m, ∀ n, v.Covers n → n = m := by
    intro v hv
    cases v with
    | instant i =>
      refine ⟨i.time.place, fun n hn => ?_⟩
      obtain ⟨s, hs, hn⟩ := hn
      obtain rfl := List.mem_singleton.mp hs
      exact (covers_ofInstant i .discrete n).mp hn
    | sequence s => exact absurd hv Bool.false_ne_true
    | sequenceSet s => exact absurd hv Bool.false_ne_true
  obtain ⟨m, hm⟩ : ∃ m, ∀ n, a.Covers n ∧ b.Covers n → n = m := by
    rcases hi with hi | hi
    · obtain ⟨m, hm⟩ := hplace hi
      exact ⟨m, fun n hn => hm n hn.1⟩
    · obtain ⟨m, hm⟩ := hplace hi
      exact ⟨m, fun n hn => hm n hn.2⟩
  cases rest with
  | nil => rfl
  | cons second rest =>
    have hlt : first.time.place < second.time.place :=
      List.rel_of_pairwise_cons h.rising (by simp)
    have h1 := hm _ ((h.place_iff _).mp ⟨first, by simp, rfl⟩)
    have h2 := hm _ ((h.place_iff _).mp ⟨second, by simp, rfl⟩)
    omega

omit [TemporalValue R] [LawfulValue R] in
/-- The timestamps of a discrete one of two values rise, and both values are defined at no others. -/
lemma discreteTimes_spec (ha : a.WellFormed) (hb : b.WellFormed)
    (hd : (a.isDiscrete || b.isDiscrete) = true) : ∃ times,
      (if a.isDiscrete then a.timestamps else b.timestamps) = times ∧
        (times.Pairwise fun t u => t.place < u.place) ∧
        ∀ n, a.Covers n ∧ b.Covers n → ∃ t ∈ times, t.place = n := by
  by_cases hda : a.isDiscrete = true
  · obtain ⟨hrise, hcov⟩ := ha.timestamps_spec hda
    exact ⟨_, if_pos hda, hrise, fun n hn => (hcov n).mp hn.1⟩
  · have hdb : b.isDiscrete = true := by
      rw [Bool.or_eq_true] at hd
      exact hd.resolve_left hda
    obtain ⟨hrise, hcov⟩ := hb.timestamps_spec hdb
    exact ⟨_, if_neg hda, hrise, fun n hn => (hcov n).mp hn.2⟩

/-- A function lifted to values one of which is discrete. -/
lemma liftDiscrete_spec (ha : a.WellFormed) (hb : b.WellFormed)
    (hd : (a.isDiscrete || b.isDiscrete) = true) {found : Option (Temporal R)}
    (h : liftDiscrete g a b = .ok found) : Lifts g a b found := by
  obtain ⟨times, htimes, hrise, hall⟩ := discreteTimes_spec ha hb hd
  unfold liftDiscrete at h
  rw [htimes, bind_eq_ok] at h
  obtain ⟨instants, hinstants, h⟩ := h
  have hsamples := samples_of_liftInstants ha hb hrise hall hinstants
  cases instants with
  | nil =>
    obtain rfl := Except.ok.inj h
    refine hsamples.lifts ha hb hd (by simp) (fun n => ?_) fun n z => ?_
    · simp [not_someCovers_none]
    · simp [not_someTakes_none]
  | cons first rest =>
    dsimp only at h
    split at h
    · rename_i hi
      obtain rfl := Except.ok.inj h
      rw [Bool.or_eq_true] at hi
      obtain rfl := hsamples.eq_singleton hi
      exact hsamples.lifts_instant ha hb hd
    · simp only [bind_eq_ok, pure_eq_ok] at h
      obtain ⟨s, hs, rfl⟩ := h
      exact hsamples.lifts_sequence ha hb hd hs

omit [TemporalValue R] [LawfulValue V] [LawfulValue R] in
lemma mem_pairs_iff {s t : Sequence V} :
    (s, t) ∈ (a.sequences.flatMap fun s => b.sequences.map fun t => (s, t)) ↔
      s ∈ a.sequences ∧ t ∈ b.sequences := by
  simp [List.mem_flatMap]

lemma exists_pair_of_mem_pieces (ha : a.WellFormed) (hb : b.WellFormed)
    {pieces : List (List (Sequence R))}
    (hpieces : (a.sequences.flatMap fun s => b.sequences.map fun t => (s, t)).mapM
      (fun st => Sequence.liftCommon g st.1 st.2) = .ok pieces)
    {x : Sequence R} (hx : x ∈ pieces.flatten) : ∃ s ∈ a.sequences, ∃ t ∈ b.sequences, ∃ l, x ∈ l ∧
      Spreads g s t (liftedInterp R a.interp b.interp) (max s.lo t.lo) (min s.hi t.hi) l := by
  obtain ⟨l, hl, hx⟩ := List.mem_flatten.mp hx
  obtain ⟨⟨s, t⟩, hst, hok⟩ := mem_of_mapM_eq_ok hpieces hl
  obtain ⟨hs, ht⟩ := mem_pairs_iff.mp hst
  have hspreads := liftCommon_spec (ha.sequences s hs) (hb.sequences t ht) hok
  rw [ha.interp_eq s hs, hb.interp_eq t ht] at hspreads
  exact ⟨s, hs, t, ht, l, hx, hspreads⟩

lemma exists_pieces_of_pair (ha : a.WellFormed) (hb : b.WellFormed)
    {pieces : List (List (Sequence R))}
    (hpieces : (a.sequences.flatMap fun s => b.sequences.map fun t => (s, t)).mapM
      (fun st => Sequence.liftCommon g st.1 st.2) = .ok pieces)
    {s t : Sequence V} (hs : s ∈ a.sequences) (ht : t ∈ b.sequences) :
    ∃ l, (∀ x ∈ l, x ∈ pieces.flatten) ∧
      Spreads g s t (liftedInterp R a.interp b.interp) (max s.lo t.lo) (min s.hi t.hi) l := by
  obtain ⟨l, hl, hok⟩ := mem_mapM_of_mem hpieces (mem_pairs_iff.mpr ⟨hs, ht⟩)
  have hspreads := liftCommon_spec (ha.sequences s hs) (hb.sequences t ht) hok
  rw [ha.interp_eq s hs, hb.interp_eq t ht] at hspreads
  exact ⟨l, fun x hx => List.mem_flatten.mpr ⟨l, hl, hx⟩, hspreads⟩

omit [LawfulValue V] [LawfulValue R] in
lemma covers_iff_of_spreads {s t : Sequence V} (hs : s.isDiscrete = false)
    (ht : t.isDiscrete = false) {interp : Interpolation} {l : List (Sequence R)}
    (h : Spreads g s t interp (max s.lo t.lo) (min s.hi t.hi) l) (n : Int) :
    (∃ x ∈ l, x.Covers n) ↔ s.Covers n ∧ t.Covers n := by
  rw [h.covers_iff, covers_of_continuous hs, covers_of_continuous ht]
  omega

/-- A function lifted to continuous values, all pairs of whose sequences are synchronized. -/
lemma lifts_of_continuous (ha : a.WellFormed) (hb : b.WellFormed) (hda : a.isDiscrete = false)
    (hdb : b.isDiscrete = false) {pieces : List (List (Sequence R))}
    (hpieces : (a.sequences.flatMap fun s => b.sequences.map fun t => (s, t)).mapM
      (fun st => Sequence.liftCommon g st.1 st.2) = .ok pieces)
    {found : Option (Temporal R)} (h : ofPieces pieces.flatten = .ok found) :
    Lifts g a b found := by
  have hcovers {s t : Sequence V} (hs : s ∈ a.sequences) (ht : t ∈ b.sequences)
      {l : List (Sequence R)} (hl : Spreads g s t (liftedInterp R a.interp b.interp)
        (max s.lo t.lo) (min s.hi t.hi) l) (n : Int) :
      (∃ x ∈ l, x.Covers n) ↔ s.Covers n ∧ t.Covers n :=
    covers_iff_of_spreads ((ha.isTrain hda).isDiscrete hs) ((hb.isTrain hdb).isDiscrete ht) hl n
  have hinterp : ∀ x ∈ pieces.flatten, x.interp = liftedInterp R a.interp b.interp := by
    intro x hx
    obtain ⟨s, -, t, -, l, hxl, hl⟩ := exists_pair_of_mem_pieces ha hb hpieces hx
    exact hl.interp_eq x hxl
  have hassembles : Assembles pieces.flatten found := by
    refine assembles_of_ofPieces_eq_ok (fun x hx => ?_) hinterp (liftedInterp_ne_discrete _ _) h
    obtain ⟨s, -, t, -, l, hxl, hl⟩ := exists_pair_of_mem_pieces ha hb hpieces hx
    exact hl.wellFormed x hxl
  refine ⟨hassembles.wellFormed, fun _ r hr => ?_, fun n => ?_, fun hv hr n z => ?_⟩
  · obtain rfl : found = some r := hr
    exact hassembles.interp_of_pieces hinterp
  · refine (hassembles.gathers.covers_iff n).trans ⟨?_, ?_⟩
    · rintro ⟨x, hx, hn⟩
      obtain ⟨s, hs, t, ht, l, hxl, hl⟩ := exists_pair_of_mem_pieces ha hb hpieces hx
      obtain ⟨hsn, htn⟩ := (hcovers hs ht hl n).mp ⟨x, hxl, hn⟩
      exact ⟨⟨s, hs, hsn⟩, ⟨t, ht, htn⟩⟩
    · rintro ⟨⟨s, hs, hsn⟩, ⟨t, ht, htn⟩⟩
      obtain ⟨l, hmem, hl⟩ := exists_pieces_of_pair ha hb hpieces hs ht
      obtain ⟨x, hxl, hxn⟩ := (hcovers hs ht hl n).mpr ⟨hsn, htn⟩
      exact ⟨x, hmem x hxl, hxn⟩
  · refine (hassembles.gathers.takes_iff hr n z).trans ⟨?_, ?_⟩
    · rintro ⟨x, hx, hn, rfl⟩
      obtain ⟨s, hs, t, ht, l, hxl, hl⟩ := exists_pair_of_mem_pieces ha hb hpieces hx
      obtain ⟨hsn, htn⟩ := (hcovers hs ht hl n).mp ⟨x, hxl, hn⟩
      exact ⟨_, _, ⟨s, hs, hsn, rfl⟩, ⟨t, ht, htn, rfl⟩, hl.apply_eq hv hr x hxl n hn⟩
    · rintro ⟨-, -, ⟨s, hs, hsn, rfl⟩, ⟨t, ht, htn, rfl⟩, hz⟩
      obtain ⟨l, hmem, hl⟩ := exists_pieces_of_pair ha hb hpieces hs ht
      obtain ⟨x, hxl, hxn⟩ := (hcovers hs ht hl n).mpr ⟨hsn, htn⟩
      exact ⟨x, hmem x hxl, hxn,
        Except.ok.inj ((hl.apply_eq hv hr x hxl n hxn).symm.trans hz)⟩

/-- A lifted function is defined where both values are and has its result there. -/
theorem lift_spec (ha : a.WellFormed) (hb : b.WellFormed) {found : Option (Temporal R)}
    (h : lift g a b = .ok found) : Lifts g a b found := by
  unfold lift at h
  split at h
  · rename_i hov
    obtain rfl := Except.ok.inj h
    have hapart : ∀ n, ¬(a.Covers n ∧ b.Covers n) := by
      rintro n ⟨hna, hnb⟩
      have h1 := ha.timespan_covers hna
      have h2 := hb.timespan_covers hnb
      rw [Bool.not_eq_true', ← Bool.not_eq_true, Span.overlaps_iff] at hov
      unfold Span.Covers at h1 h2
      omega
    refine ⟨by simp, by simp, fun n => ?_, fun _ _ n z => ?_⟩
    · exact iff_of_false (not_someCovers_none n) (hapart n)
    · refine iff_of_false (not_someTakes_none n z) ?_
      rintro ⟨x, y, hx, hy, -⟩
      exact hapart n ⟨covers_iff_exists_takes.mpr ⟨x, hx⟩, covers_iff_exists_takes.mpr ⟨y, hy⟩⟩
  · split at h
    · rename_i hd
      exact liftDiscrete_spec ha hb hd h
    · rename_i hd
      rw [Bool.not_eq_true, Bool.or_eq_false_iff] at hd
      rw [bind_eq_ok] at h
      obtain ⟨pieces, hpieces, h⟩ := h
      exact lifts_of_continuous ha hb hd.1 hd.2 hpieces h

lemma Lifts.map_time_eq (ha : a.WellFormed) (hb : b.WellFormed)
    {found : Option (Temporal R)} (h : Lifts g a b found) :
    found.map time = a.time.intersection b.time := by
  obtain ⟨hta, hca⟩ := ha.time_spec
  obtain ⟨htb, hcb⟩ := hb.time_spec
  refine Temporal.map_time_eq h.wellFormed (fun s hs => hta.intersection htb hs) fun n => ?_
  rw [h.covers_iff, hta.someCovers_intersection htb, hca, hcb]

/-- What has been lifted is there unless the values have no time in common. -/
lemma Lifts.eq_none_iff (ha : a.WellFormed) (hb : b.WellFormed) {found : Option (Temporal R)}
    (h : Lifts g a b found) : found = none ↔ a.time.intersection b.time = none := by
  rw [← Option.map_eq_none_iff, h.map_time_eq ha hb]

/-- A value has, wherever two others both do, the result of an operation on these, and nothing
elsewhere; it is missing if these have no time in common. -/
structure Pointwise (op : V → V → Option R) (a b : Temporal V) (found : Option (Temporal R)) :
    Prop where
  defined_iff : ∀ t, (∃ z, (found.bind fun r => r.valueAt t) = some z) ↔
    (∃ x, a.valueAt t = some x) ∧ ∃ y, b.valueAt t = some y
  value_eq : ∀ t x y, a.valueAt t = some x → b.valueAt t = some y →
    (found.bind fun r => r.valueAt t) = op x y
  none_iff : found = none ↔ a.time.intersection b.time = none

lemma Lifts.pointwise {V R : Type} [TemporalValue V] [TemporalValue R] [StepValue V] [StepValue R]
    {a b : Temporal V} {g : Lifting V R} {op : V → V → Option R}
    (hop : ∀ x y z, g.apply x y = .ok z ↔ op x y = some z) (ha : a.WellFormed) (hb : b.WellFormed)
    {found : Option (Temporal R)} (h : Lifts g a b found) : Pointwise op a b found := by
  have hvalue : ∀ t z, (found.bind fun r => r.valueAt t) = some z ↔
      ∃ x y, a.valueAt t = some x ∧ b.valueAt t = some y ∧ op x y = some z := by
    intro t z
    rw [bind_valueAt_eq_some_iff h.wellFormed, h.takes_iff inferInstance inferInstance]
    simp only [ha.valueAt_eq_some_iff, hb.valueAt_eq_some_iff, hop]
  have hdefined : ∀ t, (∃ z, (found.bind fun r => r.valueAt t) = some z) ↔
      (∃ x, a.valueAt t = some x) ∧ ∃ y, b.valueAt t = some y := by
    intro t
    rw [ha.exists_valueAt_iff, hb.exists_valueAt_iff, ← h.covers_iff]
    simp only [bind_valueAt_eq_some_iff h.wellFormed]
    exact someCovers_iff_exists_takes.symm
  refine ⟨hdefined, fun t x y hx hy => ?_, h.eq_none_iff ha hb⟩
  obtain ⟨z, hz⟩ := (hdefined t).mpr ⟨⟨x, hx⟩, ⟨y, hy⟩⟩
  obtain ⟨x', y', hx', hy', hop'⟩ := (hvalue t z).mp hz
  obtain rfl := Option.some.inj (hx.symm.trans hx')
  obtain rfl := Option.some.inj (hy.symm.trans hy')
  rw [hz, hop']

omit [LawfulValue V] [LawfulValue R] in
lemma lift_of_liftWith {found : Option (Temporal R)} (h : liftWith g a b = .ok found) :
    lift g a b = .ok found := (check_bind_eq_ok.mp h).2

lemma pointwise_of_liftWith {V R : Type} [TemporalValue V] [TemporalValue R] [StepValue V]
    [StepValue R] {a b : Temporal V} {g : Lifting V R} {op : V → V → Option R}
    (hop : ∀ x y z, g.apply x y = .ok z ↔ op x y = some z) (ha : a.WellFormed) (hb : b.WellFormed)
    {found : Option (Temporal R)} (h : reported (liftWith g a b) = .ok found) :
    Pointwise op a b found :=
  (lift_spec ha hb (lift_of_liftWith (reported_eq_ok.mp h))).pointwise hop ha hb

/-- Lifted operators are pointwise over the common time: arithmetic of integers, logic,
concatenation of texts and comparison of values that change by steps. What is lifted to continuous
values of any kind has their common time. -/
theorem lifted_operators_pointwise :
    (∀ {a b : Temporal Integer}, a.WellFormed → b.WellFormed → ∀ found,
      (a.add b = .ok found → Pointwise (fun x y => x.add? y) a b found) ∧
      (a.sub b = .ok found → Pointwise (fun x y => x.sub? y) a b found) ∧
      (a.mul b = .ok found → Pointwise (fun x y => x.mul? y) a b found)) ∧
    (∀ {a b : Temporal Bool}, a.WellFormed → b.WellFormed → ∀ found,
      (a.and b = .ok found → Pointwise (fun x y => some (x && y)) a b found) ∧
      (a.or b = .ok found → Pointwise (fun x y => some (x || y)) a b found)) ∧
    (∀ {a b : Temporal String}, a.WellFormed → b.WellFormed → ∀ found,
      a.concat b = .ok found → Pointwise (fun x y => some (x ++ y)) a b found) ∧
    (∀ {V : Type} [TemporalValue V] [StepValue V] {a b : Temporal V}, a.WellFormed →
      b.WellFormed → ∀ (c : Comparison) (found : Option (Temporal Bool)),
        compareWith c a b = .ok found → Pointwise (fun x y => some (c.holds x y)) a b found) ∧
    ∀ {V R : Type} [TemporalValue V] [TemporalValue R] [LawfulValue V] [LawfulValue R]
      {a b : Temporal V}, a.WellFormed → b.WellFormed → a.isDiscrete = false →
      b.isDiscrete = false → ∀ (g : Lifting V R) (r : Temporal R),
        liftWith g a b = .ok (some r) → some r.time = a.time.intersection b.time := by
  have hchecked : ∀ (found : Option Integer) (text : String) (z : Integer),
      inRange found text = .ok z ↔ found = some z := fun _ _ _ => orRefuse_eq_ok
  refine ⟨fun {a b} ha hb found => ⟨fun h => ?_, fun h => ?_, fun h => ?_⟩,
    fun {a b} ha hb found => ⟨fun h => ?_, fun h => ?_⟩, fun {a b} ha hb found h => ?_,
    fun {V} _ _ {a b} ha hb c found h => ?_, fun {V R} _ _ _ _ {a b} ha hb _ _ g r h => ?_⟩
  · exact pointwise_of_liftWith (fun x y z => hchecked _ _ _) ha hb h
  · exact pointwise_of_liftWith (fun x y z => hchecked _ _ _) ha hb h
  · exact pointwise_of_liftWith (fun x y z => hchecked _ _ _) ha hb h
  · exact pointwise_of_liftWith (fun x y z => by simp) ha hb h
  · exact pointwise_of_liftWith (fun x y z => by simp) ha hb h
  · exact pointwise_of_liftWith (fun x y z => by simp) ha hb h
  · exact pointwise_of_liftWith (fun x y z => by simp [comparing]) ha hb h
  · exact (lift_spec ha hb (lift_of_liftWith h)).map_time_eq ha hb

lemma liftWith_instant {V R : Type} [TemporalValue V] [TemporalValue R] {g : Lifting V R} {x y : V}
    {z : R} (hc : TemporalValue.compatible x y = .ok ()) (hz : g.apply x y = .ok z)
    (t : Timestamp) :
    liftWith g (instant ⟨x, t⟩) (instant ⟨y, t⟩) = .ok (some (instant ⟨z, t⟩)) := by
  refine check_bind_eq_ok.mpr ⟨hc, ?_⟩
  have hov : (instant ⟨x, t⟩).timespan.overlaps (instant ⟨y, t⟩).timespan = true :=
    (Span.overlaps_iff _ _).mpr ⟨le_refl _, le_refl _⟩
  have htimes : (instant ⟨x, t⟩).timestamps = [t] := by
    simp [timestamps, instants, distinctBy]
  have hlookup : ∀ w : V, (instant ⟨w, t⟩).lookup t = .ok (some w) := by
    intro w
    simp [lookup, pure, Except.pure]
  have hfound : liftInstants g (instant ⟨x, t⟩) (instant ⟨y, t⟩) [t] = .ok [⟨z, t⟩] := by
    rw [liftInstants, bind_of_ok (hlookup x), bind_of_ok (hlookup y)]
    exact bind_of_ok hz
  have hdiscrete : (instant ⟨x, t⟩).isDiscrete = true := rfl
  unfold lift liftDiscrete
  rw [hov, hdiscrete, Bool.true_or, Bool.not_true, if_neg Bool.false_ne_true, if_pos rfl,
    if_pos rfl, htimes]
  dsimp only
  rw [hfound]
  rfl

def moment : Temporal Integer := .sequence (.ofInstant ⟨.clamp 1, .nearest 5⟩ .step)

lemma moment_wellFormed : moment.WellFormed := rfl

lemma liftWith_moment : liftWith { apply := NumericValue.add } stairs moment =
    .ok (some (sequence (.ofInstant ⟨.clamp 2, .nearest 5⟩ .step))) := by
  have hof : ofPieces [Sequence.ofInstant (⟨.clamp 2, .nearest 5⟩ : Instant Integer) .step] =
      .ok (some (sequence (.ofInstant ⟨.clamp 2, .nearest 5⟩ .step))) := by
    simp [ofPieces, ofSequences, Sequence.isDiscrete, Sequence.ofInstant]
  unfold liftWith lift
  exact hof

/-- Sums over a common moment, and results at a common timestamp. -/
theorem moment_lifted_pointwise :
    stairs.WellFormed ∧ moment.WellFormed ∧
      (∃ r, stairs.add moment = .ok (some r) ∧
        Pointwise (fun x y => x.add? y) stairs moment (some r) ∧
        some r.time = stairs.time.intersection moment.time) ∧
      (∃ found, Pointwise (fun x y => some (x && y)) (instant ⟨true, .nearest 0⟩)
        (instant ⟨false, .nearest 0⟩) found) ∧
      (∃ found, Pointwise (fun x y => some (x ++ y)) (instant ⟨"a", .nearest 0⟩)
        (instant ⟨"b", .nearest 0⟩) found) ∧
      ∃ found, Pointwise (fun x y => some ((Comparison.inequality .lt).holds x y))
        (instant ⟨"a", .nearest 0⟩) (instant ⟨"b", .nearest 0⟩) found := by
  obtain ⟨harith, hlogic, htext, hcompare, htime⟩ := lifted_operators_pointwise
  have hand : (instant ⟨true, .nearest 0⟩).and (instant ⟨false, .nearest 0⟩) =
      .ok (some (instant ⟨false, .nearest 0⟩)) := reported_eq_ok.mpr (liftWith_instant rfl rfl _)
  have hconcat : (instant ⟨"a", .nearest 0⟩).concat (instant ⟨"b", .nearest 0⟩) =
      .ok (some (instant ⟨"ab", .nearest 0⟩)) := reported_eq_ok.mpr (liftWith_instant rfl rfl _)
  have hless : compareWith (.inequality .lt) (instant ⟨"a", .nearest 0⟩)
      (instant ⟨"b", .nearest 0⟩) = .ok (some (instant ⟨true, .nearest 0⟩)) :=
    reported_eq_ok.mpr (liftWith_instant rfl rfl _)
  refine ⟨stairs_wellFormed, moment_wellFormed, ⟨_, reported_eq_ok.mpr liftWith_moment, ?_, ?_⟩,
    ⟨_, (hlogic (wellFormed_instant _) (wellFormed_instant _) _).1 hand⟩,
    ⟨_, htext (wellFormed_instant _) (wellFormed_instant _) _ hconcat⟩,
    ⟨_, hcompare (wellFormed_instant _) (wellFormed_instant _) _ _ hless⟩⟩
  · exact (harith stairs_wellFormed moment_wellFormed _).1 (reported_eq_ok.mpr liftWith_moment)
  · exact htime stairs_wellFormed moment_wellFormed rfl rfl _ _ liftWith_moment

end Temporal

end TemporalAlgebra
