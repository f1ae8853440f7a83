import TemporalAlgebra.Proofs.Temporal.Splitting

/-!
# Values sampled at boundaries of bins

A discrete sample has the value at every boundary at which there is one, and nothing elsewhere. The
boundaries within a continuous sequence are counted from the one at or before its start, those at
the instants of a discrete one are told by a remainder.
-/
namespace TemporalAlgebra

namespace Sequence

variable {V : Type} [TemporalValue V]

/-- Instants in order that are all those at boundaries of bins at which a sequence is defined. It is
looked up at every boundary. -/
structure AtBoundaries (s : Sequence V) (size : Int) (origin : Timestamp)
    (found : List (Instant V)) : Prop where
  rising : found.Pairwise fun i j => i.time.place < j.time.place
  mem_iff : ∀ i, i ∈ found ↔ size ∣ i.time.micros - origin.micros ∧
    s.lookup i.time = .ok (some i.value)
  exists_lookup : ∀ t, size ∣ t.micros - origin.micros → ∃ x, s.lookup t = .ok x

/-- The multiple of the width that leads to the first boundary of a continuous sequence, and that
boundary, fit in 64 bits. -/
def Bounded (s : Sequence V) (size : Int) (origin : Timestamp) : Prop :=
  s.isDiscrete = false → -2 ^ 63 ≤ binFloor s.first.time size origin ∧
    -2 ^ 63 ≤ origin.micros + binFloor s.first.time size origin

section

variable {s : Sequence V} {size : Bigint} {origin : Timestamp}

lemma AtBoundaries.covers [LawfulValue V] {found : List (Instant V)} {i : Instant V}
    (h : AtBoundaries s size.val origin found) (hi : i ∈ found) : s.Covers i.time.place := by
  by_contra hn
  have hnone := lookup_eq_none_iff.mpr hn
  rw [((h.mem_iff i).mp hi).2] at hnone
  cases hnone

lemma WellFormed.lookup_of_discrete [LawfulValue V] (h : s.WellFormed) (hd : s.isDiscrete = true)
    {t : Timestamp} {x : V} : s.lookup t = .ok (some x) ↔ ⟨x, t⟩ ∈ s.instants := by
  rw [Sequence.lookup_of_discrete hd, Except.ok.injEq, find?_time_eq_some_iff h.rising]
  constructor
  · rintro ⟨i, hi, ht, rfl⟩
    rwa [← Timestamp.eq_iff.mpr ht]
  · exact fun hx => ⟨⟨x, t⟩, hx, rfl, rfl⟩

/-- The instants of a discrete sequence at boundaries, if the ways there are told. -/
lemma sampled_eq_ok {found : List (Option (Instant V))} :
    (s.instants.mapM fun i => do
      return if (← origin.microsTo i.time).val % size.val = 0 then some i else none) = .ok found ↔
    (∀ i ∈ s.instants, Timestamp.Fits (i.time.micros - origin.micros)) ∧
      s.instants.map (Option.guard fun i =>
        (i.time.micros - origin.micros) % size.val == 0) = found := by
  refine mapM_eq_ok_of_iff fun i _ found => ?_
  simp only [bind_eq_ok, pure_eq_ok, Timestamp.microsTo_eq_ok, Option.guard, beq_iff_eq]
  constructor
  · rintro ⟨way, hway, rfl⟩
    rw [← hway]
    exact ⟨⟨way.lower, way.upper⟩, rfl⟩
  · rintro ⟨hfits, rfl⟩
    exact ⟨⟨_, hfits.1, hfits.2⟩, rfl, rfl⟩

lemma atBoundaries_of_discrete [LawfulValue V] (h : s.WellFormed) (hd : s.isDiscrete = true) :
    AtBoundaries s size.val origin (s.instants.filter fun i =>
      (i.time.micros - origin.micros) % size.val == 0) := by
  refine ⟨(h.rising.imp fun hij => hij.1).filter _, fun i => ?_, fun t _ => ?_⟩
  · rw [List.mem_filter, h.lookup_of_discrete hd, and_comm, beq_iff_eq, Int.dvd_iff_emod_eq_zero]
  · exact ⟨_, Sequence.lookup_of_discrete hd t⟩

/-- Within the period of a continuous sequence the starts of bins are the boundaries. -/
lemma mem_binStarts_iff_dvd (hd : s.isDiscrete = false) (hpos : 0 < size.val) {first : Timestamp}
    (hle : first.micros ≤ s.first.time.micros) (hdvd : size.val ∣ first.micros - origin.micros)
    {t : Timestamp} (ht : s.period.containsValue t = true) :
    t ∈ binStarts first size.val s.period.upper ↔ size.val ∣ t.micros - origin.micros := by
  have hbetween : s.first.time.micros ≤ t.micros ∧ t.micros ≤ s.period.upper.micros := by
    obtain ⟨hlo, hhi⟩ := (covers_of_continuous hd t.place).mp ((containsValue_period hd t).mp ht)
    change t.place ≤ s.period.hi at hhi
    rw [lo_eq] at hlo
    rw [Period.hi_eq] at hhi
    unfold Timestamp.place at hlo hhi
    split at hlo <;> split at hhi <;> omega
  constructor
  · exact dvd_of_mem_binStarts hpos hdvd
  · intro hboundary
    refine (mem_binStarts hpos).mpr ⟨by omega, hbetween.2, ?_⟩
    have hsum : t.micros - first.micros =
        t.micros - origin.micros - (first.micros - origin.micros) := by omega
    rw [hsum]
    exact Int.dvd_sub hboundary hdvd

lemma lookup_eq_some_iff_valueNear (hd : s.isDiscrete = false) {t : Timestamp} {x : V} :
    s.lookup t = .ok (some x) ↔ s.period.containsValue t = true ∧ s.valueNear t = .ok x := by
  rw [containsValue_period hd]
  by_cases hc : s.Covers t.place
  · rw [lookup_of_covers hd hc]
    simp [hc]
  · rw [lookup_eq_none_iff.mpr hc]
    simp [hc]

/-- The values of a continuous sequence at the boundaries within its period. -/
lemma atBoundaries_of_continuous (hd : s.isDiscrete = false) (hpos : 0 < size.val)
    {first : Timestamp} (hle : first.micros ≤ s.first.time.micros)
    (hdvd : size.val ∣ first.micros - origin.micros) {found : List (Instant V)}
    (hfound : ((binStarts first size.val s.period.upper).filter s.period.containsValue).mapM
      (fun t => do return (⟨← s.valueNear t, t⟩ : Instant V)) = .ok found) :
    AtBoundaries s size.val origin found := by
  have hpairs := mapM_eq_ok.mp hfound
  refine ⟨?_, fun i => ?_, fun t hboundary => ?_⟩
  · refine pairwise_of_forall₂ hpairs ((binStarts_rising hpos).filter _) ?_
    rintro t i u j hi hj htu
    simp only [bind_eq_ok, pure_eq_ok] at hi hj
    obtain ⟨x, -, rfl⟩ := hi
    obtain ⟨y, -, rfl⟩ := hj
    unfold Timestamp.place
    dsimp only
    omega
  · rw [lookup_eq_some_iff_valueNear hd]
    constructor
    · intro hi
      obtain ⟨t, ht, hti⟩ := exists_of_mem_right hpairs hi
      obtain ⟨ht, hcontains⟩ := List.mem_filter.mp ht
      simp only [bind_eq_ok, pure_eq_ok] at hti
      obtain ⟨x, hx, rfl⟩ := hti
      exact ⟨(mem_binStarts_iff_dvd hd hpos hle hdvd hcontains).mp ht, hcontains, hx⟩
    · rintro ⟨hboundary, hcontains, hx⟩
      have hstart := (mem_binStarts_iff_dvd hd hpos hle hdvd hcontains).mpr hboundary
      obtain ⟨j, hj, hij⟩ :=
        exists_of_mem_left hpairs (List.mem_filter.mpr ⟨hstart, hcontains⟩)
      simp only [bind_eq_ok, pure_eq_ok, hx, Except.ok.injEq, exists_eq_left'] at hij
      rwa [← hij] at hj
  · by_cases hc : s.period.containsValue t = true
    · have hstart := (mem_binStarts_iff_dvd hd hpos hle hdvd hc).mpr hboundary
      obtain ⟨i, -, hi⟩ := exists_of_mem_left hpairs (List.mem_filter.mpr ⟨hstart, hc⟩)
      simp only [bind_eq_ok, pure_eq_ok] at hi
      obtain ⟨x, hx, -⟩ := hi
      exact ⟨some x, (lookup_eq_some_iff_valueNear hd).mpr ⟨hc, hx⟩⟩
    · exact ⟨none, lookup_eq_none_iff.mpr (mt (containsValue_period hd t).mpr hc)⟩

lemma atBoundaries_of_samples [LawfulValue V] (h : s.WellFormed) (hpos : 0 < size.val)
    {found : List (Instant V)} (hfound : s.samples size.val origin = .ok found) :
    AtBoundaries s size.val origin found := by
  unfold samples at hfound
  cases hd : s.isDiscrete with
  | true =>
    rw [hd, if_pos rfl] at hfound
    simp only [bind_eq_ok, pure_eq_ok] at hfound
    obtain ⟨options, hoptions, rfl⟩ := hfound
    obtain ⟨-, rfl⟩ := sampled_eq_ok.mp hoptions
    rw [List.filterMap_map, Function.id_comp, List.filterMap_eq_filter]
    exact atBoundaries_of_discrete h hd
  | false =>
    rw [hd, if_neg Bool.false_ne_true] at hfound
    simp only [bind_eq_ok] at hfound
    obtain ⟨first, hfirst, hfound⟩ := hfound
    obtain ⟨-, -, hmicros⟩ := binStart_eq_ok.mp hfirst
    have hbounds := binFloor_bounds s.period.lower origin hpos
    refine atBoundaries_of_continuous hd hpos ?_ ?_ hfound
    · change first.micros ≤ s.period.lower.micros
      omega
    · rw [hmicros]
      exact dvd_binFloor

lemma exists_samples [LawfulValue V] (h : s.WellFormed) (hpos : 0 < size.val)
    (hshort : ShortRun s.interp s.first s.rest)
    (hway : ∀ i ∈ s.instants, Timestamp.Fits (i.time.micros - origin.micros))
    (hbounded : s.Bounded size.val origin) :
    ∃ found, s.samples size.val origin = .ok found := by
  unfold samples
  cases hd : s.isDiscrete with
  | true =>
    rw [if_pos rfl]
    exact ⟨_, bind_eq_ok.mpr ⟨_, sampled_eq_ok.mpr ⟨hway, rfl⟩, rfl⟩⟩
  | false =>
    rw [if_neg Bool.false_ne_true]
    obtain ⟨hproduct, hearly⟩ := hbounded hd
    obtain ⟨first, hfirst, -⟩ := exists_binStart (t := s.period.lower) hpos
      (hway s.first (List.mem_cons_self ..)).2 hproduct hearly
    rw [bind_of_ok hfirst]
    refine Unrefused.exists_ok (Unrefused.mapM fun t _ => ?_) (Completes.mapM fun t _ => ?_)
    · exact (unrefused_valueNear s t).bind fun _ _ => Unrefused.ok _
    · exact (completes_valueNear h.rising hshort t).bind fun _ _ => Completes.ok _

lemma ofSamples_discrete (samples : List (Instant V)) :
    ofSamples .discrete samples = .ok (samples.map fun i => ofInstant i .discrete) := by
  unfold ofSamples
  cases samples <;> rfl

end

end Sequence

namespace Temporal

open Sequence

variable {V : Type} [TemporalValue V] [LawfulValue V] {v : Temporal V} {d : Interval}
  {size : Bigint} {origin : Timestamp}

/-- The samples of all sequences are in order and have the values of the whole at the boundaries. -/
lemma boundaries_of_samples (h : v.WellFormed) (hpos : 0 < size.val)
    {lists : List (List (Instant V))}
    (hlists : v.sequences.mapM (fun s => s.samples size.val origin) = .ok lists) :
    (lists.flatten.Pairwise fun i j => i.time.place < j.time.place) ∧
      (∀ i, i ∈ lists.flatten ↔ size.val ∣ i.time.micros - origin.micros ∧
        v.lookup i.time = .ok (some i.value)) ∧
      ∀ t, size.val ∣ t.micros - origin.micros → ∃ x, v.lookup t = .ok x := by
  have hsamples : List.Forall₂ (fun s found => s ∈ v.sequences ∧
      AtBoundaries s size.val origin found) v.sequences lists := by
    refine ((List.forall₂_and_left (p := (· ∈ v.sequences)) _ _).mpr
      ⟨fun s hs => hs, mapM_eq_ok.mp hlists⟩).imp fun s found hs => ?_
    exact ⟨hs.1, atBoundaries_of_samples (h.sequences s hs.1) hpos hs.2⟩
  refine ⟨List.pairwise_flatten.mpr ⟨fun found hfound => ?_, ?_⟩, fun i => ?_, fun t hdvd => ?_⟩
  · obtain ⟨s, -, -, hat⟩ := exists_of_mem_right hsamples hfound
    exact hat.rising
  · refine pairwise_of_forall₂ hsamples h.rising fun s found s' found' hs hs' hbefore i hi j hj => ?_
    have hbounds := (h.sequences s hs.1).mem_period (hs.2.covers hi)
    have hbounds' := (h.sequences s' hs'.1).mem_period (hs'.2.covers hj)
    unfold Before at hbefore
    omega
  · rw [List.mem_flatten]
    constructor
    · rintro ⟨found, hfound, hi⟩
      obtain ⟨s, -, hs, hat⟩ := exists_of_mem_right hsamples hfound
      obtain ⟨hdvd, hvalue⟩ := (hat.mem_iff i).mp hi
      exact ⟨hdvd, (h.lookup_of_mem hs (hat.covers hi)).trans hvalue⟩
    · rintro ⟨hdvd, hvalue⟩
      obtain ⟨s, hs, hc⟩ : v.Covers i.time.place := by
        by_contra hn
        rw [lookup_of_not_covers hn] at hvalue
        cases hvalue
      obtain ⟨found, hfound, -, hat⟩ := exists_of_mem_left hsamples hs
      rw [h.lookup_of_mem hs hc] at hvalue
      exact ⟨found, hfound, (hat.mem_iff i).mpr ⟨hdvd, hvalue⟩⟩
  · by_cases hc : v.Covers t.place
    · obtain ⟨s, hs, hc⟩ := hc
      obtain ⟨found, -, -, hat⟩ := exists_of_mem_left hsamples hs
      rw [h.lookup_of_mem hs hc]
      exact hat.exists_lookup t hdvd
    · exact ⟨none, lookup_of_not_covers hc⟩

omit [LawfulValue V] in
lemma sample_eq_ok (hd : d.micros? = some size) (hpos : 0 < size.val)
    {r : Option (Temporal V)} : v.sample d origin .discrete = .ok r ↔
      ∃ lists, v.sequences.mapM (fun s => s.samples size.val origin) = .ok lists ∧
        ofPieces (lists.flatten.map fun i => ofInstant i .discrete) = .ok r := by
  unfold sample
  rw [reported_eq_ok, bind_of_ok (binMicros_eq_ok hd hpos)]
  simp only [ofSamples_discrete, bind_eq_ok]
  constructor
  · rintro ⟨pieces, hpieces, hr⟩
    obtain ⟨lists, hlists, rfl⟩ := mapM_map_eq_ok.mp hpieces
    rw [← List.map_flatten] at hr
    exact ⟨lists, hlists, hr⟩
  · rintro ⟨lists, hlists, hr⟩
    rw [List.map_flatten] at hr
    exact ⟨_, mapM_map_eq_ok.mpr ⟨lists, hlists, rfl⟩, hr⟩

def lookupIn (found : Option (Temporal V)) (t : Timestamp) : Result (Option V) :=
  match found with
  | none => .ok none
  | some v => v.lookup t

/-- Instants in order whose values go together, taken as pieces, are found again. -/
lemma ofPieces_ofInstant {samples : List (Instant V)} {c : V}
    (hrising : samples.Pairwise fun i j => i.time.place < j.time.place)
    (hc : ∀ i ∈ samples, TemporalValue.compatible c i.value = .ok ()) :
    ∃ r, ofPieces (samples.map fun i => ofInstant i .discrete) = .ok r ∧
      ∀ t, ∃ found, lookupIn r t = .ok found ∧ ∀ x, found = some x ↔ ⟨x, t⟩ ∈ samples := by
  have hinstant : ∀ i : Instant V, (ofInstant i .discrete).instants = [i] := fun _ => rfl
  have hpieces : ∀ s ∈ samples.map fun i => ofInstant i .discrete,
      ∃ i ∈ samples, ofInstant i .discrete = s := fun s hs => List.mem_map.mp hs
  have hapart : (samples.map fun i => ofInstant i .discrete).Pairwise Apart := by
    refine List.pairwise_map.mpr (hrising.imp fun {i j} hij n hn => ?_)
    rw [covers_ofInstant, covers_ofInstant] at hn
    omega
  obtain ⟨r, hr, hseq, hinstants⟩ := ofPieces_instants (c := c)
    (fun s hs => by
      obtain ⟨i, -, rfl⟩ := hpieces s hs
      exact wellFormed_ofInstant i (by simp))
    (fun s hs => by
      obtain ⟨i, -, rfl⟩ := hpieces s hs
      rfl)
    hapart
    (fun s hs j hj => by
      obtain ⟨i, hi, rfl⟩ := hpieces s hs
      rw [hinstant, List.mem_singleton] at hj
      exact hj ▸ hc i hi)
  have hmem : ∀ i, (∃ s ∈ parts r, i ∈ s.instants) ↔ i ∈ samples := by
    simpa [hinstant] using hinstants
  refine ⟨r, hr, fun t => ?_⟩
  simp only [← hmem]
  cases r with
  | none => exact ⟨none, rfl, by simp [parts]⟩
  | some y =>
    obtain ⟨s, rfl, hs, hd⟩ := hseq y rfl
    simp only [parts, sequences, List.mem_singleton, exists_eq_left]
    refine ⟨_, Sequence.lookup_of_discrete hd t, fun x => ?_⟩
    rw [← hs.lookup_of_discrete hd, Sequence.lookup_of_discrete hd, Except.ok.injEq]

/-- The samples of all sequences are put together to what has the value at the boundaries only. -/
lemma exists_sampled (h : v.WellFormed) (hpos : 0 < size.val) {lists : List (List (Instant V))}
    (hlists : v.sequences.mapM (fun s => s.samples size.val origin) = .ok lists) :
    ∃ r, ofPieces (lists.flatten.map fun i => ofInstant i .discrete) = .ok r ∧
      ∀ t, lookupIn r t =
        if size.val ∣ t.micros - origin.micros then v.lookup t else .ok none := by
  obtain ⟨hrising, hmem, hlookup⟩ := boundaries_of_samples h hpos hlists
  obtain ⟨r, hr, hfound⟩ := ofPieces_ofInstant hrising fun i hi =>
    h.compatible_valueAt (foundIn_eq_some.mpr ((hmem i).mp hi).2)
  refine ⟨r, hr, fun t => ?_⟩
  obtain ⟨found, hok, hvalue⟩ := hfound t
  rw [hok]
  by_cases hdvd : size.val ∣ t.micros - origin.micros
  · obtain ⟨x, hx⟩ := hlookup t hdvd
    rw [if_pos hdvd, hx]
    refine congrArg _ (Option.ext fun y => ?_)
    rw [hvalue, hmem, hx, Except.ok.injEq]
    exact and_iff_right hdvd
  · rw [if_neg hdvd]
    refine congrArg _ (Option.eq_none_iff_forall_ne_some.mpr fun y hy => ?_)
    exact hdvd ((hmem _).mp ((hvalue y).mp hy)).1

/-- A discrete sample, if there is one, has the value at all boundaries of bins and is defined
nowhere else. There is one of a short value where the ways from the origin to its instants, the
multiple of the width that leads to the first boundary of every continuous sequence, and that
boundary fit in 64 bits. -/
theorem discrete_sample_spec (origin : Timestamp) (h : v.WellFormed) (hd : d.micros? = some size)
    (hpos : 0 < size.val) :
    (∀ r, v.sample d origin .discrete = .ok r → ∀ t, lookupIn r t =
      if size.val ∣ t.micros - origin.micros then v.lookup t else .ok none) ∧
    (v.Short → (∀ i ∈ v.instants, Timestamp.Fits (i.time.micros - origin.micros)) →
      (∀ s ∈ v.sequences, s.Bounded size.val origin) →
      ∃ r, v.sample d origin .discrete = .ok r) := by
  refine ⟨fun r hr => ?_, fun hshort hway hbounded => ?_⟩
  · obtain ⟨lists, hlists, hr⟩ := (sample_eq_ok hd hpos).mp hr
    obtain ⟨r', hr', hvalue⟩ := exists_sampled h hpos hlists
    obtain rfl : r = r' := Except.ok.inj (hr.symm.trans hr')
    exact hvalue
  · have hsamples : ∀ s ∈ v.sequences, ∃ found, s.samples size.val origin = .ok found :=
      fun s hs => exists_samples (h.sequences s hs) hpos (h.shortRun hshort hs)
        (fun i hi => hway i (mem_instants_iff.mpr ⟨s, hs, hi⟩)) (hbounded s hs)
    obtain ⟨lists, hlists⟩ := exists_forall₂_iff.mpr hsamples
    obtain ⟨r, hr, -⟩ := exists_sampled h hpos (mapM_eq_ok.mpr hlists)
    exact ⟨r, (sample_eq_ok hd hpos).mpr ⟨lists, mapM_eq_ok.mpr hlists, hr⟩⟩

/-- What goes up by steps is sampled around an origin within it. Its end is a boundary, but is
excluded. -/
theorem stairs_sampled :
    stairs.WellFormed ∧ (Interval.ofMicros 5).micros? = some (.clamp 5) ∧
      (0 : Int) < (Signed.clamp 5 : Bigint).val ∧ stairs.Short ∧
      ∃ r, stairs.sample (.ofMicros 5) (.nearest 15) .discrete = .ok r ∧
        lookupIn r (.nearest 10) = .ok (some (.clamp 2)) ∧
        lookupIn r (.nearest 20) = .ok none ∧
        lookupIn r (.nearest 12) = .ok none := by
  have hd : (Interval.ofMicros 5).micros? = some (.clamp 5) := by decide
  have hway : ∀ i ∈ stairs.instants,
      Timestamp.Fits (i.time.micros - (Timestamp.nearest 15).micros) := by decide
  have hbounded : ∀ s ∈ stairs.sequences,
      s.Bounded (Signed.clamp 5 : Bigint).val (.nearest 15) := by
    intro s hs _
    obtain rfl := List.mem_singleton.mp hs
    decide
  have hshort := stairs_wellFormed.short
  obtain ⟨hsample, hok⟩ := discrete_sample_spec (.nearest 15) stairs_wellFormed hd (by decide)
  obtain ⟨r, hr⟩ := hok hshort hway hbounded
  exact ⟨stairs_wellFormed, hd, by decide, hshort, r, hr, hsample r hr _, hsample r hr _,
    hsample r hr _⟩

end Temporal

end TemporalAlgebra
