import TemporalAlgebra.Proofs.SpanSet.Identities
import TemporalAlgebra.Proofs.Temporal.TimeRestriction
import TemporalAlgebra.Proofs.Time.Shifting
import TemporalAlgebra.Temporal.Bins

/-!
# Values split by bins of time

The bins of a width are known by the multiples of the width that they start at, so two of them never
meet and every place lies in one. A value that is split is restricted to the bins it meets, one
after the other. The start of the first bin is found by a product: where that leaves 64 bits the
value is not split but given up.
-/
namespace TemporalAlgebra

/-- Multiple of a width, counted from an origin, at or before a timestamp. -/
def binFloor (t : Timestamp) (size : Int) (origin : Timestamp) : Int :=
  (t.micros - origin.micros) / size * size

/-- The period of a width that starts at a timestamp, if it ends within 64 bits. -/
def bin? (start : Timestamp) (size : Int) : Option Period :=
  (Timestamp.ofMicros? (start.micros + size)).map fun upper => ⟨start, upper, true, false⟩

section

variable {size : Int} {t start first last origin : Timestamp} {bin : Period} {n : Int}

lemma bin?_eq_some : bin? start size = some bin ↔ ∃ upper : Timestamp,
    upper.micros = start.micros + size ∧ bin = ⟨start, upper, true, false⟩ := by
  unfold bin?
  rw [Option.map_eq_some_iff]
  refine exists_congr fun upper => ?_
  rw [Timestamp.ofMicros?_eq_some, eq_comm (b := bin)]

lemma covers_of_bin? (h : bin? start size = some bin) :
    bin.Covers n ↔ start.place ≤ n ∧ n < start.place + 3 * size := by
  obtain ⟨upper, hupper, rfl⟩ := bin?_eq_some.mp h
  unfold Span.Covers
  rw [Period.lo_eq, Period.hi_eq]
  unfold Timestamp.place
  simp only [if_true, Bool.false_eq_true, if_false]
  omega

lemma valid_of_bin? (hpos : 0 < size) (h : bin? start size = some bin) : bin.Valid := by
  obtain ⟨upper, hupper, rfl⟩ := bin?_eq_some.mp h
  rw [Period.valid_iff, Period.lo_eq, Period.hi_eq]
  unfold Timestamp.place
  simp only [if_true, Bool.false_eq_true, if_false]
  omega

lemma binFloor_bounds (t origin : Timestamp) (hpos : 0 < size) :
    t.micros - origin.micros - size < binFloor t size origin ∧
      binFloor t size origin ≤ t.micros - origin.micros := by
  have hsum := Int.emod_add_mul_ediv (t.micros - origin.micros) size
  have hlower := Int.emod_nonneg (t.micros - origin.micros) (Int.ne_of_gt hpos)
  have hupper := Int.emod_lt_of_pos (t.micros - origin.micros) hpos
  rw [Int.mul_comm] at hsum
  unfold binFloor
  omega

lemma dvd_binFloor : size ∣ origin.micros + binFloor t size origin - origin.micros := by
  rw [Int.add_comm, Int.add_sub_cancel]
  exact Int.dvd_mul_left _ _

/-- The first bin starts at the multiple of the width. It is told if the way to it and the multiple
fit in 64 bits. -/
lemma binStart_eq_ok : binStart t size origin = .ok first ↔
    Timestamp.Fits (t.micros - origin.micros) ∧ Timestamp.Fits (binFloor t size origin) ∧
      first.micros = origin.micros + binFloor t size origin := by
  unfold binStart
  simp only [bind_eq_ok, Timestamp.microsTo_eq_ok, orAbort_eq_ok, Signed.ofInt?_eq_some,
    orRefuse_eq_ok, Timestamp.ofMicros?_eq_some]
  constructor
  · rintro ⟨way, hway, offset, hoffset, hfirst⟩
    rw [hway] at hoffset
    rw [← hoffset] at hfirst
    have hfits := And.intro way.lower way.upper
    have hproduct := And.intro offset.lower offset.upper
    rw [hway] at hfits
    rw [← hoffset] at hproduct
    exact ⟨hfits, hproduct, hfirst⟩
  · rintro ⟨hfits, hproduct, hfirst⟩
    exact ⟨⟨_, hfits.1, hfits.2⟩, rfl, ⟨_, hproduct.1, hproduct.2⟩, rfl, hfirst⟩

lemma binMicros_eq_ok {d : Interval} {size : Bigint} (hd : d.micros? = some size)
    (hpos : 0 < size.val) : binMicros d = .ok size.val := by
  unfold binMicros
  simp only [hd, if_pos hpos]

lemma exists_binStart (hpos : 0 < size) (hway : t.micros - origin.micros < 2 ^ 63)
    (hproduct : -2 ^ 63 ≤ binFloor t size origin)
    (hfirst : -2 ^ 63 ≤ origin.micros + binFloor t size origin) :
    ∃ first, binStart t size origin = .ok first ∧
      first.micros = origin.micros + binFloor t size origin := by
  have hle := (binFloor_bounds t origin hpos).2
  have ht : t.micros < 2 ^ 63 := t.ticks.upper
  refine ⟨⟨⟨_, hfirst, by omega⟩⟩, binStart_eq_ok.mpr ⟨?_, ?_, rfl⟩, rfl⟩
  · exact ⟨by omega, hway⟩
  · exact ⟨hproduct, by omega⟩

lemma lt_binCount_iff (hpos : 0 < size) {k : Nat} :
    k < ((last.micros - first.micros) / size + 1).toNat ↔
      first.micros + k * size ≤ last.micros := by
  have := Int.le_ediv_iff_mul_le (a := (k : Int)) (b := last.micros - first.micros) hpos
  omega

lemma micros_bin (hpos : 0 < size) {k : Nat} (h : first.micros + k * size ≤ last.micros) :
    (Timestamp.nearest (first.micros + k * size)).micros = first.micros + k * size := by
  have hfirst : -2 ^ 63 ≤ first.micros := first.ticks.lower
  have hlast : last.micros < 2 ^ 63 := last.ticks.upper
  have hle : 0 ≤ (k : Int) * size := Int.mul_nonneg (Int.natCast_nonneg k) (Int.le_of_lt hpos)
  rw [Timestamp.micros_nearest (by omega)]
  omega

lemma mem_binStarts (hpos : 0 < size) : t ∈ binStarts first size last ↔
    first.micros ≤ t.micros ∧ t.micros ≤ last.micros ∧ size ∣ t.micros - first.micros := by
  unfold binStarts
  simp only [List.mem_map, List.mem_range, lt_binCount_iff hpos]
  constructor
  · rintro ⟨k, hk, rfl⟩
    rw [micros_bin hpos hk]
    have hle : 0 ≤ (k : Int) * size := Int.mul_nonneg (Int.natCast_nonneg k) (Int.le_of_lt hpos)
    refine ⟨by omega, hk, k, ?_⟩
    rw [Int.mul_comm]
    omega
  · rintro ⟨hge, hle, k, hk⟩
    have hk0 : 0 ≤ k := by
      by_contra hneg
      have := Int.mul_neg_of_pos_of_neg hpos (not_le.mp hneg)
      omega
    obtain ⟨k, rfl⟩ := Int.eq_ofNat_of_zero_le hk0
    rw [Int.mul_comm] at hk
    have hk : first.micros + k * size ≤ last.micros := by omega
    refine ⟨k, hk, Timestamp.eq_iff.mpr ?_⟩
    unfold Timestamp.place
    rw [micros_bin hpos hk]
    omega

lemma dvd_of_mem_binStarts (hpos : 0 < size) (horigin : size ∣ first.micros - origin.micros)
    (h : t ∈ binStarts first size last) : size ∣ t.micros - origin.micros := by
  have hsum : t.micros - origin.micros =
      t.micros - first.micros + (first.micros - origin.micros) := by omega
  rw [hsum]
  exact Int.dvd_add ((mem_binStarts hpos).mp h).2.2 horigin

lemma add_size_le_of_lt {a b : Int} (ha : size ∣ a - n) (hb : size ∣ b - n) (hab : a < b) :
    a + size ≤ b := by
  have hdvd := Int.dvd_sub hb ha
  have := Int.le_of_dvd (by omega) hdvd
  omega

lemma micros_le_of_mem_binStarts (hpos : 0 < size) (horigin : size ∣ first.micros - origin.micros)
    (h : t ∈ binStarts first size last) : t.micros ≤ origin.micros + binFloor last size origin := by
  have hle := ((mem_binStarts hpos).mp h).2.1
  have hbounds := binFloor_bounds last origin hpos
  by_contra hlt
  have hnext := add_size_le_of_lt (dvd_binFloor (t := last))
    (dvd_of_mem_binStarts hpos horigin h) (by omega)
  omega

lemma binStarts_rising (hpos : 0 < size) :
    (binStarts first size last).Pairwise fun a b => a.micros < b.micros := by
  unfold binStarts
  rw [List.pairwise_map]
  refine List.pairwise_lt_range.imp_of_mem fun {j k} hj hk hjk => ?_
  rw [List.mem_range, lt_binCount_iff hpos] at hj hk
  rw [micros_bin hpos hj, micros_bin hpos hk]
  have := Int.mul_lt_mul_of_pos_right (Int.ofNat_lt.mpr hjk) hpos
  omega

end

namespace Temporal

variable {V : Type} [TemporalValue V]

/-- The parts of a value in its bins of a width. Whatever of the value lies in a bin is listed with
the start of the bin, and nothing else is. -/
structure SplitsInto (v : Temporal V) (size : Int) (origin : Timestamp)
    (parts : List (Timestamp × Temporal V)) : Prop where
  rising : parts.Pairwise fun a b => a.1 < b.1
  aligned : ∀ part ∈ parts, size ∣ part.1.micros - origin.micros
  wellFormed : ∀ part ∈ parts, part.2.WellFormed
  time_eq : ∀ part ∈ parts, ∃ bin, bin? part.1 size = some bin ∧
    v.time.intersectionSpan bin = some part.2.time
  complete : ∀ start bin, size ∣ start.micros - origin.micros → bin? start size = some bin →
    v.time.intersectionSpan bin ≠ none → ∃ part ∈ parts, part.1 = start
  disjoint : parts.Pairwise fun a b => a.2.time.overlaps b.2.time = false
  union_eq : SpanSet.ofSpans? (parts.flatMap fun part => part.2.time.spans) = some v.time
  value_eq : StepValue V → ∀ part ∈ parts, ∀ bin, bin? part.1 size = some bin → ∀ t,
    bin.containsValue t = true → part.2.valueAt t = v.valueAt t

variable [LawfulValue V] {v : Temporal V} {d : Interval} {size : Bigint} {start origin : Timestamp}

omit [LawfulValue V] in
lemma inBin_eq_ok (hd : d.micros? = some size) (hpos : 0 < size.val)
    {found : Option (Timestamp × Temporal V)} : v.inBin d start = .ok found ↔
      ∃ bin, bin? start size.val = some bin ∧
        ∃ part, v.atPeriod bin = .ok part ∧ part.map (fun part => (start, part)) = found := by
  unfold inBin
  simp only [bind_eq_ok, pure_eq_ok, Timestamp.shift_eq_ok hd, Span.new, reported_eq_ok,
    Period.make_eq_ok_iff, bin?_eq_some]
  constructor
  · rintro ⟨upper, hupper, bin, ⟨rfl, -⟩, hpart⟩
    exact ⟨_, ⟨upper, hupper, rfl⟩, hpart⟩
  · rintro ⟨bin, ⟨upper, hupper, rfl⟩, hpart⟩
    have hvalid := valid_of_bin? hpos (bin?_eq_some.mpr ⟨upper, hupper, rfl⟩)
    exact ⟨upper, hupper, _, ⟨rfl, hvalid⟩, hpart⟩

/-- What is found in bins, one after the other. -/
structure FoundIn (v : Temporal V) (size : Int) (starts : List Timestamp)
    (parts : List (Timestamp × Temporal V)) : Prop where
  sublist : (parts.map Prod.fst).Sublist starts
  restricts : ∀ part ∈ parts, ∃ bin, bin? part.1 size = some bin ∧
    Restricts v bin.Covers (some part.2)
  complete : ∀ start ∈ starts, ∃ bin, bin? start size = some bin ∧
    ∀ n, v.Covers n → bin.Covers n → ∃ part ∈ parts, part.1 = start

omit [LawfulValue V] in
lemma sublist_of_mapM_inBin (hd : d.micros? = some size) (hpos : 0 < size.val)
    {starts : List Timestamp} {found : List (Option (Timestamp × Temporal V))}
    (hok : starts.mapM (v.inBin d) = .ok found) :
    ((found.filterMap id).map Prod.fst).Sublist starts := by
  rw [mapM_eq_ok] at hok
  induction hok with
  | nil => exact List.Sublist.refl _
  | cons hhere _ ih =>
    obtain ⟨-, -, part, -, rfl⟩ := (inBin_eq_ok hd hpos).mp hhere
    cases part with
    | none => exact ih.cons _
    | some part => exact ih.cons_cons _

lemma foundIn_of_mapM (h : v.WellFormed) (hd : d.micros? = some size) (hpos : 0 < size.val)
    {starts : List Timestamp} {found : List (Option (Timestamp × Temporal V))}
    (hok : starts.mapM (v.inBin d) = .ok found) :
    FoundIn v size.val starts (found.filterMap id) := by
  have hpart : ∀ {start bin part}, bin? start size.val = some bin → v.atPeriod bin = .ok part →
      Restricts v bin.Covers part := by
    intro start bin part hbin hat
    have hwf := SpanSet.wellFormed_ofSpan (valid_of_bin? hpos hbin)
    have hr := returns_restricts_withinPeriods h hwf _ (reported_eq_ok.mp hat)
    rwa [funext fun n => propext (SpanSet.covers_ofSpan bin n)] at hr
  refine ⟨sublist_of_mapM_inBin hd hpos hok, fun part hmem => ?_, fun start hmem => ?_⟩
  · obtain ⟨found, hfound, hid⟩ := List.mem_filterMap.mp hmem
    obtain ⟨start, -, hhere⟩ := mem_of_mapM_eq_ok hok hfound
    obtain ⟨bin, hbin, part', hat, rfl⟩ := (inBin_eq_ok hd hpos).mp hhere
    obtain ⟨part', rfl, rfl⟩ := Option.map_eq_some_iff.mp hid
    exact ⟨bin, hbin, hpart hbin hat⟩
  · obtain ⟨found, hfound, hhere⟩ := mem_mapM_of_mem hok hmem
    obtain ⟨bin, hbin, part, hat, rfl⟩ := (inBin_eq_ok hd hpos).mp hhere
    refine ⟨bin, hbin, fun n hn hin => ?_⟩
    cases part with
    | none => exact absurd (((hpart hbin hat).covers_iff n).mpr ⟨hn, hin⟩) (not_someCovers_none n)
    | some part => exact ⟨(start, part), List.mem_filterMap.mpr ⟨_, hfound, rfl⟩, rfl⟩

/-- Parts in aligned bins, in order, that make up a value. -/
structure Fills (v : Temporal V) (size : Int) (origin : Timestamp)
    (parts : List (Timestamp × Temporal V)) : Prop where
  rising : parts.Pairwise fun a b => a.1.micros < b.1.micros
  aligned : ∀ part ∈ parts, size ∣ part.1.micros - origin.micros
  restricts : ∀ part ∈ parts, ∃ bin, bin? part.1 size = some bin ∧
    Restricts v bin.Covers (some part.2)
  exhaustive : ∀ n, v.Covers n → ∃ part ∈ parts, part.2.Covers n

section

variable {first : Timestamp} {parts : List (Timestamp × Temporal V)} {part : Timestamp × Temporal V}
  {n : Int}

/-- Every place of a value lies in a bin, if the first bin starts no later than the value. -/
lemma exists_binStart_of_covers (h : v.WellFormed) (hpos : 0 < size.val)
    (hfirst : first.micros ≤ v.timespan.lower.micros) (hn : v.Covers n) :
    ∃ start ∈ binStarts first size.val v.timespan.upper,
      start.place ≤ n ∧ n < start.place + 3 * size.val := by
  obtain ⟨hlo, hhi⟩ := h.timespan_covers hn
  rw [Period.lo_eq] at hlo
  rw [Period.hi_eq] at hhi
  unfold Timestamp.place at hlo hhi
  have hge : 3 * first.micros + 1 ≤ n := by split at hlo <;> omega
  have hle : n ≤ 3 * v.timespan.upper.micros + 1 := by split at hhi <;> omega
  have hsum := Int.emod_add_mul_ediv (n - (3 * first.micros + 1)) (3 * size.val)
  have hlower := Int.emod_nonneg (n - (3 * first.micros + 1)) (b := 3 * size.val) (by omega)
  have hupper := Int.emod_lt_of_pos (n - (3 * first.micros + 1)) (b := 3 * size.val) (by omega)
  have hq : 0 ≤ (n - (3 * first.micros + 1)) / (3 * size.val) :=
    Int.ediv_nonneg (by omega) (by omega)
  obtain ⟨k, hk⟩ := Int.eq_ofNat_of_zero_le hq
  rw [hk, Int.mul_assoc, Int.mul_comm size.val] at hsum
  have hlast : first.micros + k * size.val ≤ v.timespan.upper.micros := by omega
  have hmicros := micros_bin hpos hlast
  refine ⟨.nearest (first.micros + k * size.val), (mem_binStarts hpos).mpr ?_, ?_⟩
  · have hmul : 0 ≤ (k : Int) * size.val :=
      Int.mul_nonneg (Int.natCast_nonneg k) (Int.le_of_lt hpos)
    rw [hmicros]
    refine ⟨by omega, by omega, k, ?_⟩
    rw [Int.mul_comm]
    omega
  · unfold Timestamp.place
    rw [hmicros]
    omega

omit [LawfulValue V] in
lemma covers_part_iff (hr : ∃ bin, bin? part.1 size.val = some bin ∧
    Restricts v bin.Covers (some part.2)) (n : Int) : part.2.Covers n ↔
      v.Covers n ∧ part.1.place ≤ n ∧ n < part.1.place + 3 * size.val := by
  obtain ⟨bin, hbin, hr⟩ := hr
  rw [← covers_of_bin? hbin]
  exact hr.covers_iff n

/-- What is found in all bins from the one that a value starts in makes up the value. -/
lemma fills_of_foundIn (h : v.WellFormed) (hpos : 0 < size.val)
    (hfirst : first.micros ≤ v.timespan.lower.micros)
    (horigin : size.val ∣ first.micros - origin.micros)
    (hf : FoundIn v size.val (binStarts first size.val v.timespan.upper) parts) :
    Fills v size.val origin parts := by
  refine ⟨?_, fun part hpart => ?_, hf.restricts, fun n hn => ?_⟩
  · have := (binStarts_rising hpos).sublist hf.sublist
    rwa [List.pairwise_map] at this
  · exact dvd_of_mem_binStarts hpos horigin (hf.sublist.subset (List.mem_map_of_mem hpart))
  · obtain ⟨start, hmem, hin⟩ := exists_binStart_of_covers h hpos hfirst hn
    obtain ⟨bin, hbin, hcomplete⟩ := hf.complete start hmem
    obtain ⟨part, hpart, rfl⟩ := hcomplete n hn ((covers_of_bin? hbin).mpr hin)
    exact ⟨part, hpart, (covers_part_iff (hf.restricts part hpart) n).mpr ⟨hn, hin⟩⟩

namespace Fills

omit [LawfulValue V] in
lemma wellFormed (hf : Fills v size.val origin parts) (hpart : part ∈ parts) :
    part.2.WellFormed := by
  obtain ⟨bin, -, hr⟩ := hf.restricts part hpart
  exact hr.wellFormed part.2 rfl

lemma exists_part_of_meets (hf : Fills v size.val origin parts) (h : v.WellFormed)
    (hpos : 0 < size.val) {bin : Period} (hdvd : size.val ∣ start.micros - origin.micros)
    (hbin : bin? start size.val = some bin) (hmeets : v.time.intersectionSpan bin ≠ none) :
    ∃ part ∈ parts, part.1 = start := by
  obtain ⟨htime, hcov⟩ := h.time_spec
  have hvalid := valid_of_bin? hpos hbin
  obtain ⟨common, hcommon⟩ := Option.ne_none_iff_exists'.mp hmeets
  obtain ⟨n, hn⟩ := (htime.intersectionSpan hvalid hcommon).exists_covers
  obtain ⟨hn, hin⟩ := (htime.someCovers_intersectionSpan hvalid n).mp ⟨common, hcommon, hn⟩
  obtain ⟨part, hpart, hcovers⟩ := hf.exhaustive n ((hcov n).mp hn)
  -- two aligned bins that share a place are the same
  obtain ⟨-, hlower, hupper⟩ := (covers_part_iff (hf.restricts part hpart) n).mp hcovers
  rw [covers_of_bin? hbin] at hin
  have hbefore := add_size_le_of_lt (hf.aligned part hpart) hdvd
  have hafter := add_size_le_of_lt hdvd (hf.aligned part hpart)
  refine ⟨part, hpart, Timestamp.eq_iff.mpr ?_⟩
  unfold Timestamp.place at hin hlower hupper ⊢
  omega

lemma disjoint (hf : Fills v size.val origin parts) :
    parts.Pairwise fun a b => a.2.time.overlaps b.2.time = false := by
  refine hf.rising.imp_of_mem fun {a b} ha hb hab => ?_
  obtain ⟨htime, hcov⟩ := (hf.wellFormed ha).time_spec
  obtain ⟨htime', hcov'⟩ := (hf.wellFormed hb).time_spec
  rw [htime.overlaps_eq_false_iff htime']
  intro n hna hnb
  obtain ⟨-, -, hupper⟩ := (covers_part_iff (hf.restricts a ha) n).mp ((hcov n).mp hna)
  obtain ⟨-, hlower, -⟩ := (covers_part_iff (hf.restricts b hb) n).mp ((hcov' n).mp hnb)
  have := add_size_le_of_lt (hf.aligned a ha) (hf.aligned b hb) hab
  unfold Timestamp.place at hupper hlower
  omega

lemma union_eq (hf : Fills v size.val origin parts) (h : v.WellFormed) :
    SpanSet.ofSpans? (parts.flatMap fun part => part.2.time.spans) = some v.time := by
  obtain ⟨htime, hcov⟩ := h.time_spec
  have hvalid : ∀ s ∈ parts.flatMap fun part => part.2.time.spans, s.Valid := by
    intro s hs
    obtain ⟨part, hpart, hs⟩ := List.mem_flatMap.mp hs
    exact (hf.wellFormed hpart).time_spec.1.normal.valid s hs
  refine SpanSet.eq_of_someCovers (fun s hs => SpanSet.wellFormed_of_mem_ofSpans? hvalid hs)
    (fun s hs => Option.mem_some.mp hs ▸ htime) fun n => ?_
  rw [SpanSet.someCovers_ofSpans? hvalid, SpanSet.someCovers_some, hcov]
  constructor
  · rintro ⟨s, hs, hn⟩
    obtain ⟨part, hpart, hs⟩ := List.mem_flatMap.mp hs
    have hcovers := ((hf.wellFormed hpart).time_spec.2 n).mp ⟨s, hs, hn⟩
    exact ((covers_part_iff (hf.restricts part hpart) n).mp hcovers).1
  · intro hn
    obtain ⟨part, hpart, hn⟩ := hf.exhaustive n hn
    obtain ⟨s, hs, hn⟩ := ((hf.wellFormed hpart).time_spec.2 n).mpr hn
    exact ⟨s, List.mem_flatMap.mpr ⟨part, hpart, hs⟩, hn⟩

lemma splitsInto (hf : Fills v size.val origin parts) (h : v.WellFormed) (hpos : 0 < size.val) :
    SplitsInto v size.val origin parts := by
  obtain ⟨htime, hcov⟩ := h.time_spec
  refine ⟨hf.rising, hf.aligned, fun _ => hf.wellFormed, fun part hpart => ?_,
    fun _ _ => hf.exists_part_of_meets h hpos, hf.disjoint, hf.union_eq h,
    fun hl part hpart bin hbin t ht => ?_⟩
  · obtain ⟨bin, hbin, hr⟩ := hf.restricts part hpart
    have hvalid := valid_of_bin? hpos hbin
    refine ⟨bin, hbin, (map_time_eq hr.wellFormed (fun s hs => htime.intersectionSpan hvalid hs)
      fun n => ?_).symm⟩
    rw [hr.covers_iff, htime.someCovers_intersectionSpan hvalid, hcov]
  · obtain ⟨bin', hbin', hr⟩ := hf.restricts part hpart
    obtain rfl : bin' = bin := Option.some.inj (hbin'.symm.trans hbin)
    have hvalue := hr.valueAt_eq h t _ (Span.containsValue_iff bin' t)
    rwa [if_pos ht] at hvalue

end Fills

end

omit [LawfulValue V] in
lemma timeSplit_eq_ok (hd : d.micros? = some size) (hpos : 0 < size.val)
    {parts : List (Timestamp × Temporal V)} : v.timeSplit d origin = .ok parts ↔
      ∃ first, binStart v.timespan.lower size.val origin = .ok first ∧
        ∃ found, (binStarts first size.val v.timespan.upper).mapM (v.inBin d) = .ok found ∧
          found.filterMap id = parts := by
  unfold timeSplit
  rw [reported_eq_ok, bind_of_ok (binMicros_eq_ok hd hpos)]
  simp only [bind_eq_ok, pure_eq_ok]

lemma exists_timeSplit (h : v.WellFormed) (hp : v.Proper) (hshort : v.Short)
    (hd : d.micros? = some size) (hpos : 0 < size.val)
    (hway : v.timespan.lower.micros - origin.micros < 2 ^ 63)
    (hproduct : -2 ^ 63 ≤ binFloor v.timespan.lower size.val origin)
    (hfirst : -2 ^ 63 ≤ origin.micros + binFloor v.timespan.lower size.val origin)
    (hlast : origin.micros + binFloor v.timespan.upper size.val origin + size.val < 2 ^ 63) :
    ∃ parts, v.timeSplit d origin = .ok parts := by
  obtain ⟨first, hstart, hmicros⟩ := exists_binStart hpos hway hproduct hfirst
  have horigin : size.val ∣ first.micros - origin.micros := by
    rw [hmicros]
    exact dvd_binFloor
  have hbins : ∀ start ∈ binStarts first size.val v.timespan.upper,
      ∃ found, v.inBin d start = .ok found := by
    intro start hmem
    have hend := micros_le_of_mem_binStarts hpos horigin hmem
    have hlower : -2 ^ 63 ≤ start.micros := start.ticks.lower
    have hbin : bin? start size.val = some ⟨start, ⟨⟨start.micros + size.val, by omega, by omega⟩⟩,
        true, false⟩ := bin?_eq_some.mpr ⟨_, rfl, rfl⟩
    have hwf := SpanSet.wellFormed_ofSpan (valid_of_bin? hpos hbin)
    obtain ⟨part, hpart, -⟩ := withinPeriods_spec h hp hwf
      (completes_withinPeriods h hp hshort hwf)
    exact ⟨_, (inBin_eq_ok hd hpos).mpr ⟨_, hbin, part, reported_eq_ok.mpr hpart, rfl⟩⟩
  choose! found hfound using hbins
  exact ⟨_, (timeSplit_eq_ok hd hpos).mpr ⟨first, hstart, _, mapM_eq_map hfound, rfl⟩⟩

/-- Splitting by time, if it ends with a list, splits a value into its parts in all bins that it
meets. It does so for a short value where the way from the origin to its start, the multiple of the
width on that way, and the starts and ends of all bins from the first to the last fit in 64 bits. -/
theorem time_split_partitions (origin : Timestamp) (h : v.WellFormed) (hd : d.micros? = some size)
    (hpos : 0 < size.val) :
    (∀ parts, v.timeSplit d origin = .ok parts → SplitsInto v size.val origin parts) ∧
    (v.Proper → v.Short → v.timespan.lower.micros - origin.micros < 2 ^ 63 →
      -2 ^ 63 ≤ binFloor v.timespan.lower size.val origin →
      -2 ^ 63 ≤ origin.micros + binFloor v.timespan.lower size.val origin →
      origin.micros + binFloor v.timespan.upper size.val origin + size.val < 2 ^ 63 →
      ∃ parts, v.timeSplit d origin = .ok parts) := by
  refine ⟨fun parts hok => ?_, fun hp hshort => exists_timeSplit h hp hshort hd hpos⟩
  obtain ⟨first, hfirst, found, hfound, rfl⟩ := (timeSplit_eq_ok hd hpos).mp hok
  obtain ⟨-, -, hmicros⟩ := binStart_eq_ok.mp hfirst
  have hbounds := binFloor_bounds v.timespan.lower origin hpos
  have horigin : size.val ∣ first.micros - origin.micros := by
    rw [hmicros]
    exact dvd_binFloor
  have hf := foundIn_of_mapM h hd hpos hfound
  exact (fills_of_foundIn h hpos (by omega) horigin hf).splitsInto h hpos

/-- What goes up by steps is split by bins around an origin within it, one of which starts where the
value ends. -/
theorem stairs_split :
    stairs.WellFormed ∧ stairs.Proper ∧ (Interval.ofMicros 15).micros? = some (.clamp 15) ∧
      (0 : Int) < (Signed.clamp 15 : Bigint).val ∧ stairs.Short ∧
      ∃ parts, stairs.timeSplit (.ofMicros 15) (.nearest 5) = .ok parts ∧
        SplitsInto stairs 15 (.nearest 5) parts := by
  have hd : (Interval.ofMicros 15).micros? = some (.clamp 15) := by decide
  have hshort := stairs_wellFormed.short
  obtain ⟨hsplit, hok⟩ := time_split_partitions (.nearest 5) stairs_wellFormed hd (by decide)
  obtain ⟨parts, hparts⟩ := hok stairs_proper hshort (by decide) (by decide) (by decide)
    (by decide)
  exact ⟨stairs_wellFormed, stairs_proper, hd, by decide, hshort, parts, hparts,
    hsplit parts hparts⟩

end Temporal

end TemporalAlgebra
