import TemporalAlgebra.Proofs.Temporal.ValueRestriction
import TemporalAlgebra.Proofs.Time.Interpolating

/-!
# Values that do not change

Along a linear segment with one value that value is selected from the start of the segment to where
the fraction one of its way leads. So a value that does not change is selected everywhere exactly
when each of its segments leads to its end, or beyond.
-/
namespace TemporalAlgebra

open Timestamp Binary64

namespace Sequence

variable {V : Type} [TemporalValue V]

/-- A linear sequence all of whose values are equal to `c`. -/
structure Constant (c : V) (s : Sequence V) : Prop where
  wellFormed : s.WellFormed
  linear : s.interp = .linear
  equal : ∀ i ∈ s.instants, (i.value == c) = true

/-- The end of a segment is reached from its start. -/
def Reaches (ab : Instant V × Instant V) : Prop :=
  ∃ t, ab.1.time.lerp ab.2.time 1.0 = .ok t ∧ ab.2.time ≤ t

/-- The period from one timestamp to another one, both included, if they rise. -/
lemma anyCovers_make? (start stop : Timestamp) (n : ℤ) :
    Span.AnyCovers (Span.make? start stop true true).toList n ↔
      start.place ≤ n ∧ n ≤ stop.place := by
  have hlo : (⟨start, stop, true, true⟩ : Period).lo = start.place := by
    rw [Period.lo_eq, if_pos rfl, add_zero]
  have hhi : (⟨start, stop, true, true⟩ : Period).hi = stop.place := by
    rw [Period.hi_eq, if_pos rfl, sub_zero]
  cases hmake : Span.make? start stop true true with
  | none =>
    have hfalls : ¬start.place ≤ stop.place := fun hrises => by
      have hsome : Span.make? start stop true true = some ⟨start, stop, true, true⟩ :=
        Period.make?_eq_some_iff.mpr ⟨rfl, (Period.valid_iff _).mpr (by omega)⟩
      rw [hmake] at hsome
      cases hsome
    exact iff_of_false (Span.anyCovers_nil n) (by omega)
  | some p =>
    obtain ⟨rfl, -⟩ := Period.make?_eq_some_iff.mp hmake
    rw [Option.toList_some, Span.anyCovers_cons, or_iff_left (Span.anyCovers_nil n)]
    unfold Span.Covers
    rw [hlo, hhi]

variable [LawfulValue V] {c : V} {s : Sequence V}

/-- A segment that does not change is selected up to where its way leads. -/
lemma segmentTimes_constant {a b : Instant V} (hle : a.time ≤ b.time)
    (ha : (a.value == c) = true) (hb : (b.value == c) = true) :
    segmentTimes .linear (.equalTo c) a b = do
      return (Span.make? a.time (← a.time.lerp b.time 1.0) true true).toList := by
  have halong : (ValueFilter.equalTo c).along a.value b.value = [.full] := by
    change ValueFilter.alongValue c a.value b.value = _
    unfold ValueFilter.alongValue
    rw [if_pos (LawfulValue.beq_trans ha (LawfulValue.beq_symm hb)), if_pos ha]
  unfold segmentTimes
  dsimp only
  rw [halong, List.mapM_cons, List.mapM_nil]
  by_cases hfits : Fits (b.time.micros - a.time.micros)
  swap
  · simp only [lerp_of_not_fits hfits]
    rfl
  have hstart : a.time.lerp b.time RatioRange.full.lower = .ok a.time := lerp_zero hle hfits.2
  have hstop : a.time.lerp b.time RatioRange.full.upper = a.time.lerp b.time 1.0 := rfl
  rw [hstart, hstop]
  cases a.time.lerp b.time 1.0 with
  | error f => rfl
  | ok stop =>
    change Except.ok ([(Span.make? a.time stop true true : Option Period)].filterMap id) =
      Except.ok (Span.make? a.time stop true true).toList
    cases Span.make? a.time stop true true <;> rfl

lemma Constant.rises (h : s.Constant c) {ab : Instant V × Instant V} (hab : ab ∈ s.segments) :
    ab.1.time ≤ ab.2.time := by
  obtain ⟨-, -, hlt, -⟩ := segment_spec h.wellFormed.rising hab
  unfold Timestamp.place at hlt
  rw [le_iff_micros]
  omega

lemma Constant.segmentTimes_eq_ok_iff (h : s.Constant c) {ab : Instant V × Instant V}
    (hab : ab ∈ s.segments) {periods : List Period} :
    segmentTimes .linear (.equalTo c) ab.1 ab.2 = .ok periods ↔
      ∃ stop, ab.1.time.lerp ab.2.time 1.0 = .ok stop ∧
        (Span.make? ab.1.time stop true true).toList = periods := by
  obtain ⟨ha, hb, -⟩ := segment_spec h.wellFormed.rising hab
  rw [segmentTimes_constant (h.rises hab) (h.equal _ ha) (h.equal _ hb)]
  simp only [bind_eq_ok, pure_eq_ok]

omit [LawfulValue V] in
lemma Constant.selectedPeriods_eq (h : s.Constant c) (hrest : s.rest ≠ []) :
    s.selectedPeriods (.equalTo c) = List.flatten <$>
      s.segments.mapM fun ab => segmentTimes .linear (.equalTo c) ab.1 ab.2 := by
  have hdiscrete : s.isDiscrete = false := isDiscrete_eq_false_iff.mpr (by rw [h.linear]; simp)
  have hmany : s.isInstantaneous = false := List.isEmpty_eq_false_iff.mpr hrest
  have hstep : (s.interp == .step) = false := by rw [h.linear]; rfl
  unfold selectedPeriods
  rw [hdiscrete, hmany, Bool.or_false, if_neg Bool.false_ne_true, hstep, h.linear,
    map_eq_pure_bind]
  simp only [Bool.false_eq_true, if_false, List.append_nil]

/-- The selected periods are told if all segments lead somewhere. -/
lemma Constant.exists_selectedPeriods (h : s.Constant c) (hrest : s.rest ≠ [])
    (hlead : ∀ ab ∈ s.segments, ∃ stop, ab.1.time.lerp ab.2.time 1.0 = .ok stop) :
    ∃ periods, s.selectedPeriods (.equalTo c) = .ok periods := by
  rw [h.selectedPeriods_eq hrest]
  have htold : ∀ ab ∈ s.segments, ∃ periods,
      segmentTimes .linear (.equalTo c) ab.1 ab.2 = .ok periods := by
    intro ab hab
    obtain ⟨stop, hstop⟩ := hlead ab hab
    exact ⟨_, (h.segmentTimes_eq_ok_iff hab).mpr ⟨stop, hstop, rfl⟩⟩
  obtain ⟨along, halong⟩ := exists_forall₂_iff.mpr htold
  exact ⟨_, map_eq_ok.mpr ⟨along, mapM_eq_ok.mpr halong, rfl⟩⟩

lemma Constant.anyCovers_iff (h : s.Constant c) (hrest : s.rest ≠ []) {periods : List Period}
    (htold : s.selectedPeriods (.equalTo c) = .ok periods) (n : ℤ) :
    Span.AnyCovers periods n ↔ ∃ ab ∈ s.segments, ∃ stop,
      ab.1.time.lerp ab.2.time 1.0 = .ok stop ∧ ab.1.time.place ≤ n ∧ n ≤ stop.place := by
  rw [h.selectedPeriods_eq hrest, map_eq_ok] at htold
  obtain ⟨along, halong, rfl⟩ := htold
  constructor
  · rintro ⟨p, hp, hn⟩
    obtain ⟨found, hfound, hp⟩ := List.mem_flatten.mp hp
    obtain ⟨ab, hab, htimes⟩ := mem_of_mapM_eq_ok halong hfound
    obtain ⟨stop, hstop, rfl⟩ := (h.segmentTimes_eq_ok_iff hab).mp htimes
    exact ⟨ab, hab, stop, hstop, (anyCovers_make? _ _ n).mp ⟨p, hp, hn⟩⟩
  · rintro ⟨ab, hab, stop, hstop, hn⟩
    obtain ⟨found, hfound, htimes⟩ := mem_mapM_of_mem halong hab
    obtain ⟨stop', hstop', rfl⟩ := (h.segmentTimes_eq_ok_iff hab).mp htimes
    obtain rfl := Except.ok.inj (hstop.symm.trans hstop')
    obtain ⟨p, hp, hn⟩ := (anyCovers_make? _ _ n).mpr hn
    exact ⟨p, List.mem_flatten.mpr ⟨_, hfound, hp⟩, hn⟩

/-- A segment that is reached just before its end is reached there. No other segment makes up for
it: a way that is rounded down is long, and the others end at most `2 ^ 10` microseconds late. -/
lemma Constant.reaches_of_covered (h : s.Constant c) {ab xy : Instant V × Instant V}
    (hab : ab ∈ s.segments) (hxy : xy ∈ s.segments)
    {stop : Timestamp} (hstop : xy.1.time.lerp xy.2.time 1.0 = .ok stop)
    (hstart : xy.1.time.place ≤ ab.2.time.place - 1)
    (hend : ab.2.time.place - 1 ≤ stop.place) : Reaches ab := by
  obtain ⟨ha, hb, hltab, hgapab⟩ := segment_spec h.wellFormed.rising hab
  obtain ⟨hx, hy, hltxy, hgapxy⟩ := segment_spec h.wellFormed.rising hxy
  have hyb := hgapxy _ hb
  have hay := hgapab _ hy
  have hax := hgapab _ hx
  have hxa := hgapxy _ ha
  have hfits : Fits (xy.2.time.micros - xy.1.time.micros) := by
    by_contra hfar
    rw [lerp_of_not_fits hfar] at hstop
    cases hstop
  have hlate := (micros_lerp_le (h.rises hxy) hfits.2 fraction_one hstop).2
  unfold Timestamp.place at *
  rcases hay with hbefore | hby
  · refine le_lerp_one_of_gap_le (h.rises hab) (by omega) ?_
    unfold gap
    omega
  · have hsame : xy.1.time = ab.1.time ∧ xy.2.time = ab.2.time := by
      rw [eq_iff_micros, eq_iff_micros]
      omega
    rw [hsame.1, hsame.2] at hstop
    refine ⟨stop, hstop, ?_⟩
    rw [le_iff_micros]
    omega

lemma Constant.someCovers_of_instantaneous (h : s.Constant c) (hrest : s.rest = []) {n : ℤ}
    (hn : s.Covers n) : SpanSet.SomeCovers (s.selectedTimes (.equalTo c)) n := by
  have hperiod := h.wellFormed.mem_period hn
  obtain ⟨hlo, hhi⟩ := h.wellFormed.ends_of_rest_eq_nil hrest
  have hplace : s.first.time.place = n := by omega
  have hone : s.isInstantaneous = true := List.isEmpty_iff.mpr hrest
  have htold : s.selectedPeriods (.equalTo c) = .ok (selectedPoints (.equalTo c) s.instants) := by
    unfold selectedPeriods
    rw [hone, Bool.or_true, if_pos rfl]
  refine ((selectedTimes_of_periods h.wellFormed.period_valid htold).2 n).mpr ⟨?_, hperiod⟩
  rw [anyCovers_selectedPoints]
  exact ⟨s.first, List.mem_cons_self, h.equal _ List.mem_cons_self, hplace⟩

/-- A sequence that does not change is selected everywhere when all its segments are reached. -/
lemma Constant.someCovers_iff (h : s.Constant c) :
    (∀ n, s.Covers n → SpanSet.SomeCovers (s.selectedTimes (.equalTo c)) n) ↔
      ∀ ab ∈ s.segments, Reaches ab := by
  rcases eq_or_ne s.rest [] with hrest | hrest
  · refine iff_of_true (fun n hn => h.someCovers_of_instantaneous hrest hn) ?_
    unfold segments
    rw [hrest, List.zip_nil_right]
    exact List.forall_mem_nil _
  have hdiscrete : s.isDiscrete = false := isDiscrete_eq_false_iff.mpr (by rw [h.linear]; simp)
  have hrising := h.wellFormed.rising
  constructor
  · intro hcovers ab hab
    obtain ⟨ha, hb, hlt, -⟩ := segment_spec hrising hab
    have hfirst := first_le hrising ha
    have hlast := place_le_last hrising _ hb
    have hmod := ab.1.time.place_emod
    have hmod' := ab.2.time.place_emod
    have hinside : s.Covers (ab.2.time.place - 1) := by
      rw [covers_of_continuous hdiscrete, lo_eq, hi_eq]
      change _ ∧ _ ≤ (s.rest.getLastD s.first).time.place - _
      split_ifs <;> omega
    obtain ⟨times, htimes, -⟩ := hcovers _ hinside
    obtain ⟨periods, htold, -⟩ := timesWhere_eq_ok_iff.mp (foundIn_eq_some.mp htimes)
    obtain ⟨hany, -⟩ := ((selectedTimes_of_periods h.wellFormed.period_valid htold).2 _).mp
      (hcovers _ hinside)
    obtain ⟨xy, hxy, stop, hstop, hstart, hend⟩ := (h.anyCovers_iff hrest htold _).mp hany
    exact h.reaches_of_covered hab hxy hstop hstart hend
  · intro hreaches n hn
    have hperiod := h.wellFormed.mem_period hn
    obtain ⟨periods, htold⟩ := h.exists_selectedPeriods hrest fun ab hab =>
      (hreaches ab hab).imp fun _ hstop => hstop.1
    refine ((selectedTimes_of_periods h.wellFormed.period_valid htold).2 n).mpr
      ⟨(h.anyCovers_iff hrest htold n).mpr ?_, hperiod⟩
    have hbounds := hperiod
    rw [lo_eq, hi_eq] at hbounds
    obtain ⟨ab, hab, hstart, hend⟩ := exists_segment hrest (a := s.first) (n := n)
      (by split_ifs at hbounds <;> omega)
      (by change n ≤ s.last.time.place; split_ifs at hbounds <;> omega)
    obtain ⟨stop, hstop, hreached⟩ := hreaches ab hab
    refine ⟨ab, hab, stop, hstop, hstart, hend.trans ?_⟩
    rw [le_iff_micros] at hreached
    unfold Timestamp.place
    omega

/-- Where all segments are reached the times are told, and nothing is left. -/
lemma Constant.told_of_reaches (h : s.Constant c) (hreaches : ∀ ab ∈ s.segments, Reaches ab) :
    Completes (s.timesWhere (.equalTo c)) ∧ s.minusFilter (.equalTo c) = .ok [] := by
  have hcovers := h.someCovers_iff.mpr hreaches
  obtain ⟨times, htimes, -⟩ := hcovers s.lo h.wellFormed.covers_lo
  have htold : Completes (s.timesWhere (.equalTo c)) := .of_eq_ok (foundIn_eq_some.mp htimes)
  refine ⟨htold, ?_⟩
  have hdiscrete : s.isDiscrete = false := isDiscrete_eq_false_iff.mpr (by rw [h.linear]; simp)
  have hvalid := h.wellFormed.period_valid
  have hwhole := SpanSet.wellFormed_ofSpan hvalid
  have hwf := wellFormed_selectedTimes hvalid htimes
  have hnone : s.otherTimes (.equalTo c) = none := by
    unfold otherTimes
    rw [htimes]
    refine Option.eq_none_iff_forall_ne_some.mpr fun left hother => ?_
    obtain ⟨n, hn⟩ := (hwhole.minus hwf hother).exists_covers
    have hsome : SpanSet.SomeCovers ((SpanSet.ofSpan s.period).minus times) n := ⟨left, hother, hn⟩
    obtain ⟨hin, hout⟩ := (hwhole.someCovers_minus hwf n).mp hsome
    rw [SpanSet.covers_ofSpan] at hin
    have hselected := hcovers n ((covers_of_continuous hdiscrete n).mpr hin)
    rw [htimes, SpanSet.someCovers_some] at hselected
    exact hout hselected
  rw [minusFilter_eq htold, hnone]

end Sequence

namespace Temporal

open Sequence

variable {V : Type} [TemporalValue V]

/-- A linear value that does not change. It goes together with `c`, to which it is equal. -/
structure Constant (c : V) (v : Temporal V) : Prop where
  wellFormed : v.WellFormed
  checked : v.checkValues [c] = .ok ()
  sequences : ∀ s ∈ v.sequences, s.Constant c

variable [LawfulValue V] {c : V} {v : Temporal V}

lemma Constant.proper (h : v.Constant c) : v.Proper := by
  intro i hi
  obtain ⟨s, hs, his⟩ := mem_instants_iff.mp hi
  have hequal := (h.sequences s hs).equal i his
  exact LawfulValue.beq_trans hequal (LawfulValue.beq_symm hequal)

lemma Constant.selects_iff (h : v.Constant c) : (∀ n, v.Covers n → v.Selects (.equalTo c) n) ↔
    ∀ s ∈ v.sequences, ∀ ab ∈ s.segments, Reaches ab := by
  constructor
  · intro hselects s hs
    refine (h.sequences s hs).someCovers_iff.mp fun n hn => ?_
    exact (h.wellFormed.selects_iff hs hn).mp (hselects n ⟨s, hs, hn⟩)
  · rintro hreaches n ⟨s, hs, hn⟩
    have hcovers := (h.sequences s hs).someCovers_iff.mpr (hreaches s hs)
    exact (h.wellFormed.selects_iff hs hn).mpr (hcovers n hn)

/-- Nothing is left without the value of a value that does not change exactly when all segments are
reached. -/
lemma Constant.minusValue_iff (h : v.Constant c) :
    v.minusValue c = .ok none ↔ ∀ s ∈ v.sequences, ∀ ab ∈ s.segments, Reaches ab := by
  rw [(atValue_of_checked h.checked).2, reported_eq_ok]
  constructor
  · intro hnone
    obtain ⟨rest, hrest, hout⟩ :=
      minusFilter_spec h.wellFormed h.proper (.equalTo c) (.of_eq_ok hnone)
    obtain rfl := Except.ok.inj (hnone.symm.trans hrest)
    refine h.selects_iff.mp fun n hn => ?_
    by_contra hleft
    exact (hout.covers_iff n).mpr ⟨hn, hleft⟩ |>.elim fun r hr => by cases hr.1
  · intro hreaches
    have hnil : ∀ s ∈ v.sequences, s.minusFilter (.equalTo c) = .ok [] := fun s hs =>
      ((h.sequences s hs).told_of_reaches (hreaches s hs)).2
    have hlinear := fun s hs => (h.sequences s hs).linear
    have hall : (do ofPieces (← v.sequences.mapM fun s => s.minusFilter (.equalTo c)).flatten) =
        (.ok none : Result (Option (Temporal V))) := by
      rw [bind_of_ok (mapM_eq_map hnil), List.map_const', List.flatten_replicate_nil]
      rfl
    cases v with
    | instant i => cases hlinear _ (List.mem_singleton.mpr rfl)
    | sequence s => exact hall
    | sequenceSet s => exact hall

/-- Where nothing is left the part that has the value has the whole time, unless it is given up. -/
lemma Constant.atValue_spec (h : v.Constant c) (hnone : v.minusValue c = .ok none) :
    (v.atValue c = .error .aborted ∧ ¬v.Short) ∨
      ∃ r, v.atValue c = .ok (some r) ∧ r.time = v.time := by
  have hreaches := h.minusValue_iff.mp hnone
  have hsnaps := ValueFilter.snaps_equalTo (checkValues_eq_ok_iff.mp h.checked c (by simp))
  rw [(atValue_of_checked h.checked).2, reported_eq_ok] at hnone
  rw [(atValue_of_checked h.checked).1]
  by_cases hdone : v.atFilter (.equalTo c) = .error .aborted
  · refine .inl ⟨reported_eq_aborted.mpr hdone, fun hshort => ?_⟩
    refine (completes_filter_of_told h.wellFormed h.proper hsnaps hshort fun s hs => ?_).1 hdone
    exact ((h.sequences s hs).told_of_reaches (hreaches s hs)).1
  · obtain ⟨selected, hselected, hin⟩ := atFilter_spec h.wellFormed h.proper hsnaps hdone
    obtain ⟨rest, hrest, hout⟩ :=
      minusFilter_spec h.wellFormed h.proper (.equalTo c) (.of_eq_ok hnone)
    obtain rfl := Except.ok.inj (hnone.symm.trans hrest)
    have hparts := h.wellFormed.parts_time hin hout
    cases selected with
    | none => exact hparts.elim
    | some r => exact .inr ⟨r, reported_eq_ok.mpr hselected, hparts⟩

/-- Between two timestamps the way to the end is exact where it has 53 bits, zeros behind the last of
them not counted. No timestamp lies behind the end where the way is not rounded up. The timestamps
rise with the fraction, and all of them are told where the rounded way does not lead out of time.
Nothing is left without the value of a value that does not change, exactly when all its segments lead
to their end; then all of a short one has the value. -/
theorem interpolated_times_spec {a b : Timestamp} (hle : a ≤ b)
    (hgap : b.micros - a.micros < 2 ^ 63) :
    (a.lerp b 0.0 = .ok a ∧ (a.lerp b 1.0 = .ok b ↔ Carries (a.gap b)) ∧
      ((∀ r, OnWay r → ∃ t, a.lerp b r = .ok t ∧ a ≤ t ∧ t ≤ b) ↔
        carried (a.gap b) ≤ a.gap b) ∧
      (∀ r s t u, OnWay r → OnWay s → r ≤ s → a.lerp b r = .ok t → a.lerp b s = .ok u → t ≤ u) ∧
      (∀ r, OnWay r → (a.lerp b r = .error .aborted ∧ 2 ^ 63 ≤ a.micros + carried (a.gap b)) ∨
        ∃ t, a.lerp b r = .ok t ∧ a ≤ t) ∧
      ((∀ r, OnWay r → ∃ t, a.lerp b r = .ok t) ↔ a.micros + carried (a.gap b) < 2 ^ 63) ∧
      ((∃ t, a.lerp b 1.0 = .ok t ∧ b ≤ t) ↔
        a.gap b ≤ carried (a.gap b) ∧ a.micros + carried (a.gap b) < 2 ^ 63) ∧
      (a.gap b ≤ 2 ^ 53 → carried (a.gap b) = a.gap b)) ∧
    ∀ (V : Type) [TemporalValue V] [LawfulValue V] (c : V) (v : Temporal V), v.Constant c →
      (v.minusValue c = .ok none ↔ ∀ s ∈ v.sequences, ∀ ab ∈ s.segments, Reaches ab) ∧
        (v.minusValue c = .ok none → (v.atValue c = .error .aborted ∧ ¬v.Short) ∨
          ∃ r, v.atValue c = .ok (some r) ∧ r.time = v.time) := by
  refine ⟨⟨lerp_zero hle hgap, lerp_one_eq_iff hle hgap, lerp_between_iff hle hgap,
    fun r s t u hr hs hrs => lerp_mono hle hgap hr hs hrs, fun r hr => ?_,
    exists_lerp_iff hle hgap, le_lerp_one_iff hle hgap, fun h => ?_⟩,
    fun V _ _ c v h => ⟨h.minusValue_iff, h.atValue_spec⟩⟩
  · by_cases hlost : a.lerp b r = .error .aborted
    · have hbound := (part_bounds (gap_lt hle hgap) hr).2
      have hbeyond := (lerp_eq_aborted_iff hle hgap hr.fraction).mp hlost
      exact .inl ⟨hlost, by omega⟩
    · obtain ⟨t, ht⟩ := (unrefused_lerp a b r).exists_ok hlost
      exact .inr ⟨t, ht, le_iff_micros.mpr (micros_lerp_le hle hgap hr.fraction ht).1⟩
  · exact (carried_eq_iff (gap_lt hle hgap)).mpr (carries_of_le h)

def plateau (length : Int) : Temporal Float :=
  sequence (.ofRun ⟨1.0, .nearest 0⟩ [⟨1.0, .nearest length⟩] true true .linear)

lemma plateau_constant {length : Int} (hwf : (plateau length).WellFormed) :
    (plateau length).Constant 1.0 := by
  have hself : ((1.0 : Float) == 1.0) = true := by decide +kernel
  refine ⟨hwf, rfl, fun s hs => ?_⟩
  obtain rfl := List.mem_singleton.mp hs
  exact ⟨hwf, rfl, List.forall_mem_cons.mpr ⟨hself, List.forall_mem_singleton.mpr hself⟩⟩

theorem plateau_covered :
    OnWay 0.5 ∧ (Timestamp.nearest 0).lerp (.nearest 10) 1.0 = .ok (.nearest 10) ∧
      (∃ t, (Timestamp.nearest 0).lerp (.nearest 10) 0.5 = .ok t ∧ t ≤ .nearest 10) ∧
      (plateau 10).Constant 1.0 ∧ (plateau 10).minusValue 1.0 = .ok none ∧
      ∃ r, (plateau 10).atValue 1.0 = .ok (some r) ∧ r.time = (plateau 10).time := by
  have hle : Timestamp.nearest 0 ≤ .nearest 10 := by decide
  have hgap : (Timestamp.nearest 10).micros - (Timestamp.nearest 0).micros < 2 ^ 63 := by decide
  obtain ⟨⟨-, hend, hbetween, -⟩, hvalues⟩ := interpolated_times_spec hle hgap
  have hhalf : OnWay 0.5 := ⟨by decide +kernel, by decide +kernel⟩
  have hconstant : (plateau 10).Constant 1.0 := plateau_constant rfl
  obtain ⟨hiff, hcovered⟩ := hvalues Float 1.0 (plateau 10) hconstant
  have hnone : (plateau 10).minusValue 1.0 = .ok none := by
    refine hiff.mpr fun s hs => ?_
    obtain rfl := List.mem_singleton.mp hs
    exact List.forall_mem_singleton.mpr ⟨_, hend.mpr (by decide), le_iff_micros.mpr le_rfl⟩
  have hshort : (plateau 10).Short := fun _ => by decide
  obtain ⟨t, ht, -, htb⟩ := hbetween.mpr (by decide) 0.5 hhalf
  exact ⟨hhalf, hend.mpr (by decide), ⟨t, ht, htb⟩, hconstant, hnone,
    (hcovered hnone).resolve_left fun hgiven => hgiven.2 hshort⟩

/-- Ways of `2 ^ 53 + 1` and of `2 ^ 53 + 3` microseconds, which are rounded down and up. The end of
the first is missed, and the part at the end of the value one is left over. The second leads past its
end. -/
theorem ends_of_long_ways_missed :
    (Timestamp.nearest 0).lerp (.nearest 9007199254740993) 1.0 =
        .ok (.nearest 9007199254740992) ∧
      (Timestamp.nearest 0).lerp (.nearest 9007199254740995) 1.0 =
        .ok (.nearest 9007199254740996) ∧
      (plateau 9007199254740993).Constant 1.0 ∧
      (plateau 9007199254740993).minusValue 1.0 ≠ .ok none := by
  have hconstant : (plateau 9007199254740993).Constant 1.0 := plateau_constant rfl
  have hmissed : (Timestamp.nearest 0).lerp (.nearest 9007199254740993) 1.0 =
      .ok (.nearest 9007199254740992) := by decide +kernel
  refine ⟨hmissed, by decide +kernel, hconstant, fun hnone => ?_⟩
  have hreaches := hconstant.minusValue_iff.mp hnone _ (List.mem_singleton.mpr rfl)
  obtain ⟨t, ht, hend⟩ := hreaches _ (List.mem_singleton.mpr rfl)
  obtain rfl := Except.ok.inj (hmissed.symm.trans ht)
  exact absurd hend (by decide +kernel)

end Temporal

end TemporalAlgebra
