import TemporalAlgebra.Proofs.Temporal.TimeRestriction
import TemporalAlgebra.Proofs.Time.Interpolating
import TemporalAlgebra.Temporal.Logic

/-!
# Restriction to values

A filter selects a part of a value by the times at which it holds. Without interpolation these are
the places where the value held is one that the filter selects; with it they are whatever the
crossings of the segments yield. The part within these times and the part outside of them make up
the whole either way, and the exact forms of the selected values do not break what is asked of a
sequence.
-/
namespace TemporalAlgebra

namespace SpanSet

variable {α : Type} [SpanDomain α]

/-- Two parts, either of which may be missing, share nothing and together are the whole. -/
def Parts (whole : SpanSet α) : Option (SpanSet α) → Option (SpanSet α) → Prop
  | some a, some b => a.intersection b = none ∧ a.union b = whole
  | some a, none => a = whole
  | none, some b => b = whole
  | none, none => False

variable [LawfulDomain α]

/-- The union of two sets covers what either one covers. -/
lemma WellFormed.union_spec {a b : SpanSet α} (ha : a.WellFormed) (hb : b.WellFormed) :
    (a.union b).WellFormed ∧ ∀ n, (a.union b).Covers n ↔ a.Covers n ∨ b.Covers n := by
  have hvalid : ∀ s ∈ a.first :: (a.rest ++ b.spans), s.Valid := by
    intro s hs
    rw [← List.cons_append] at hs
    exact (List.mem_append.mp hs).elim (ha.normal.valid s) (hb.normal.valid s)
  have hsome := ofSpans?_ofSpans a.first (a.rest ++ b.spans)
  refine ⟨wellFormed_of_mem_ofSpans? hvalid hsome, fun n => ?_⟩
  change (ofSpans _ _).Covers n ↔ _
  rw [← someCovers_some, ← hsome, someCovers_ofSpans? hvalid, ← List.cons_append,
    Span.anyCovers_append]
  rfl

/-- The places of a whole that lie inside and those that do not are its parts. -/
lemma WellFormed.parts_of_covers {whole : SpanSet α} (hw : whole.WellFormed)
    {a b : Option (SpanSet α)} (ha : ∀ s ∈ a, s.WellFormed) (hb : ∀ s ∈ b, s.WellFormed)
    {inside : Int → Prop} (hain : ∀ n, SomeCovers a n ↔ whole.Covers n ∧ inside n)
    (hbout : ∀ n, SomeCovers b n ↔ whole.Covers n ∧ ¬inside n) : whole.Parts a b := by
  have hall : ∀ n, SomeCovers a n ∨ SomeCovers b n ↔ whole.Covers n := by
    intro n
    rw [hain, hbout]
    tauto
  cases a with
  | none =>
    cases b with
    | none =>
      obtain ⟨n, hn⟩ := hw.exists_covers
      simpa using (hall n).mpr hn
    | some t =>
      refine (hb t rfl).eq_of_covers hw fun n => ?_
      simpa using hall n
  | some s =>
    cases b with
    | none =>
      refine (ha s rfl).eq_of_covers hw fun n => ?_
      simpa using hall n
    | some t =>
      obtain ⟨hwf, hcov⟩ := (ha s rfl).union_spec (hb t rfl)
      constructor
      · refine eq_of_someCovers (fun c hc => (ha s rfl).intersection (hb t rfl) hc) (by simp)
          fun n => ?_
        rw [(ha s rfl).someCovers_intersection (hb t rfl)]
        have h1 := hain n
        have h2 := hbout n
        rw [someCovers_some] at h1 h2
        rw [h1, h2]
        simp only [someCovers_none, iff_false]
        tauto
      · refine hwf.eq_of_covers hw fun n => ?_
        rw [hcov]
        simpa using hall n

end SpanSet

/-- What is asked of the exact forms of selected values next to a value. -/
structure ValueFilter.Snaps {V : Type} [TemporalValue V] (c : V) (filter : ValueFilter V) :
    Prop where
  compatible : ∀ {y}, TemporalValue.compatible c y = .ok () →
    TemporalValue.compatible c (filter.snap y) = .ok ()
  congr : ∀ {w y z}, filter.holds w = true → TemporalValue.compatible c y = .ok () →
    (y == z) = true → (filter.snap y == filter.snap z) = true
  snap_eq : StepValue V → ∀ {y}, filter.holds y = true → filter.snap y = y

namespace ValueFilter

variable {V : Type} [TemporalValue V] [LawfulValue V] {c : V}

lemma snaps_equalTo {x : V} (hx : TemporalValue.compatible c x = .ok ()) :
    (equalTo x).Snaps c :=
  ⟨fun _ => hx, fun hw _ _ => beq_self_right hw, fun _ _ hy => (eq_of_beq hy).symm⟩

/-- A value is brought to the first of some values that it is near to. -/
lemma snaps_oneOf {xs : List V} (hxs : ∀ x ∈ xs, TemporalValue.compatible c x = .ok ()) :
    (oneOf xs).Snaps c := by
  have hsnap : ∀ y, (oneOf xs).snap y =
      (xs.find? fun x => TemporalValue.collinear x y x 0.5).getD y := fun _ => rfl
  refine ⟨fun {y} hy => ?_, fun {w y z} _ hy hyz => ?_, fun hl y _ => ?_⟩
  · rw [hsnap]
    cases hfind : xs.find? fun x => TemporalValue.collinear x y x 0.5 with
    | none => exact hy
    | some x => exact hxs x (List.mem_of_find?_eq_some hfind)
  · have hsame : (xs.find? fun x => TemporalValue.collinear x y x 0.5) =
        xs.find? fun x => TemporalValue.collinear x z x 0.5 := by
      congr 1
      funext x
      exact LawfulValue.collinear_congr hyz
    rw [hsnap, hsnap, ← hsame]
    cases hfind : xs.find? fun x => TemporalValue.collinear x y x 0.5 with
    | none => exact hyz
    | some x =>
      have hx := hxs x (List.mem_of_find?_eq_some hfind)
      have hline := List.find?_some hfind
      exact LawfulValue.beq_self_of_collinear
        (LawfulValue.compatible_trans (LawfulValue.compatible_symm hx) hy) hline
  · rw [hsnap]
    cases hfind : xs.find? fun x => TemporalValue.collinear x y x 0.5 with
    | none => rfl
    | some x =>
      have hx := List.find?_some hfind
      rw [StepValue.collinear_eq, Bool.and_eq_true] at hx
      exact eq_of_beq hx.1

/-- Along a segment a filter tells where it selects by fractions of the way. -/
def OnSegments (filter : ValueFilter V) : Prop := TemporalValue.continuous V = true →
  ∀ start stop, ∀ r ∈ filter.along start stop,
    Binary64.Fraction r.lower ∧ Binary64.Fraction r.upper

lemma fraction_of_alongValue {x start stop : V} (hc : TemporalValue.continuous V = true) :
    ∀ r ∈ alongValue x start stop, Binary64.Fraction r.lower ∧ Binary64.Fraction r.upper := by
  intro r hr
  unfold alongValue at hr
  split at hr
  · split at hr
    · obtain rfl := List.mem_singleton.mp hr
      exact ⟨Binary64.fraction_zero, Binary64.fraction_one⟩
    · cases hr
  · obtain ⟨found, hfound, rfl⟩ := Option.map_eq_some_iff.mp (Option.mem_toList.mp hr)
    exact ⟨LawfulValue.locate_fraction hc hfound, LawfulValue.locate_fraction hc hfound⟩

omit [LawfulValue V] in
lemma onSegments_of_step [StepValue V] (filter : ValueFilter V) : filter.OnSegments := by
  intro hc
  rw [StepValue.continuous_eq_false] at hc
  exact absurd hc Bool.false_ne_true

lemma onSegments_equalTo (x : V) : (equalTo x).OnSegments := fun hc _ _ => fraction_of_alongValue hc

lemma onSegments_oneOf (xs : List V) : (oneOf xs).OnSegments := by
  intro hc start stop r hr
  obtain ⟨x, -, hr⟩ := List.mem_flatMap.mp hr
  exact fraction_of_alongValue hc r hr

lemma fraction_of_clip {r found : RatioRange} (h : r.clip? = some found) :
    Binary64.Fraction found.lower ∧ Binary64.Fraction found.upper := by
  unfold RatioRange.clip? at h
  dsimp only at h
  have hlower : ¬(if r.lower < 0.0 then { r with lower := 0.0, lowerInc := true } else r).lower <
      (0.0 : Float) := by
    split
    · exact Binary64.fraction_zero.not_neg
    · assumption
  generalize (if r.lower < 0.0 then { r with lower := 0.0, lowerInc := true } else r) = raised
    at h hlower
  have hupper : ¬(1.0 : Float) <
      (if 1.0 < raised.upper then { raised with upper := 1.0, upperInc := true }
        else raised).upper := by
    split
    · exact Binary64.fraction_one.not_above
    · assumption
  have hkeep : (if 1.0 < raised.upper then { raised with upper := 1.0, upperInc := true }
      else raised).lower = raised.lower := by
    split <;> rfl
  generalize (if 1.0 < raised.upper then { raised with upper := 1.0, upperInc := true }
    else raised) = clipped at h hupper hkeep
  rw [← hkeep] at hlower
  split at h
  · rename_i hends
    obtain rfl := Option.some.inj h
    have hle : clipped.lower ≤ clipped.upper := by
      rw [Bool.or_eq_true, decide_eq_true_eq, Bool.and_eq_true, Bool.and_eq_true] at hends
      exact Binary64.le_of_lt_or_beq (hends.imp_right fun hsame => hsame.1.1)
    exact ⟨⟨hlower, fun habove => hupper (Binary64.lt_of_lt_of_le habove hle)⟩,
      fun hneg => hlower (Binary64.lt_of_le_of_lt hle hneg), hupper⟩
  · cases h

lemma onSegments_inSpans {V : Type} [NumericValue V] (s : SpanSet Float) :
    (inSpans s : ValueFilter V).OnSegments := by
  intro _ start stop r hr
  obtain ⟨span, -, hspan⟩ := List.mem_filterMap.mp hr
  unfold alongSpan at hspan
  split at hspan
  · split at hspan
    · obtain rfl := Option.some.inj hspan
      exact ⟨Binary64.fraction_zero, Binary64.fraction_one⟩
    · cases hspan
  · exact fraction_of_clip hspan

omit [LawfulValue V] in
lemma snaps_of_id {filter : ValueFilter V} (h : filter.snap = id) : filter.Snaps c := by
  refine ⟨fun hy => ?_, fun _ _ hyz => ?_, fun _ _ _ => ?_⟩
  · rw [h]
    exact hy
  · rw [h]
    exact hyz
  · rw [h]
    rfl

end ValueFilter

namespace Sequence

variable {V : Type} [TemporalValue V]

/-- A period for each of the instants that a filter selects. -/
def selectedPoints (filter : ValueFilter V) (instants : List (Instant V)) : List Period :=
  (instants.filter fun i => filter.holds i.value).map fun i => Period.singleton i.time

/-- The periods in which a filter selects the value, without regard to the bounds. -/
def selectedPeriods (s : Sequence V) (filter : ValueFilter V) : Result (List Period) :=
  if s.isDiscrete || s.isInstantaneous then .ok (selectedPoints filter s.instants)
  else do
    let along ← s.segments.mapM fun ab => segmentTimes s.interp filter ab.1 ab.2
    return along.flatten ++ if s.interp == .step then selectedPoints filter [s.last] else []

/-- The times at which a filter selects the value, if they are told and there are any. -/
def selectedTimes (s : Sequence V) (filter : ValueFilter V) : Option PeriodSet :=
  foundIn (s.timesWhere filter)

lemma timesWhere_eq (s : Sequence V) (filter : ValueFilter V) : s.timesWhere filter = do
    return (SpanSet.ofSpans? (← s.selectedPeriods filter)).bind
      fun times => times.intersectionSpan s.period := by
  unfold timesWhere selectedPeriods
  split
  · rfl
  · simp only [bind_assoc, pure_bind]
    rfl

lemma timesWhere_eq_ok_iff {s : Sequence V} {filter : ValueFilter V} {found : Option PeriodSet} :
    s.timesWhere filter = .ok found ↔ ∃ periods, s.selectedPeriods filter = .ok periods ∧
      ((SpanSet.ofSpans? periods).bind fun times => times.intersectionSpan s.period) = found := by
  rw [timesWhere_eq]
  simp only [bind_eq_ok, pure_eq_ok]

lemma unrefused_timesWhere (s : Sequence V) (filter : ValueFilter V) :
    Unrefused (s.timesWhere filter) := by
  have hsegment : ∀ a b : Instant V, Unrefused (segmentTimes s.interp filter a b) := by
    intro a b
    cases s.interp with
    | linear =>
      exact (Unrefused.mapM fun r _ => (Timestamp.unrefused_lerp _ _ _).bind fun _ _ =>
        (Timestamp.unrefused_lerp _ _ _).bind fun _ _ => Unrefused.ok _).bind
          fun _ _ => Unrefused.ok _
    | discrete => exact Unrefused.ok _
    | step => exact Unrefused.ok _
  rw [timesWhere_eq]
  refine Unrefused.bind ?_ fun _ _ => Unrefused.ok _
  unfold selectedPeriods
  split
  · exact Unrefused.ok _
  · exact (Unrefused.mapM fun ab _ => hsegment ab.1 ab.2).bind fun _ _ => Unrefused.ok _

lemma timesWhere_of_completes {s : Sequence V} {filter : ValueFilter V}
    (hdone : Completes (s.timesWhere filter)) :
    s.timesWhere filter = .ok (s.selectedTimes filter) := by
  obtain ⟨found, hfound⟩ := (unrefused_timesWhere s filter).exists_ok hdone
  unfold selectedTimes
  rw [hfound]
  rfl

omit [TemporalValue V] in
lemma mem_selectedPoints {filter : ValueFilter V} {instants : List (Instant V)} {p : Period} :
    p ∈ selectedPoints filter instants ↔
      ∃ i ∈ instants, filter.holds i.value = true ∧ Period.singleton i.time = p := by
  unfold selectedPoints
  simp only [List.mem_map, List.mem_filter, and_assoc]

omit [TemporalValue V] in
lemma anyCovers_selectedPoints {filter : ValueFilter V} {instants : List (Instant V)} {n : Int} :
    Span.AnyCovers (selectedPoints filter instants) n ↔
      ∃ i ∈ instants, filter.holds i.value = true ∧ i.time.place = n := by
  unfold Span.AnyCovers
  constructor
  · rintro ⟨p, hp, hn⟩
    obtain ⟨i, hi, hv, rfl⟩ := mem_selectedPoints.mp hp
    exact ⟨i, hi, hv, ((Period.covers_singleton i.time n).mp hn).symm⟩
  · rintro ⟨i, hi, hv, rfl⟩
    exact ⟨_, mem_selectedPoints.mpr ⟨i, hi, hv, rfl⟩, (Period.covers_singleton _ _).mpr rfl⟩

/-- The time of a step, if a filter selects it. -/
def stepTimes (filter : ValueFilter V) (a b : Instant V) : List Period :=
  if filter.holds a.value then (Span.make? a.time b.time true false).toList else []

omit [TemporalValue V] in
lemma returns_valid_segmentTimes (interp : Interpolation) (filter : ValueFilter V)
    (a b : Instant V) : Returns (∀ p ∈ ·, p.Valid) (segmentTimes interp filter a b) := by
  have hsteps : ∀ p ∈ stepTimes filter a b, p.Valid := by
    intro p hp
    unfold stepTimes at hp
    split at hp
    · exact (Period.make?_eq_some_iff.mp (Option.mem_toList.mp hp)).2
    · simp at hp
  cases interp with
  | linear =>
    have hmake : Returns (∀ found ∈ ·, ∀ p ∈ found, p.Valid)
        ((filter.along a.value b.value).mapM fun r => do
          let lower ← a.time.lerp b.time r.lower
          let upper ← a.time.lerp b.time r.upper
          return (Span.make? lower upper r.lowerInc r.upperInc : Option Period)) :=
      Returns.mapM fun r _ => Returns.after fun _ => Returns.after fun _ =>
        Returns.ok fun p hp => (Period.make?_eq_some_iff.mp hp).2
    refine Returns.bind hmake fun found hfound => Returns.ok fun p hp => ?_
    obtain ⟨x, hx, hxp⟩ := List.mem_filterMap.mp hp
    exact hfound x hx p hxp
  | discrete => exact Returns.ok hsteps
  | step => exact Returns.ok hsteps

lemma returns_valid_selectedPeriods (s : Sequence V) (filter : ValueFilter V) :
    Returns (∀ p ∈ ·, p.Valid) (s.selectedPeriods filter) := by
  have hpoints : ∀ instants : List (Instant V), ∀ p ∈ selectedPoints filter instants,
      p.Valid := by
    intro instants p hp
    obtain ⟨i, -, -, rfl⟩ := mem_selectedPoints.mp hp
    exact Period.singleton_valid i.time
  unfold selectedPeriods
  split
  · exact Returns.ok (hpoints _)
  · refine Returns.bind (Returns.mapM fun ab _ =>
      returns_valid_segmentTimes s.interp filter ab.1 ab.2) fun along halong =>
        Returns.ok fun p hp => ?_
    rcases List.mem_append.mp hp with hp | hp
    · obtain ⟨periods, hperiods, hp⟩ := List.mem_flatten.mp hp
      exact halong periods hperiods p hp
    · split at hp
      · exact hpoints _ p hp
      · simp at hp

omit [TemporalValue V] in
/-- A step is selected from its instant up to the next one. -/
lemma anyCovers_step {filter : ValueFilter V} {a b : Instant V}
    (hab : a.time.place < b.time.place) (n : Int) :
    Span.AnyCovers (stepTimes filter a b) n ↔
      filter.holds a.value = true ∧ a.time.place ≤ n ∧ n < b.time.place := by
  unfold stepTimes
  by_cases hv : filter.holds a.value = true
  · have hlo : (⟨a.time, b.time, true, false⟩ : Period).lo = a.time.place := by
      rw [Period.lo_eq]
      simp
    have hhi : (⟨a.time, b.time, true, false⟩ : Period).hi = b.time.place - 1 := by
      rw [Period.hi_eq]
      simp
    have hmake : Span.make? a.time b.time true false = some ⟨a.time, b.time, true, false⟩ :=
      Period.make?_eq_some_iff.mpr ⟨rfl, (Period.valid_iff _).mpr (by omega)⟩
    simp only [hv, if_true, hmake, Option.toList_some, Span.anyCovers_cons, Span.anyCovers_nil,
      or_false, true_and]
    unfold Span.Covers
    omega
  · simp [hv]

/-- Steps are selected where the value held is one that the filter selects. -/
lemma anyCovers_steps {filter : ValueFilter V} {a : Instant V} {rest : List (Instant V)}
    (h : (a :: rest).Pairwise Instant.Precedes) (n : Int) :
    Span.AnyCovers (((a :: rest).zip rest).flatMap
        (fun ab => stepTimes filter ab.1 ab.2) ++ selectedPoints filter [rest.getLastD a]) n ↔
      (a.time.place ≤ n ∧ n ≤ (rest.getLastD a).time.place) ∧
        filter.holds (heldFrom n a rest) = true := by
  induction rest generalizing a with
  | nil =>
    rw [List.zip_nil_right, List.flatMap_nil, List.nil_append, anyCovers_selectedPoints]
    simp only [List.getLastD_nil, List.mem_singleton, exists_eq_left, heldFrom]
    constructor
    · rintro ⟨hv, rfl⟩
      exact ⟨⟨le_refl _, le_refl _⟩, hv⟩
    · rintro ⟨⟨hle, hge⟩, hv⟩
      exact ⟨hv, le_antisymm hle hge⟩
  | cons b rest ih =>
    have hab : a.time.place < b.time.place := (List.rel_of_pairwise_cons h (by simp)).1
    rw [List.zip_cons_cons, List.flatMap_cons, List.append_assoc, Span.anyCovers_append,
      anyCovers_step hab, List.getLastD_cons, ih h.tail, heldFrom]
    by_cases hb : b.time.place ≤ n
    · rw [if_pos hb]
      constructor
      · rintro (hn | hn)
        · omega
        · exact ⟨⟨by omega, hn.1.2⟩, hn.2⟩
      · rintro ⟨hn, hv⟩
        exact Or.inr ⟨⟨hb, hn.2⟩, hv⟩
    · rw [if_neg hb]
      have hlast : b.time.place ≤ (rest.getLastD b).time.place :=
        place_le_last h.tail b (by simp)
      constructor
      · rintro (hn | hn)
        · exact ⟨⟨hn.2.1, by omega⟩, hn.1⟩
        · omega
      · rintro ⟨hn, hv⟩
        exact Or.inl ⟨hv, hn.1, by omega⟩

variable [LawfulValue V]

/-- Without interpolation a filter selects the places at which it holds of the value held. -/
lemma selectedPeriods_spec {s : Sequence V} (h : s.WellFormed) (hl : s.interp ≠ .linear)
    (filter : ValueFilter V) :
    ∃ periods, s.selectedPeriods filter = .ok periods ∧
      ∀ n, s.Covers n → (Span.AnyCovers periods n ↔ filter.holds (s.held n) = true) := by
  have hpoint : ∀ n, (∃ i ∈ s.instants, i.time.place = n) →
      (Span.AnyCovers (selectedPoints filter s.instants) n ↔
        filter.holds (s.held n) = true) := by
    rintro n ⟨i, hi, rfl⟩
    rw [anyCovers_selectedPoints, held_place h.rising hi]
    constructor
    · rintro ⟨j, hj, hv, heq⟩
      rwa [← eq_of_place_eq h.rising hj hi heq]
    · exact fun hv => ⟨i, hi, hv, rfl⟩
  unfold selectedPeriods
  cases hd : s.isDiscrete with
  | true => exact ⟨_, rfl, fun n hn => hpoint n ((covers_of_discrete hd n).mp hn)⟩
  | false =>
    cases hrest : s.isInstantaneous with
    | true =>
      refine ⟨_, rfl, fun n hn => hpoint n ⟨s.first, by simp [instants], ?_⟩⟩
      rw [covers_of_continuous hd] at hn
      obtain ⟨hlo, hhi⟩ := h.ends_of_rest_eq_nil (List.isEmpty_iff.mp hrest)
      omega
    | false =>
      have hstep : s.interp = .step := by
        cases hi : s.interp with
        | linear => exact absurd hi hl
        | discrete => exact absurd hi (isDiscrete_eq_false_iff.mp hd)
        | step => rfl
      have hsegments : (s.segments.mapM fun ab => segmentTimes .step filter ab.1 ab.2) =
          .ok (s.segments.map fun ab => stepTimes filter ab.1 ab.2) := mapM_eq_map fun _ _ => rfl
      rw [Bool.or_false, if_neg Bool.false_ne_true, hstep,
        if_pos (beq_self_eq_true Interpolation.step), bind_of_ok hsegments, ← List.flatMap_def]
      refine ⟨_, rfl, fun n hn => ?_⟩
      rw [covers_of_continuous hd, lo_eq, hi_eq] at hn
      unfold segments last
      refine (anyCovers_steps h.rising n).trans (and_iff_right ?_)
      change _ ∧ n ≤ s.last.time.place
      split at hn <;> split at hn <;> omega

omit [LawfulValue V] in
/-- The times are those of the selected periods, within the period of the sequence. -/
lemma selectedTimes_of_periods {s : Sequence V} (hv : s.period.Valid) {filter : ValueFilter V}
    {periods : List Period} (h : s.selectedPeriods filter = .ok periods) :
    s.timesWhere filter = .ok (s.selectedTimes filter) ∧
      ∀ n, SpanSet.SomeCovers (s.selectedTimes filter) n ↔
        Span.AnyCovers periods n ∧ s.lo ≤ n ∧ n ≤ s.hi := by
  have hvalid := returns_valid_selectedPeriods s filter periods h
  have htimes := timesWhere_eq_ok_iff.mpr ⟨periods, h, rfl⟩
  have hselected : s.selectedTimes filter =
      (SpanSet.ofSpans? periods).bind fun times => times.intersectionSpan s.period := by
    unfold selectedTimes
    rw [htimes]
    rfl
  refine ⟨hselected ▸ htimes, fun n => ?_⟩
  rw [hselected, ← SpanSet.someCovers_ofSpans? hvalid n]
  cases hfound : SpanSet.ofSpans? periods with
  | none => simp
  | some times =>
    rw [Option.bind_some, SpanSet.someCovers_some]
    exact (SpanSet.wellFormed_of_mem_ofSpans? hvalid hfound).someCovers_intersectionSpan hv n

omit [LawfulValue V] in
lemma mem_period_of_selectedTimes {s : Sequence V} (hv : s.period.Valid)
    {filter : ValueFilter V} {n : Int} (hn : SpanSet.SomeCovers (s.selectedTimes filter) n) :
    s.lo ≤ n ∧ n ≤ s.hi := by
  cases htimes : s.timesWhere filter with
  | error f =>
    unfold selectedTimes at hn
    rw [htimes] at hn
    exact absurd hn (SpanSet.someCovers_none n)
  | ok found =>
    obtain ⟨periods, hperiods, -⟩ := timesWhere_eq_ok_iff.mp htimes
    exact (((selectedTimes_of_periods hv hperiods).2 n).mp hn).2

omit [LawfulValue V] in
lemma wellFormed_selectedTimes {s : Sequence V} (hv : s.period.Valid) {filter : ValueFilter V}
    {times : PeriodSet} (h : s.selectedTimes filter = some times) : times.WellFormed := by
  obtain ⟨periods, hperiods, hcut⟩ := timesWhere_eq_ok_iff.mp (foundIn_eq_some.mp h)
  have hvalid := returns_valid_selectedPeriods s filter periods hperiods
  obtain ⟨all, hall, hcut⟩ := Option.bind_eq_some_iff.mp hcut
  exact (SpanSet.wellFormed_of_mem_ofSpans? hvalid hall).intersectionSpan hv hcut

/-- Without interpolation the times at which a filter selects the value are those at which it holds
of the value held. -/
lemma selectedTimes_spec {s : Sequence V} (h : s.WellFormed) (hl : s.interp ≠ .linear)
    (filter : ValueFilter V) : s.timesWhere filter = .ok (s.selectedTimes filter) ∧
      ∀ n, s.Covers n →
        (SpanSet.SomeCovers (s.selectedTimes filter) n ↔ filter.holds (s.held n) = true) := by
  obtain ⟨periods, hperiods, hheld⟩ := selectedPeriods_spec h hl filter
  obtain ⟨htimes, hcovers⟩ := selectedTimes_of_periods h.period_valid hperiods
  refine ⟨htimes, fun n hn => ?_⟩
  rw [hcovers, hheld n hn]
  exact and_iff_left (h.mem_period hn)

/-- The times at which a filter selects the value of a short sequence are told, if it ends so early
that a way that is rounded up does not lead out of time. -/
lemma completes_timesWhere {s : Sequence V} (h : s.WellFormed) {filter : ValueFilter V}
    (hf : filter.OnSegments) (hshort : ShortRun s.interp s.first s.rest)
    (hearly : s.interp = .linear → s.last.time.micros + 2 ^ 10 < 2 ^ 63) :
    Completes (s.timesWhere filter) := by
  by_cases hl : s.interp = .linear
  · have hlerp : ∀ ab ∈ s.segments, ∀ r, Binary64.Fraction r →
        Completes (ab.1.time.lerp ab.2.time r) := by
      rintro ⟨a, b⟩ hab r hr
      obtain ⟨ha, hb, hlt, -⟩ := segment_spec h.rising hab
      have hfirst := first_le h.rising ha
      have hlast := place_le_last h.rising b hb
      have hspan := hshort hl
      have hend := hearly hl
      unfold last at hend
      unfold Timestamp.place at hlt hfirst hlast
      have hgap : b.time.micros - a.time.micros < 2 ^ 63 := by omega
      have hle : a.time ≤ b.time := Timestamp.le_iff_micros.mpr (by omega)
      have hsum := Timestamp.micros_add_gap hle hgap
      have hway := Timestamp.gap_lt hle hgap
      have hcarried := Binary64.carried_le hway
      intro hlost
      rw [Timestamp.lerp_eq_aborted_iff hle hgap hr] at hlost
      have hbound := (hr.part_bounds hway).2
      omega
    have hc := (wellFormed_iff.mp h).linear hl
    rw [timesWhere_eq]
    refine Completes.bind ?_ fun _ _ => Completes.ok _
    unfold selectedPeriods
    split
    · exact Completes.ok _
    · refine (Completes.mapM fun ab hab => ?_).bind fun _ _ => Completes.ok _
      rw [hl]
      refine (Completes.mapM fun r hr => ?_).bind fun _ _ => Completes.ok _
      obtain ⟨hlower, hupper⟩ := hf hc _ _ r hr
      exact (hlerp ab hab _ hlower).bind fun _ _ => (hlerp ab hab _ hupper).bind
        fun _ _ => Completes.ok _
  · exact .of_eq_ok (selectedTimes_spec h hl filter).1

section

variable {filter : ValueFilter V} {c : V}

omit [TemporalValue V] [LawfulValue V] in
lemma heldFrom_map (f : V → V) (n : Int) (a : Instant V) (rest : List (Instant V)) :
    heldFrom n (a.withValue (f a.value)) (rest.map fun i => i.withValue (f i.value)) =
      f (heldFrom n a rest) := by
  induction rest generalizing a with
  | nil => rfl
  | cons b rest ih =>
    rw [List.map_cons, heldFrom, heldFrom, ih]
    exact (apply_ite f _ _ _).symm

omit [LawfulValue V] in
lemma held_snap (s : Sequence V) (n : Int) : (s.snap filter).held n = filter.snap (s.held n) :=
  heldFrom_map filter.snap n s.first s.rest

omit [LawfulValue V] in
lemma instants_snap (s : Sequence V) : (s.snap filter).instants =
    s.instants.map fun i => i.withValue (filter.snap i.value) := rfl

omit [LawfulValue V] in
lemma period_snap (s : Sequence V) : (s.snap filter).period = s.period := by
  have hlast : (s.snap filter).last.time = s.last.time := by
    change ((s.rest.map fun i => i.withValue (filter.snap i.value)).getLastD
      (s.first.withValue (filter.snap s.first.value))).time = (s.rest.getLastD s.first).time
    rcases List.eq_nil_or_concat' s.rest with hn | ⟨xs, z, hxs⟩
    · rw [hn]
      rfl
    · rw [hxs, List.map_append, List.map_singleton, List.getLastD_concat, List.getLastD_concat]
      rfl
  unfold period
  rw [hlast]
  rfl

omit [LawfulValue V] in
lemma covers_snap (s : Sequence V) (n : Int) : (s.snap filter).Covers n ↔ s.Covers n := by
  have hd : (s.snap filter).isDiscrete = s.isDiscrete := rfl
  unfold Covers lo hi
  rw [hd, period_snap, instants_snap]
  simp only [List.mem_map, exists_exists_and_eq_and]
  rfl

omit [LawfulValue V] in
lemma endsRepeated_snap {f : V → V} {a : Instant V} {rest : List (Instant V)}
    (hf : ∀ i ∈ a :: rest, ∀ j : Instant V,
      (i.value == j.value) = true → (f i.value == f j.value) = true)
    (h : endsRepeated a rest = true) :
    endsRepeated (a.withValue (f a.value)) (rest.map fun i => i.withValue (f i.value)) =
      true := by
  induction rest generalizing a with
  | nil => rfl
  | cons b rest ih =>
    cases rest with
    | nil => exact hf b (by simp) a h
    | cons x rest => exact ih (fun i hi => hf i (List.mem_cons_of_mem _ hi)) h

lemma wellFormed_snap {s : Sequence V} (h : s.WellFormed)
    (hc : ∀ i ∈ s.instants, TemporalValue.compatible c (filter.snap i.value) = .ok ())
    (hv : s.interp = .step → ∀ i ∈ s.instants, ∀ j : Instant V,
      (i.value == j.value) = true → (filter.snap i.value == filter.snap j.value) = true) :
    (s.snap filter).WellFormed := by
  have hs := wellFormed_iff.mp h
  refine wellFormed_iff.mpr ⟨hs.linear, ?_, fun hclosed => hs.closed ?_, fun hi hu => ?_⟩
  · change (s.snap filter).instants.Pairwise Instant.Precedes
    rw [instants_snap]
    refine pairwise_precedes (c := c) ?_ fun i hi => ?_
    · exact List.pairwise_map.mpr (hs.rising.imp fun hab => hab.1)
    · obtain ⟨j, hj, rfl⟩ := List.mem_map.mp hi
      exact hc j hj
  · exact hclosed.imp_left List.map_eq_nil_iff.mp
  · exact endsRepeated_snap (hv hi) (hs.repeated hi hu)

/-- Pieces with the exact forms of their values. -/
lemma Cuts.snap {s : Sequence V} {inside : Int → Prop} {pieces : List (Sequence V)}
    (h : Cuts c [s] inside pieces) (hf : filter.Snaps c)
    (hw : s.interp = .step → ∃ w, filter.holds w = true)
    (hin : StepValue V → ∀ n, s.Covers n → inside n → filter.holds (s.held n) = true) :
    Cuts c [s] inside (pieces.map fun x => x.snap filter) := by
  have hi : ∀ x ∈ pieces, x.interp = s.interp := by
    intro x hx
    obtain ⟨y, hy, hi⟩ := h.interp_eq x hx
    rw [hi, List.mem_singleton.mp hy]
  refine ⟨fun x hx => ?_, fun x hx => ?_, fun x hx i hmem => ?_, ?_, fun n => ?_, fun hl n v => ?_⟩
  · obtain ⟨p, hp, rfl⟩ := List.mem_map.mp hx
    refine wellFormed_snap (c := c) (h.wellFormed p hp) (fun i hmem => ?_) fun hs i hmem j hij => ?_
    · exact hf.compatible (h.compatible p hp i hmem)
    · obtain ⟨w, hholds⟩ := hw (by rw [← hi p hp, hs])
      exact hf.congr hholds (h.compatible p hp i hmem) hij
  · obtain ⟨p, hp, rfl⟩ := List.mem_map.mp hx
    exact h.interp_eq p hp
  · obtain ⟨p, hp, rfl⟩ := List.mem_map.mp hx
    rw [instants_snap] at hmem
    obtain ⟨j, hj, rfl⟩ := List.mem_map.mp hmem
    exact hf.compatible (h.compatible p hp j hj)
  · refine List.pairwise_map.mpr (h.apart.imp fun {a b} hab n hn => hab n ?_)
    rwa [covers_snap, covers_snap] at hn
  · rw [← h.covers_iff]
    simp only [List.mem_map, exists_exists_and_eq_and, covers_snap]
  · rw [← h.takes_iff hl]
    simp only [List.mem_map, exists_exists_and_eq_and]
    refine exists_congr fun p => and_congr_right fun hp => ?_
    unfold Takes
    rw [covers_snap]
    refine and_congr_right fun hn => ?_
    obtain ⟨⟨y, hy, hyn, hheld⟩, hins⟩ := (h.takes_iff hl n (p.held n)).mp ⟨p, hp, hn, rfl⟩
    obtain rfl := List.mem_singleton.mp hy
    have hholds := hin hl n hyn hins
    rw [hheld] at hholds
    rw [held_snap, hf.snap_eq hl hholds]

/-- The part of a sequence that a filter selects, unless it is given up, can be cut out. -/
theorem atFilter_spec {s : Sequence V} (h : s.WellFormed) (hp : s.Proper)
    (hc : ∀ i ∈ s.instants, TemporalValue.compatible c i.value = .ok ()) (hf : filter.Snaps c)
    (hdone : Completes (s.atFilter filter)) :
    ∃ pieces, s.atFilter filter = .ok pieces ∧
      Cuts c [s] (SpanSet.SomeCovers (s.selectedTimes filter)) pieces := by
  unfold atFilter at hdone ⊢
  have htold := timesWhere_of_completes hdone.left
  rw [bind_of_ok htold] at hdone ⊢
  cases htimes : s.selectedTimes filter with
  | none =>
    exact ⟨[], rfl, Cuts.of_not_covers fun n _ => SpanSet.someCovers_none n⟩
  | some times =>
    rw [htimes] at hdone
    have ht := wellFormed_selectedTimes h.period_valid htimes
    obtain ⟨pieces, hok, hcuts⟩ := atPeriods_spec h hp hc ht hdone.left
    have hheld : s.interp ≠ .linear → ∀ n, s.Covers n → times.Covers n →
        filter.holds (s.held n) = true := by
      intro hl n hn hin
      rw [← (selectedTimes_spec h hl filter).2 n hn, htimes]
      exact SpanSet.someCovers_some.mpr hin
    refine ⟨pieces.map fun x => x.snap filter, ?_, ?_⟩
    · simp only [bind_eq_ok, pure_eq_ok]
      exact ⟨pieces, hok, rfl⟩
    · refine (hcuts.snap hf (fun hs => ?_) fun hl => hheld h.interp_ne_linear).congr
        fun n _ => SpanSet.someCovers_some.symm
      have hd : s.isDiscrete = false := isDiscrete_eq_false_iff.mpr (by rw [hs]; simp)
      obtain ⟨n, hn⟩ := ht.exists_covers
      have hselected : SpanSet.SomeCovers (s.selectedTimes filter) n := by
        rw [htimes]
        exact SpanSet.someCovers_some.mpr hn
      have hmem := mem_period_of_selectedTimes h.period_valid hselected
      exact ⟨s.held n, hheld (by rw [hs]; simp) n ((covers_of_continuous hd n).mpr hmem) hn⟩

/-- The times that a filter does not select, within the period of the sequence. -/
def otherTimes (s : Sequence V) (filter : ValueFilter V) : Option PeriodSet :=
  match s.selectedTimes filter with
  | none => some (SpanSet.ofSpan s.period)
  | some times => (SpanSet.ofSpan s.period).minus times

lemma otherTimes_spec {s : Sequence V} (h : s.WellFormed) (filter : ValueFilter V) :
    (∀ times ∈ s.otherTimes filter, times.WellFormed) ∧ ∀ n, s.Covers n →
      (SpanSet.SomeCovers (s.otherTimes filter) n ↔
        ¬SpanSet.SomeCovers (s.selectedTimes filter) n) := by
  have hwhole := SpanSet.wellFormed_ofSpan h.period_valid
  have hcov : ∀ n, s.Covers n → (SpanSet.ofSpan s.period).Covers n := fun n hn =>
    (SpanSet.covers_ofSpan _ n).mpr (h.mem_period hn)
  unfold otherTimes
  cases htimes : s.selectedTimes filter with
  | none =>
    refine ⟨fun times ht => ?_, fun n hn => ?_⟩
    · obtain rfl := Option.some.inj ht
      exact hwhole
    · exact iff_of_true (SpanSet.someCovers_some.mpr (hcov n hn)) (SpanSet.someCovers_none n)
  | some times =>
    have ht := wellFormed_selectedTimes h.period_valid htimes
    refine ⟨fun left hleft => hwhole.minus ht hleft, fun n hn => ?_⟩
    rw [SpanSet.someCovers_some]
    exact (hwhole.someCovers_minus ht n).trans (and_iff_right (hcov n hn))

omit [LawfulValue V] in
lemma minusFilter_eq {s : Sequence V} (hdone : Completes (s.timesWhere filter)) :
    s.minusFilter filter = match s.otherTimes filter with
      | none => .ok []
      | some times => s.atPeriods times := by
  unfold minusFilter otherTimes
  rw [bind_of_ok (timesWhere_of_completes hdone)]
  cases s.selectedTimes filter <;> rfl

/-- The rest of a sequence, unless it is given up, can be cut out as well. -/
theorem minusFilter_spec {s : Sequence V} (filter : ValueFilter V) (h : s.WellFormed)
    (hp : s.Proper)
    (hc : ∀ i ∈ s.instants, TemporalValue.compatible c i.value = .ok ())
    (hdone : Completes (s.minusFilter filter)) :
    ∃ pieces, s.minusFilter filter = .ok pieces ∧
      Cuts c [s] (fun n => ¬SpanSet.SomeCovers (s.selectedTimes filter) n) pieces := by
  obtain ⟨hwf, hleft⟩ := otherTimes_spec h filter
  have hwhole : ∀ n, (∃ x ∈ [s], x.Covers n) → s.Covers n := by
    rintro n ⟨x, hx, hn⟩
    rwa [List.mem_singleton.mp hx] at hn
  have htold : Completes (s.timesWhere filter) := hdone.left
  rw [minusFilter_eq htold] at hdone ⊢
  cases hother : s.otherTimes filter with
  | none =>
    refine ⟨[], rfl, Cuts.of_not_covers fun n hn hout => ?_⟩
    have hsome := (hleft n (hwhole n hn)).mpr hout
    rw [hother] at hsome
    exact SpanSet.someCovers_none n hsome
  | some times =>
    rw [hother] at hdone
    obtain ⟨pieces, hok, hcuts⟩ := atPeriods_spec h hp hc (hwf times hother) hdone
    refine ⟨pieces, hok, hcuts.congr fun n hn => ?_⟩
    rw [← hleft n (hwhole n hn), hother, SpanSet.someCovers_some]

section

variable {s : Sequence V} (h : s.WellFormed) (hp : s.Proper)
  (hc : ∀ i ∈ s.instants, TemporalValue.compatible c i.value = .ok ())
  (hshort : ShortRun s.interp s.first s.rest) (htold : Completes (s.timesWhere filter))
include h hp hc hshort htold

lemma completes_atFilter : Completes (s.atFilter filter) := by
  refine htold.bind fun found hfound => ?_
  cases found with
  | none => exact Completes.ok _
  | some times =>
    have ht := wellFormed_selectedTimes h.period_valid (foundIn_eq_some.mpr hfound)
    exact (completes_atPeriods h hp hc ht hshort).bind fun _ _ => Completes.ok _

lemma completes_minusFilter : Completes (s.minusFilter filter) := by
  rw [minusFilter_eq htold]
  cases hother : s.otherTimes filter with
  | none => exact Completes.ok _
  | some times =>
    exact completes_atPeriods h hp hc ((otherTimes_spec h filter).1 times hother) hshort

end

end

end Sequence

namespace Temporal

open Sequence

variable {V : Type} [TemporalValue V]

/-- Whether a filter selects a value at a place. -/
def Selects (v : Temporal V) (filter : ValueFilter V) (n : Int) : Prop :=
  ∃ s ∈ v.sequences, SpanSet.SomeCovers (s.selectedTimes filter) n

/-- A value that is interpolated is early if its last timestamp is more than `2 ^ 10` microseconds
away from the end of 64 bits: so far a way may be rounded up. -/
def Early (v : Temporal V) : Prop :=
  v.interp = .linear → v.lastInstant.time.micros + 2 ^ 10 < 2 ^ 63

variable [LawfulValue V] {v : Temporal V} {filter : ValueFilter V}

lemma WellFormed.early [StepValue V] {v : Temporal V} (h : v.WellFormed) : v.Early := by
  intro hlin
  obtain ⟨s, hs⟩ := v.exists_mem_sequences
  exact absurd ((h.interp_eq s hs).trans hlin) (h.sequences s hs).interp_ne_linear

lemma WellFormed.early_of_mem (h : v.WellFormed) (hearly : v.Early) {s : Sequence V}
    (hs : s ∈ v.sequences) (hl : s.interp = .linear) : s.last.time.micros + 2 ^ 10 < 2 ^ 63 := by
  have hlast := hearly ((h.interp_eq s hs).symm.trans hl)
  have hwithin := (h.sequences_within hs).2
  rw [hi_eq] at hwithin
  unfold Timestamp.place at hwithin
  split at hwithin <;> omega

lemma WellFormed.selects_iff (h : v.WellFormed) {s : Sequence V} (hs : s ∈ v.sequences) {n : Int}
    (hn : s.Covers n) :
    v.Selects filter n ↔ SpanSet.SomeCovers (s.selectedTimes filter) n := by
  constructor
  · rintro ⟨x, hx, hxn⟩
    have hmem := mem_period_of_selectedTimes (h.sequences x hx).period_valid hxn
    rwa [h.eq_of_mem_period hs hx ((h.sequences s hs).mem_period hn) hmem]
  · exact fun hsn => ⟨s, hs, hsn⟩

lemma WellFormed.selects_iff_of_takes [StepValue V] (h : v.WellFormed) {n : Int} {x : V}
    (hx : v.Takes n x) : v.Selects filter n ↔ filter.holds x = true := by
  obtain ⟨s, hs, hn, rfl⟩ := hx
  rw [h.selects_iff hs hn]
  exact (selectedTimes_spec (h.sequences s hs) (h.sequences s hs).interp_ne_linear filter).2 n hn

lemma selects_instant {i : Instant V} {n : Int} (hn : (instant i).Covers n) :
    (instant i).Selects filter n ↔ filter.holds i.value = true := by
  obtain ⟨s, hs, hsn⟩ := hn
  rw [(wellFormed_instant i).selects_iff hs hsn]
  obtain rfl := List.mem_singleton.mp hs
  exact (selectedTimes_spec (wellFormed_ofInstant i (by simp)) (by simp [ofInstant]) filter).2 n
    hsn

section

variable (h : v.WellFormed) (hp : v.Proper)
include h hp

lemma cuts_atFilter (hf : filter.Snaps v.firstInstant.value) :
    ∀ s ∈ v.sequences, Completes (s.atFilter filter) → ∃ pieces, s.atFilter filter = .ok pieces ∧
      Cuts v.firstInstant.value [s] (v.Selects filter) pieces := by
  intro s hs hdone
  obtain ⟨pieces, hok, hcuts⟩ := Sequence.atFilter_spec (h.sequences s hs) (proper_of_mem hp hs)
    (compatible_of_mem h hs) hf hdone
  refine ⟨pieces, hok, hcuts.congr ?_⟩
  rintro n ⟨x, hx, hn⟩
  obtain rfl := List.mem_singleton.mp hx
  exact (h.selects_iff hs hn).symm

lemma cuts_minusFilter (filter : ValueFilter V) :
    ∀ s ∈ v.sequences, Completes (s.minusFilter filter) →
      ∃ pieces, s.minusFilter filter = .ok pieces ∧
        Cuts v.firstInstant.value [s] (fun n => ¬v.Selects filter n) pieces := by
  intro s hs hdone
  obtain ⟨pieces, hok, hcuts⟩ := Sequence.minusFilter_spec filter (h.sequences s hs)
    (proper_of_mem hp hs) (compatible_of_mem h hs) hdone
  refine ⟨pieces, hok, hcuts.congr ?_⟩
  rintro n ⟨x, hx, hn⟩
  obtain rfl := List.mem_singleton.mp hx
  exact not_congr (h.selects_iff hs hn).symm

/-- The part that a filter selects, unless it is given up, is what is left of the value there. -/
theorem atFilter_spec (hf : filter.Snaps v.firstInstant.value)
    (hdone : Completes (v.atFilter filter)) :
    ∃ found, v.atFilter filter = .ok found ∧ Restricts v (v.Selects filter) found := by
  have hcut := cut_spec h (cuts_atFilter h hp hf)
  cases v with
  | instant i =>
    refine ⟨_, rfl, ?_⟩
    by_cases hv : filter.holds i.value = true
    · rw [if_pos hv]
      exact restricts_self h fun n hn => (selects_instant hn).mpr hv
    · rw [if_neg hv]
      exact restricts_none fun n hn hsel => hv ((selects_instant hn).mp hsel)
  | sequence s => exact hcut hdone
  | sequenceSet s => exact hcut hdone

/-- The part that a filter does not select, unless it is given up, is what is left of the value
elsewhere. -/
theorem minusFilter_spec (filter : ValueFilter V) (hdone : Completes (v.minusFilter filter)) :
    ∃ found, v.minusFilter filter = .ok found ∧
      Restricts v (fun n => ¬v.Selects filter n) found := by
  have hcut := cut_spec h (cuts_minusFilter h hp filter)
  cases v with
  | instant i =>
    refine ⟨_, rfl, ?_⟩
    by_cases hv : filter.holds i.value = true
    · rw [if_pos hv]
      exact restricts_none fun n hn hsel => hsel ((selects_instant hn).mpr hv)
    · rw [if_neg hv]
      exact restricts_self h fun n hn hsel => hv ((selects_instant hn).mp hsel)
  | sequence s => exact hcut hdone
  | sequenceSet s => exact hcut hdone

/-- A short value is parted by a filter without giving up, if the times that it selects are told. -/
lemma completes_filter_of_told (hf : filter.Snaps v.firstInstant.value) (hshort : v.Short)
    (htold : ∀ s ∈ v.sequences, Completes (s.timesWhere filter)) :
    Completes (v.atFilter filter) ∧ Completes (v.minusFilter filter) := by
  have hconfined := h.confined hshort
  have hat := completes_cut h hshort (cuts_atFilter h hp hf) fun s hs =>
    completes_atFilter (h.sequences s hs) (proper_of_mem hp hs) (compatible_of_mem h hs)
      (hconfined.shortRun_self hs) (htold s hs)
  have hminus := completes_cut h hshort (cuts_minusFilter h hp filter) fun s hs =>
    completes_minusFilter (h.sequences s hs) (proper_of_mem hp hs) (compatible_of_mem h hs)
      (hconfined.shortRun_self hs) (htold s hs)
  cases v with
  | instant i => exact ⟨Completes.ok _, Completes.ok _⟩
  | sequence s => exact ⟨hat, hminus⟩
  | sequenceSet s => exact ⟨hat, hminus⟩

/-- A short value that ends early is parted by a filter without giving up. -/
lemma completes_filter (hf : filter.Snaps v.firstInstant.value) (hways : filter.OnSegments)
    (hshort : v.Short) (hearly : v.Early) :
    Completes (v.atFilter filter) ∧ Completes (v.minusFilter filter) :=
  completes_filter_of_told h hp hf hshort fun s hs =>
    completes_timesWhere (h.sequences s hs) hways (h.shortRun hshort hs)
      (h.early_of_mem hearly hs)

end

section

variable [StepValue V] (h : v.WellFormed) (hf : filter.Snaps v.firstInstant.value)
include h hf

omit [LawfulValue V] in
lemma exists_atFilter :
    ∃ found, v.atFilter filter = .ok found ∧ Restricts v (v.Selects filter) found :=
  atFilter_spec h (proper_of_step v) hf (completes_filter h (proper_of_step v) hf
    (ValueFilter.onSegments_of_step filter) h.short h.early).1

omit [LawfulValue V] in
lemma exists_minusFilter :
    ∃ found, v.minusFilter filter = .ok found ∧ Restricts v (fun n => ¬v.Selects filter n) found :=
  minusFilter_spec h (proper_of_step v) filter (completes_filter h (proper_of_step v) hf
    (ValueFilter.onSegments_of_step filter) h.short h.early).2

end

/-- What is left inside some places and what is left outside of them have the time of the whole as
its parts. -/
lemma WellFormed.parts_time (h : v.WellFormed) {inside : Int → Prop}
    {selected rest : Option (Temporal V)} (hin : Restricts v inside selected)
    (hout : Restricts v (fun n => ¬inside n) rest) :
    v.time.Parts (selected.map time) (rest.map time) := by
  obtain ⟨htime, hcov⟩ := h.time_spec
  have hwf : ∀ {found : Option (Temporal V)}, (∀ x ∈ found, x.WellFormed) →
      ∀ s ∈ found.map time, s.WellFormed := by
    intro found hfound s hs
    obtain ⟨x, hx, rfl⟩ := Option.map_eq_some_iff.mp hs
    exact (hfound x hx).time_spec.1
  have hselected : ∀ n, SpanSet.SomeCovers (selected.map time) n ↔
      v.time.Covers n ∧ inside n := by
    intro n
    rw [someCovers_map_time hin.wellFormed, hin.covers_iff, hcov]
  refine htime.parts_of_covers (hwf hin.wellFormed) (hwf hout.wellFormed) hselected fun n => ?_
  rw [someCovers_map_time hout.wellFormed, hout.covers_iff, hcov]

omit [LawfulValue V] in
lemma checkValues_eq_ok_iff {xs : List V} : v.checkValues xs = .ok () ↔
    ∀ x ∈ xs, TemporalValue.compatible v.firstInstant.value x = .ok () := by
  induction xs with
  | nil => simp [checkValues]
  | cons x xs ih =>
    rw [checkValues, check_bind_eq_ok, ih, List.forall_mem_cons]

omit [LawfulValue V] in
lemma atValue_of_checked {x : V} (hx : v.checkValues [x] = .ok ()) :
    v.atValue x = reported (v.atFilter (.equalTo x)) ∧
      v.minusValue x = reported (v.minusFilter (.equalTo x)) :=
  ⟨congrArg reported (bind_of_ok hx), congrArg reported (bind_of_ok hx)⟩

omit [LawfulValue V] in
lemma atValues_of_checked {xs : List V} (hxs : v.checkValues xs = .ok ()) :
    v.atValues xs = reported (v.atFilter (.oneOf xs)) ∧
      v.minusValues xs = reported (v.minusFilter (.oneOf xs)) :=
  ⟨congrArg reported (bind_of_ok hxs), congrArg reported (bind_of_ok hxs)⟩

lemma WellFormed.atValue_covers {V : Type} [TemporalValue V] [StepValue V] {v : Temporal V}
    (h : v.WellFormed) (x : V) : ∃ found, v.atValue x = .ok found ∧
      (∀ r ∈ found, r.WellFormed) ∧ ∀ n, SomeCovers found n ↔ v.Takes n x := by
  obtain ⟨found, hfound, hr⟩ := exists_atFilter h
    (ValueFilter.snaps_equalTo (StepValue.compatible_eq_ok v.firstInstant.value x))
  have hat : v.atValue x = .ok found := reported_eq_ok.mpr (check_bind_eq_ok.mpr
    ⟨checkValues_eq_ok_iff.mpr fun _ _ => StepValue.compatible_eq_ok _ _, hfound⟩)
  refine ⟨found, hat, hr.wellFormed, fun n => ?_⟩
  rw [hr.covers_iff, covers_iff_exists_takes]
  constructor
  · rintro ⟨⟨y, hy⟩, hsel⟩
    have hholds := (h.selects_iff_of_takes hy).mp hsel
    rwa [eq_of_beq hholds] at hy
  · exact fun hx => ⟨⟨x, hx⟩, (h.selects_iff_of_takes hx).mpr BEq.rfl⟩

lemma whenTrue_covers {v : Temporal Bool} (h : v.WellFormed) :
    ∃ times, v.whenTrue = .ok times ∧ (∀ s ∈ times, s.WellFormed) ∧
      ∀ n, SpanSet.SomeCovers times n ↔ v.Takes n true := by
  obtain ⟨selected, hat, hwf, hcov⟩ := h.atValue_covers true
  refine ⟨selected.map time, bind_eq_ok.mpr ⟨selected, hat, rfl⟩, fun s hs => ?_, fun n => ?_⟩
  · obtain ⟨r, hr, rfl⟩ := Option.map_eq_some_iff.mp hs
    exact (hwf r hr).time_spec.1
  · rw [someCovers_map_time hwf, hcov]

/-- The time at which a truth value is true. -/
lemma whenTrue_spec {v : Temporal Bool} (h : v.WellFormed) :
    ∃ times, v.whenTrue = .ok times ∧
      ∀ t, (times.any fun s => s.containsValue t) = true ↔ v.valueAt t = some true := by
  obtain ⟨times, htimes, hwf, hcov⟩ := whenTrue_covers h
  refine ⟨times, htimes, fun t => ?_⟩
  rw [h.valueAt_eq_some_iff, ← hcov, Option.any_eq_true]
  exact exists_congr fun s => and_congr_right fun hs => (hwf s hs).containsValue_iff t

end Temporal

end TemporalAlgebra
