import TemporalAlgebra.Proofs.Temporal.Appending
import TemporalAlgebra.Proofs.Temporal.ValueRestriction

/-!
# Partitions by values

Restriction to values and its complement part the time of a value in two, for every way to select
values: one of them, some of them, or numbers in spans. Without interpolation the first part has the
selected values and the second one the others. The box of a value holds its numbers, so it may be
asked first whether there are any in the spans. With interpolation the parts are given up if the ways
between the instants, or the crossings on them, lead out of 64 bits.
-/
namespace TemporalAlgebra.Temporal

open Sequence TemporalBox

section

variable {V : Type} [TemporalValue V] [LawfulValue V] {v : Temporal V} {filter : ValueFilter V}

omit [LawfulValue V] in
lemma Takes.exists_instant {v : Temporal V} {n : Int} {x : V} (h : v.Takes n x) :
    ∃ i ∈ v.instants, i.value = x := by
  obtain ⟨s, hs, -, rfl⟩ := h
  obtain ⟨i, hi, hheld⟩ := heldFrom_mem n s.first s.rest
  exact ⟨i, mem_instants_iff.mpr ⟨s, hs, hi⟩, hheld.symm⟩

/-- A part of a value and the rest of it, neither of which is ever refused: their times are the
parts of its time, and they are told if the value is short and ends early. -/
structure Partition (v : Temporal V) (part rest : Result (Option (Temporal V))) : Prop where
  part_unrefused : Unrefused part
  rest_unrefused : Unrefused rest
  parts : ∀ selected left, part = .ok selected → rest = .ok left →
    v.time.Parts (selected.map time) (left.map time)
  told : v.Short → v.Early → Completes part ∧ Completes rest

/-- Both parts are told: the one has the values of which something holds, and the other one has the
rest of them. -/
def Sorts (v : Temporal V) (holds : V → Prop) (part rest : Result (Option (Temporal V))) : Prop :=
  ∃ selected left, part = .ok selected ∧ rest = .ok left ∧ ∀ t x,
    ((selected.bind fun r => r.valueAt t) = some x ↔ v.valueAt t = some x ∧ holds x) ∧
      ((left.bind fun r => r.valueAt t) = some x ↔ v.valueAt t = some x ∧ ¬holds x)

lemma partition_of_filter (h : v.WellFormed) (hp : v.Proper)
    (hf : filter.Snaps v.firstInstant.value) (hways : filter.OnSegments) :
    v.Partition (reported (v.atFilter filter)) (reported (v.minusFilter filter)) := by
  refine ⟨Unrefused.reported (.of_exists fun hdone => ?_),
    Unrefused.reported (.of_exists fun hdone => ?_), fun selected left hsel hleft => ?_,
    fun hshort hearly => ?_⟩
  · exact (atFilter_spec h hp hf hdone).imp fun _ hfound => hfound.1
  · exact (minusFilter_spec h hp filter hdone).imp fun _ hfound => hfound.1
  · rw [reported_eq_ok] at hsel hleft
    obtain ⟨selected, hsel', hin⟩ := atFilter_spec h hp hf (.of_eq_ok hsel)
    obtain ⟨left, hleft', hout⟩ := minusFilter_spec h hp filter (.of_eq_ok hleft)
    obtain rfl := Except.ok.inj (hsel.symm.trans hsel')
    obtain rfl := Except.ok.inj (hleft.symm.trans hleft')
    exact h.parts_time hin hout
  · obtain ⟨hat, hminus⟩ := completes_filter h hp hf hways hshort hearly
    exact ⟨completes_reported.mpr hat, completes_reported.mpr hminus⟩

omit [LawfulValue V] in
lemma sorts_of_restricts [StepValue V] (h : v.WellFormed) {part rest : Result (Option (Temporal V))}
    {selected left : Option (Temporal V)} (hsel : part = .ok selected) (hleft : rest = .ok left)
    (hin : Restricts v (v.Selects filter) selected)
    (hout : Restricts v (fun n => ¬v.Selects filter n) left) :
    v.Sorts (fun x => filter.holds x = true) part rest := by
  refine ⟨selected, left, hsel, hleft, fun t x => ⟨?_, ?_⟩⟩
  · rw [bind_valueAt_eq_some_iff hin.wellFormed, hin.takes_iff inferInstance,
      h.valueAt_eq_some_iff]
    exact and_congr_right fun hx => h.selects_iff_of_takes hx
  · rw [bind_valueAt_eq_some_iff hout.wellFormed, hout.takes_iff inferInstance,
      h.valueAt_eq_some_iff]
    exact and_congr_right fun hx => not_congr (h.selects_iff_of_takes hx)

omit [LawfulValue V] in
lemma sorts_of_filter [StepValue V] (h : v.WellFormed) (hf : filter.Snaps v.firstInstant.value) :
    v.Sorts (fun x => filter.holds x = true) (reported (v.atFilter filter))
      (reported (v.minusFilter filter)) := by
  obtain ⟨selected, hsel, hin⟩ := exists_atFilter h hf
  obtain ⟨left, hleft, hout⟩ := exists_minusFilter h hf
  exact sorts_of_restricts h (reported_eq_ok.mpr hsel) (reported_eq_ok.mpr hleft) hin hout

/-- Restriction to spans of numbers and its complement partition a value, also where its bounding
box already tells that no number lies in them. -/
lemma spans_partition {V : Type} [NumericValue V] [LawfulValue V] {v : Temporal V}
    (h : v.WellFormed) (hp : v.Proper) (s : SpanSet Float) :
    v.Partition (v.atSpans s) (v.minusSpans s) := by
  unfold atSpans minusSpans
  cases v.meetsBox (.ofSpan s.hull) with
  | false =>
    refine ⟨Unrefused.ok _, Unrefused.ok _, fun selected left hsel hleft => ?_,
      fun _ _ => ⟨Completes.ok _, Completes.ok _⟩⟩
    obtain rfl := Except.ok.inj hsel
    obtain rfl := Except.ok.inj hleft
    rfl
  | true =>
    exact partition_of_filter h hp (ValueFilter.snaps_of_id rfl) (ValueFilter.onSegments_inSpans s)

end

section Boxes

variable {V : Type} [TemporalValue V] [LawfulValue V] [BoundedValue V]

lemma Sound.exists_within {v : Temporal V} (h : v.Sound) {i : Instant V} (hi : i ∈ v.instants) :
    ∃ p, Within (setPeriod i.box p) v.box := by
  have hsequence : ∀ {s : Sequence V}, s.Sound → i ∈ s.instants →
      Within (setPeriod i.box s.period) s.box := by
    intro s hs hi
    have hbox := Within.refl s.box
    nth_rewrite 1 [← hs.setPeriod_box] at hbox
    exact hs.box_within_iff.mp hbox i hi
  cases v with
  | instant j =>
    obtain rfl := List.mem_singleton.mp hi
    refine ⟨Period.singleton i.time, ?_⟩
    change Within (setPeriod (TemporalValue.instantBox i.value i.time) _) _
    rw [BoundedValue.setPeriod_instantBox]
    exact Within.refl _
  | sequence s => exact ⟨s.period, hsequence h hi⟩
  | sequenceSet s =>
    obtain ⟨x, hx, hix⟩ := List.mem_flatMap.mp hi
    have hwithin := (SequenceSet.Sound.box_within_iff h).mp (Within.refl s.box) x hx
    exact ⟨x.period, (hsequence (h.sequences x hx) hix).trans hwithin⟩

end Boxes

section Numbers

variable {v : Temporal Integer}

/-- A value takes numbers only of the extent of its box. -/
lemma Sound.covers_box (h : v.Sound) {n : Int} {x : Integer} (hx : v.Takes n x) :
    ∃ s : FloatSpan, (NumericValue.numberBox v.box).span = some s ∧
      s.containsValue (NumericValue.toFloat x) = true := by
  obtain ⟨i, hi, rfl⟩ := hx.exists_instant
  obtain ⟨p, hp⟩ := h.exists_within hi
  have hspan : hullOfPresent Span.hull (some ⟨NumericValue.toFloat i.value,
      NumericValue.toFloat i.value, true, true⟩) (NumericValue.numberBox v.box).span =
        (NumericValue.numberBox v.box).span := congrArg TBox.span hp
  cases hbox : (NumericValue.numberBox v.box).span with
  | none =>
    rw [hbox] at hspan
    exact absurd hspan (by simp [hullOfPresent])
  | some s =>
    rw [hbox] at hspan
    have hhull := Option.some.inj hspan
    refine ⟨s, rfl, (Span.containsValue_iff _ _).mpr ?_⟩
    -- the extent of one value is the single place of that value
    have hlo : (Span.mk (NumericValue.toFloat i.value) (NumericValue.toFloat i.value) true
        true).lo = 3 * LawfulDomain.key (NumericValue.toFloat i.value) + 1 := rfl
    have hhi : (Span.mk (NumericValue.toFloat i.value) (NumericValue.toFloat i.value) true
        true).hi = 3 * LawfulDomain.key (NumericValue.toFloat i.value) + 1 := rfl
    rw [← hhull]
    unfold Span.Covers
    rw [Span.lo_hull, Span.hi_hull, hlo, hhi]
    exact ⟨min_le_left _ _, le_max_left _ _⟩

lemma Sound.not_containsValue_of_apart (h : v.Sound) {s : SpanSet Float} (hs : s.WellFormed)
    (hbox : v.meetsBox (.ofSpan s.hull) = false) {n : Int} {x : Integer} (hx : v.Takes n x) :
    ¬s.containsValue (NumericValue.toFloat x) = true := by
  intro hin
  obtain ⟨b, hb, hbx⟩ := h.covers_box hx
  have hhull := hs.covers_hull ((hs.containsValue_iff _).mp hin)
  rw [Span.containsValue_iff] at hbx
  unfold Span.Covers at hhull hbx
  have hperiod : whereBoth Span.overlaps (NumericValue.numberBox v.box).period none = true := by
    cases (NumericValue.numberBox v.box).period <;> rfl
  have hmeets : v.meetsBox (.ofSpan s.hull) = true := by
    change (whereBoth Span.overlaps (NumericValue.numberBox v.box).span (some s.hull) &&
      whereBoth Span.overlaps (NumericValue.numberBox v.box).period none) = true
    rw [hb, hperiod, Bool.and_true]
    exact (Span.overlaps_iff _ _).mpr (by omega)
  rw [hmeets] at hbox
  exact Bool.noConfusion hbox

/-- Restriction to spans of numbers and its complement are right, also where the box of the value
tells already that no number lies in the spans. -/
lemma Sound.spans_spec (h : v.Sound) {s : SpanSet Float} (hs : s.WellFormed) :
    ∃ selected rest, v.atSpans s = .ok selected ∧ v.minusSpans s = .ok rest ∧
      Restricts v (v.Selects (.inSpans s)) selected ∧
      Restricts v (fun n => ¬v.Selects (.inSpans s) n) rest := by
  have hwf := h.wellFormed
  unfold atSpans minusSpans
  cases hbox : v.meetsBox (.ofSpan s.hull) with
  | false =>
    have hnot : ∀ n, v.Covers n → ¬v.Selects (.inSpans s) n := by
      intro n hn
      obtain ⟨x, hx⟩ := covers_iff_exists_takes.mp hn
      rw [hwf.selects_iff_of_takes hx]
      exact h.not_containsValue_of_apart hs hbox hx
    exact ⟨none, some v, rfl, rfl, restricts_none hnot, restricts_self hwf hnot⟩
  | true =>
    have hsnaps : (ValueFilter.inSpans s).Snaps v.firstInstant.value := ValueFilter.snaps_of_id rfl
    obtain ⟨selected, hsel, hin⟩ := exists_atFilter hwf hsnaps
    obtain ⟨rest, hrest, hout⟩ := exists_minusFilter hwf hsnaps
    exact ⟨selected, rest, reported_eq_ok.mpr hsel, reported_eq_ok.mpr hrest, hin, hout⟩

end Numbers

/-- Restriction to values and its complement partition a value: to one value or to some that go
together with it, and to numbers in spans. They are given up only if the value is interpolated and
not short or not early. Without interpolation the parts are sorted by what is selected. -/
theorem value_restriction_partitions {V : Type} [TemporalValue V] [LawfulValue V]
    {v : Temporal V} (h : v.WellFormed) (hp : v.Proper) :
    (∀ x, v.checkValues [x] = .ok () → v.Partition (v.atValue x) (v.minusValue x) ∧
      (StepValue V → v.Sorts (· = x) (v.atValue x) (v.minusValue x))) ∧
    (∀ xs, v.checkValues xs = .ok () → v.Partition (v.atValues xs) (v.minusValues xs) ∧
      (StepValue V → v.Sorts (· ∈ xs) (v.atValues xs) (v.minusValues xs))) ∧
    (∀ {N : Type} [NumericValue N] [LawfulValue N] {n : Temporal N}, n.WellFormed → n.Proper →
      (∀ s : FloatSpan, n.Partition (n.atSpan s) (n.minusSpan s)) ∧
      ∀ s : SpanSet Float, n.Partition (n.atSpans s) (n.minusSpans s)) ∧
    (∀ {n : Temporal Integer}, n.Sound → ∀ s : SpanSet Float, s.WellFormed →
      n.Sorts (fun x => s.containsValue (NumericValue.toFloat x) = true) (n.atSpans s)
        (n.minusSpans s)) ∧
    ∀ {b : Temporal Bool}, b.WellFormed → ∃ times, b.whenTrue = .ok times ∧
      ∀ t, (times.any fun s => s.containsValue t) = true ↔ b.valueAt t = some true := by
  refine ⟨fun x hx => ?_, fun xs hxs => ?_,
    fun h hp => ⟨fun s => spans_partition h hp (.ofSpan s), spans_partition h hp⟩,
    fun h s hs => ?_, whenTrue_spec⟩
  · have hsnaps := ValueFilter.snaps_equalTo (checkValues_eq_ok_iff.mp hx x (by simp))
    obtain ⟨hat, hminus⟩ := atValue_of_checked hx
    rw [hat, hminus]
    refine ⟨partition_of_filter h hp hsnaps (ValueFilter.onSegments_equalTo x), fun hstep => ?_⟩
    have hholds : ∀ y, (ValueFilter.equalTo x).holds y = true ↔ y = x := fun y => beq_iff_eq
    simpa only [hholds] using sorts_of_filter h hsnaps
  · have hsnaps := ValueFilter.snaps_oneOf (checkValues_eq_ok_iff.mp hxs)
    obtain ⟨hat, hminus⟩ := atValues_of_checked hxs
    rw [hat, hminus]
    refine ⟨partition_of_filter h hp hsnaps (ValueFilter.onSegments_oneOf xs), fun hstep => ?_⟩
    have hholds : ∀ y, (ValueFilter.oneOf xs).holds y = true ↔ y ∈ xs := fun y => by
      change (xs.any fun x => x == y) = true ↔ _
      simp
    simpa only [hholds] using sorts_of_filter h hsnaps
  · obtain ⟨selected, rest, hsel, hrest, hin, hout⟩ := h.spans_spec hs
    exact sorts_of_restricts h.wellFormed hsel hrest hin hout

/-- What goes up by steps is parted by a value of one of them, by values, by spans of numbers, and a
truth value is parted by when it is true. -/
theorem stairs_partitioned_by_values :
    stairs.WellFormed ∧ stairs.Proper ∧ StepValue Integer ∧ stairs.Sound ∧
      stairs.checkValues [.clamp 2] = .ok () ∧
      stairs.Sorts (· = .clamp 2) (stairs.atValue (.clamp 2)) (stairs.minusValue (.clamp 2)) ∧
      stairs.Sorts (· ∈ [.clamp 2]) (stairs.atValues [.clamp 2])
        (stairs.minusValues [.clamp 2]) ∧
      stairs.Partition (stairs.atSpan ⟨0.0, 1.5, true, false⟩)
        (stairs.minusSpan ⟨0.0, 1.5, true, false⟩) ∧
      (SpanSet.ofSpan (⟨0.0, 1.5, true, false⟩ : FloatSpan)).WellFormed ∧
      ∃ selected left, stairs.atSpans (.ofSpan ⟨0.0, 1.5, true, false⟩) = .ok selected ∧
        stairs.minusSpans (.ofSpan ⟨0.0, 1.5, true, false⟩) = .ok left ∧
        (selected.bind fun r => r.valueAt (.nearest 5)) = some (.clamp 1) ∧
        ∃ times, (instant ⟨true, .nearest 0⟩).whenTrue = .ok times ∧
          (times.any fun s => s.containsValue (.nearest 0)) = true := by
  obtain ⟨hone, hsome, hspans, hnumbers, htrue⟩ :=
    value_restriction_partitions stairs_wellFormed stairs_proper
  have hsound : stairs.Sound := ⟨stairs_wellFormed, rfl⟩
  have hs : (SpanSet.ofSpan (⟨0.0, 1.5, true, false⟩ : FloatSpan)).WellFormed := by
    refine SpanSet.wellFormed_ofSpan ((Span.valid_iff_of_continuous rfl).mpr ?_)
    decide +kernel
  obtain ⟨selected, left, hsel, hleft, hsorted⟩ := hnumbers hsound _ hs
  obtain ⟨times, htimes, hcontains⟩ := htrue (wellFormed_instant ⟨true, .nearest 0⟩)
  refine ⟨stairs_wellFormed, stairs_proper, inferInstance, hsound, rfl,
    (hone (.clamp 2) rfl).2 inferInstance, (hsome [.clamp 2] rfl).2 inferInstance,
    (hspans stairs_wellFormed stairs_proper).1 _, hs, selected, left, hsel, hleft,
    (hsorted _ _).1.mpr ⟨rfl, ?_⟩, times, htimes, (hcontains _).mpr (by decide)⟩
  decide +kernel

/-- What goes up through all of the time cannot be searched for a value. -/
theorem ages_not_searched : ages.WellFormed ∧ ages.Proper ∧ ages.checkValues [5.0] = .ok () ∧
    ages.atValue 5.0 = .error .aborted ∧ ages.minusValue 5.0 = .error .aborted :=
  ⟨ages_wellFormed, ages_proper, rfl, (map_eq_error (f := fun _ => ())).mp (by decide +kernel),
    (map_eq_error (f := fun _ => ())).mp (by decide +kernel)⟩

end TemporalAlgebra.Temporal
