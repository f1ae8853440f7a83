import Mathlib.Data.List.Infix
import TemporalAlgebra.Proofs.Temporal.Completion
import TemporalAlgebra.Proofs.Temporal.TextRoundTrip

/-!
# Which texts are given up

Parsing ends with a value or a refusal for every text but those that are cut inside a character,
those with a timestamp whose offset leads out of the calendar, and those of values that are
interpolated between timestamps that lie too far apart. The printed form of a value of steps is cut
inside a character if one of the two comparisons at its start is.
-/
namespace TemporalAlgebra

open Text

variable {V : Type} [TemporalValue V]

/-- Values that change by steps are not interpolated. -/
lemma StepValue.not_farApart [StepValue V] {cs : List Char}
    (hc : TemporalValue.continuous V = true) : ¬Timestamp.FarApart cs := by
  rw [StepValue.continuous_eq_false] at hc
  cases hc

lemma Sequence.completes_read_bareText [LegibleValue V] [StepValue V] {s : Sequence V}
    (h : ∀ i ∈ s.instants, i.time.InCalendar) (places : Nat) (interp : Interpolation)
    (context : ValueContext) :
    Completes (Sequence.read interp context (s.bareText places).toList : Result (Sequence V)) := by
  refine Sequence.completes_read_of_readAll StepValue.not_farApart fun _ => ?_
  rw [(s.tight_bareText places).trim_eq, Sequence.toList_bareText]
  change Completes (Instant.readAll context (s.inner places ++ [s.closing]).dropLast)
  rw [List.dropLast_concat, Sequence.readAll_inner h places context]
  exact Completes.ok _

namespace Temporal

section

variable {cs : List Char} (h : Plain cs)
include h

lemma Plain.dropWord_eq_none {word : String} (w : Char) (ws : List Char)
    (hword : word.toList = w :: ws) (hsize : word.utf8ByteSize ≠ 0)
    (hstart : ∀ c, startsNoOption c = true → c.toLower ≠ w.toLower) (hbreaks : ¬BreaksAt word cs) :
    dropWord word cs = .ok none := by
  obtain ⟨c, rest, rfl⟩ := List.exists_cons_of_ne_nil h.ne_nil
  exact dropWord_of_first hword hsize (hstart c (h.starts c rfl)) hbreaks

lemma Plain.dropWord_srid (hbreaks : ¬BreaksAt "SRID=" cs) : dropWord "SRID=" cs = .ok none := by
  refine h.dropWord_eq_none 'S' "RID=".toList (by decide) (by decide) ?_ hbreaks
  intro c hc
  unfold startsNoOption at hc
  rw [Bool.and_eq_true, bne_iff_ne] at hc
  exact hc.1

lemma Plain.dropWord_interp (hbreaks : ¬BreaksAt "Interp=" cs) :
    dropWord "Interp=" cs = .ok none := by
  refine h.dropWord_eq_none 'I' "nterp=".toList (by decide) (by decide) ?_ hbreaks
  intro c hc
  unfold startsNoOption at hc
  rw [Bool.and_eq_true, bne_iff_ne, bne_iff_ne] at hc
  exact hc.2

lemma Plain.breaks_iff :
    TextOptions.Breaks cs ↔ BreaksAt "SRID=" cs ∨ BreaksAt "Interp=" cs := by
  unfold TextOptions.Breaks
  by_cases hsrid : BreaksAt "SRID=" cs
  · simp only [hsrid, true_or]
  · simp only [hsrid, h.dropWord_srid hsrid, false_or, true_and]

/-- No option is split off, unless the search for one breaks. -/
lemma Plain.split_eq (hbreaks : ¬TextOptions.Breaks cs) :
    TextOptions.split cs {} cs = .ok ({}, cs) := by
  rw [h.breaks_iff, not_or] at hbreaks
  exact TextOptions.split_eq_self (h.dropWord_srid hbreaks.1) (h.dropWord_interp hbreaks.2) _ _

lemma Plain.read_eq_aborted_of_breaks (hbreaks : TextOptions.Breaks cs) :
    (read cs : Result (Temporal V)) = .error .aborted := by
  have htrim := trimStart_eq_self h.tight.first
  unfold read
  rw [bind_eq_aborted, htrim, TextOptions.split_eq_aborted htrim]
  exact .inl ⟨({}, cs), .refl, hbreaks⟩

end

section Printed

variable [LegibleValue V] [StepValue V]

lemma completes_read_bareText {v : Temporal V} (hv : v.WellFormed) (h : v.InCalendar)
    (places : Nat) (hbreaks : ¬TextOptions.Breaks (v.bareText places)) :
    Completes (read (v.bareText places) : Result (Temporal V)) := by
  have hplain := plain_bareText h places
  have hsplit := hplain.split_eq hbreaks
  cases v with
  | instant i =>
    obtain ⟨c, rest, htext, hstart⟩ := i.text_starts places
    rw [hplain.read_value hsplit htext (isValueStart_iff.mp hstart).1.2]
    apply Completes.map
    change Completes (Instant.read .plain (i.text places).toList)
    rw [Instant.read_text (h i (List.mem_singleton_self i)) places .plain]
    exact Completes.ok i
  | sequence s =>
    cases hd : s.isDiscrete with
    | true =>
      rw [hplain.read_braces hsplit (Sequence.toList_bareText_discrete hd places)]
      refine completes_readBraced StepValue.not_farApart (fun hopens => ?_) fun _ => ?_
      · rw [s.opens_inner] at hopens
        exact nomatch hopens
      · rw [Sequence.readAll_inner h places]
        exact Completes.ok _
    | false =>
      have hopening : (Span.openingInc? s.opening).isSome = true := by
        rw [Sequence.openingInc?_opening hd]
        rfl
      rw [hplain.read_brackets hsplit (s.toList_bareText places) hopening]
      exact (Sequence.completes_read_bareText h places _ _).map _
  | sequenceSet s =>
    have hcontinuous : s.first.isDiscrete = false :=
      ((SequenceSet.checkKinds_eq_ok_iff.mp hv.kinds) s.first (List.mem_cons_self ..)).2
    have hmembers : ∀ x ∈ s.sequences, ∀ i ∈ x.instants, i.time.InCalendar :=
      fun x hx i hi => h i (mem_instants_iff.mpr ⟨x, hx, hi⟩)
    rw [hplain.read_braces hsplit rfl]
    -- Between the braces stand the texts of the sequences, each of which opens with a bracket.
    refine completes_readBraced StepValue.not_farApart
      (fun _ parts hparts part hpart => ?_) fun hopens => ?_
    · have htogether : splitTopLevel (s.inner places) =
          .ok (s.sequences.map fun x => (x.bareText places).toList) :=
        splitTopLevel_together (by simp [SequenceSet.sequences]) (List.forall_mem_map.mpr
          fun x hx => Sequence.part_bareText (hmembers x hx) places)
      obtain rfl := Except.ok.inj (hparts.symm.trans htogether)
      obtain ⟨x, hx, rfl⟩ := List.mem_map.mp hpart
      exact Sequence.completes_read_bareText (hmembers x hx) places _ _
    · rw [SequenceSet.opens_inner hcontinuous] at hopens
      exact nomatch hopens

lemma parse_text_eq_aborted {v : Temporal V} (hv : v.WellFormed) (h : v.InCalendar)
    (places : Nat) : (parse (v.text places) : Result (Temporal V)) = .error .aborted ↔
      BreaksAt "SRID=" (v.text places).toList ∨ BreaksAt "Interp=" (v.text places).toList := by
  have hplain := plain_bareText h places
  unfold parse
  rw [reported_eq_aborted, toList_text (LegibleValue.srid_eq _), ← hplain.breaks_iff]
  constructor
  · intro habort
    by_contra hbreaks
    exact completes_read_bareText hv h places hbreaks habort
  · exact hplain.read_eq_aborted_of_breaks

end Printed

end Temporal

/-- Spans, sets and span sets of a domain are parsed to the end. -/
structure ParsesSpans (α : Type) [SpanDomain α] (input : String) : Prop where
  span : Completes (Span.parse input : Result (Span α))
  set : Completes (ValueSet.parse input : Result (ValueSet α))
  spanSet : Completes (SpanSet.parse input : Result (SpanSet α))

lemma ReadsPieces.parsesSpans {α : Type} [SpanDomain α] [SteadyDomain α] {input : String}
    (h : ReadsPieces α input.toList) : ParsesSpans α input :=
  ⟨completes_reported.mpr (Span.completes_read h),
    completes_reported.mpr (ValueSet.completes_read h),
    completes_reported.mpr (SpanSet.completes_read h)⟩

lemma ReadableValue.readsInstants (V : Type) [TemporalValue V] [ReadableValue V] {cs : List Char}
    (hnear : TemporalValue.continuous V = true → ¬Timestamp.FarApart cs)
    (h : ∀ part, '@' :: part <:+: cs → ¬Timestamp.Faulty part) : ReadsInstants V cs :=
  ⟨fun context part _ => ReadableValue.read context part, h, hnear⟩

/-- A temporal value is given up exactly if the search for options in front of it breaks. -/
def GivenUpAtOptions (V : Type) [TemporalValue V] (input : String) : Prop :=
  (Temporal.parse input : Result (Temporal V)) = .error .aborted ↔
    ∃ place, TextOptions.Reaches input.toList place ∧ TextOptions.Breaks place.2

lemma ReadsInstants.givenUpAtOptions {V : Type} [TemporalValue V] [SteadyValue V]
    [LawfulValue V] {input : String}
    (h : ReadsInstants V input.toList) : GivenUpAtOptions V input :=
  reported_eq_aborted.trans (Temporal.read_eq_aborted h)

/-- What is parsed ends with a value or a refusal, with exceptions that are all named here: a
timestamp whose offset is cut inside a character or leads out of the calendar, a comparison with a
word at the start of a point, a box, or a place for an option that cuts the text inside a character,
and timestamps between which values would be interpolated but that lie too far apart. -/
theorem parsing_completes (input : String) (v : Temporal String) (places : Nat) :
    ((Timestamp.parse input = .error .aborted ↔ Timestamp.Faulty input.toList) ∧
      Completes (Date.parse input) ∧
      (Point.parse input = .error .aborted ↔ BreaksAt "SRID=" (trim input.toList)) ∧
      ParsesSpans Integer input ∧ ParsesSpans Bigint input ∧ ParsesSpans Float input ∧
      ParsesSpans Date input) ∧
    ((∀ part, Piece input.toList part → ¬Timestamp.Faulty part) →
      ParsesSpans Timestamp input ∧
      (TBox.parse input = .error .aborted ↔ BreaksAt "TBOX" (trim input.toList)) ∧
      (STBox.parse input = .error .aborted ↔ BreaksAt "SRID=" (trimStart input.toList))) ∧
    ((∀ part, '@' :: part <:+: input.toList → ¬Timestamp.Faulty part) →
      GivenUpAtOptions Bool input ∧ GivenUpAtOptions Integer input ∧
      GivenUpAtOptions String input ∧
      (¬Timestamp.FarApart input.toList →
        GivenUpAtOptions Float input ∧ GivenUpAtOptions Pair input ∧
        ((∀ part, Piece input.toList part → ¬BreaksAt "SRID=" (trim part)) →
          GivenUpAtOptions Point input))) ∧
    (v.WellFormed → v.InCalendar →
      ((Temporal.parse (v.text places) : Result (Temporal String)) = .error .aborted ↔
        BreaksAt "SRID=" (v.text places).toList ∨ BreaksAt "Interp=" (v.text places).toList)) := by
  refine ⟨⟨Timestamp.read_eq_aborted, Date.completes_read _, Point.read_eq_aborted,
    (ReadableDomain.readsPieces Integer _).parsesSpans,
    (ReadableDomain.readsPieces Bigint _).parsesSpans,
    (ReadableDomain.readsPieces Float _).parsesSpans,
    (ReadableDomain.readsPieces Date _).parsesSpans⟩, fun htimes => ?_, fun htimes => ?_,
    fun hv h => Temporal.parse_text_eq_aborted hv h places⟩
  · have hreads := Timestamp.readsPieces htimes
    exact ⟨hreads.parsesSpans, reported_eq_aborted.trans (TBox.read_eq_aborted hreads),
      reported_eq_aborted.trans (STBox.read_eq_aborted hreads)⟩
  · refine ⟨
      (ReadableValue.readsInstants Bool StepValue.not_farApart htimes).givenUpAtOptions,
      (ReadableValue.readsInstants Integer StepValue.not_farApart htimes).givenUpAtOptions,
      (ReadableValue.readsInstants String StepValue.not_farApart htimes).givenUpAtOptions,
      fun hnear => ⟨
        (ReadableValue.readsInstants Float (fun _ => hnear) htimes).givenUpAtOptions,
        (ReadableValue.readsInstants Pair (fun _ => hnear) htimes).givenUpAtOptions,
        fun hpoints => ?_⟩⟩
    have hreads : ReadsInstants Point input.toList :=
      ⟨fun context part hpart => Point.completes_readIn (hpoints part hpart) context, htimes,
        fun _ => hnear⟩
    exact hreads.givenUpAtOptions

lemma forall_isInfix {p : List Char → Prop} {cs : List Char}
    (h : ∀ tail ∈ cs.tails, ∀ part ∈ tail.inits, p part) : ∀ part, part <:+: cs → p part := by
  intro part hpart
  obtain ⟨tail, hprefix, hsuffix⟩ := List.infix_iff_prefix_suffix.mp hpart
  exact h tail ((List.mem_tails _ _).mpr hsuffix) part ((List.mem_inits _ _).mpr hprefix)

def remarkAtStart (remark : String) : Temporal String := .instant ⟨remark, .nearest 0⟩

lemma toList_remarkAtStart (remark : String) (places : Nat) :
    ((remarkAtStart remark).text places).toList =
      Quoted.write remark.toList ++ "@2000-01-01 00:00:00+00".toList := by
  have hvalue : (BaseValue.text remark places).toList = Quoted.write remark.toList :=
    String.toList_ofList
  have htime : '@' :: (Timestamp.nearest 0).text.toList = "@2000-01-01 00:00:00+00".toList := by
    decide +kernel
  rw [Temporal.toList_text rfl]
  change ((⟨remark, .nearest 0⟩ : Instant String).text places).toList = _
  rw [Instant.toList_text, hvalue, htime]

lemma wellFormed_remarkAtStart (remark : String) : (remarkAtStart remark).WellFormed := trivial

lemma inCalendar_remarkAtStart (remark : String) : (remarkAtStart remark).InCalendar :=
  List.forall_mem_singleton.mpr (by decide : (Timestamp.nearest 0).InCalendar)

/-- The dates of a span and of an instant are no exception, and neither is a remark in letters of
two bytes. -/
theorem dates_and_remark_parsed :
    ((∀ part, Piece "[2000-01-01,2000-01-02]".toList part → ¬Timestamp.Faulty part) ∧
      ParsesSpans Timestamp "[2000-01-01,2000-01-02]") ∧
    ((∀ part, '@' :: part <:+: "POINT(1 2)@2000-01-01".toList → ¬Timestamp.Faulty part) ∧
      (∀ part, Piece "POINT(1 2)@2000-01-01".toList part → ¬BreaksAt "SRID=" (trim part)) ∧
      ¬Timestamp.FarApart "POINT(1 2)@2000-01-01".toList ∧
      GivenUpAtOptions Point "POINT(1 2)@2000-01-01") ∧
    (remarkAtStart "αβγ").WellFormed ∧ (remarkAtStart "αβγ").InCalendar ∧
      Completes (Temporal.parse ((remarkAtStart "αβγ").text usualPlaces) :
        Result (Temporal String)) := by
  have hspan : ∀ part, part <:+: "[2000-01-01,2000-01-02]".toList →
      Timestamp.read part ≠ .error .aborted := forall_isInfix (by decide +kernel)
  have htime : ∀ part, part <:+: "POINT(1 2)@2000-01-01".toList →
      Timestamp.read part ≠ .error .aborted := forall_isInfix (by decide +kernel)
  have hpoint : ∀ part, part <:+: "POINT(1 2)@2000-01-01".toList →
      ¬BreaksAt "SRID=" (trim part) := forall_isInfix (by decide +kernel)
  have hnear : ¬Timestamp.FarApart "POINT(1 2)@2000-01-01".toList := by
    have hread : ∀ part, part <:+: "POINT(1 2)@2000-01-01".toList → part.head? = some '@' →
        ∀ t ∈ (Timestamp.read part.tail).toOption, t = .nearest 0 :=
      forall_isInfix (by decide +kernel)
    have hwritten : ∀ t, Timestamp.Written "POINT(1 2)@2000-01-01".toList t → t = .nearest 0 := by
      rintro t ⟨part, hpart, ht⟩
      refine hread _ hpart rfl t ?_
      rw [List.tail_cons, ht]
      rfl
    rintro ⟨t, u, ht, hu, hfar⟩
    rw [hwritten t ht, hwritten u hu] at hfar
    exact hfar (by decide)
  have hbounds : ∀ part, Piece "[2000-01-01,2000-01-02]".toList part → ¬Timestamp.Faulty part :=
    fun part hpart => Timestamp.completes_read.mp (hspan part hpart.isInfix)
  have htimes : ∀ part, '@' :: part <:+: "POINT(1 2)@2000-01-01".toList →
      ¬Timestamp.Faulty part := fun part hpart =>
    Timestamp.completes_read.mp (htime part ((List.suffix_cons '@' part).isInfix.trans hpart))
  obtain ⟨-, hspans, -, -⟩ :=
    parsing_completes "[2000-01-01,2000-01-02]" (remarkAtStart "αβγ") usualPlaces
  obtain ⟨-, -, hinstants, hremark⟩ :=
    parsing_completes "POINT(1 2)@2000-01-01" (remarkAtStart "αβγ") usualPlaces
  refine ⟨⟨hbounds, (hspans hbounds).1⟩,
    ⟨htimes, fun part hpart => hpoint part hpart.isInfix, hnear, ?_⟩,
    wellFormed_remarkAtStart _, inCalendar_remarkAtStart _, ?_⟩
  · exact ((hinstants htimes).2.2.2 hnear).2.2 fun part hpart => hpoint part hpart.isInfix
  · rw [Completes, Ne, hremark (wellFormed_remarkAtStart _) (inCalendar_remarkAtStart _),
      toList_remarkAtStart]
    decide +kernel

/-- Of each exception there is a text, the printed form of a remark among them: the fifth byte lies
inside its fourth letter. The last one goes up through four hundred thousand years. -/
theorem broken_texts_given_up :
    ((remarkAtStart "aaaé").text usualPlaces = "\"aaaé\"@2000-01-01 00:00:00+00" ∧
      (remarkAtStart "aaaé").InCalendar ∧
      (Temporal.parse "\"aaaé\"@2000-01-01 00:00:00+00" : Result (Temporal String)) =
        .error .aborted) ∧
    Timestamp.parse "2000-01-01 00:00+1é2" = .error .aborted ∧
    Timestamp.parse "+262142-12-31 23:59:59-01" = .error .aborted ∧
    Point.parse "POINé" = .error .aborted ∧
    TBox.parse "TBOé" = .error .aborted ∧ STBox.parse "STBOé" = .error .aborted ∧
    (Temporal.parse "[1@-200000-01-01, 2@2000-01-01, 3@+200000-01-01]" :
      Result (Temporal Float)) = .error .aborted := by
  have htext : (remarkAtStart "aaaé").text usualPlaces = "\"aaaé\"@2000-01-01 00:00:00+00" := by
    rw [← String.toList_inj, toList_remarkAtStart]
    decide +kernel
  have hremark : (Temporal.parse "\"aaaé\"@2000-01-01 00:00:00+00" : Result (Temporal String)) =
      .error .aborted := by
    rw [← htext]
    apply (Temporal.parse_text_eq_aborted (wellFormed_remarkAtStart _)
      (inCalendar_remarkAtStart _) usualPlaces).mpr
    rw [htext]
    exact .inl (by decide +kernel)
  refine ⟨⟨htext, inCalendar_remarkAtStart _, hremark⟩, by decide +kernel, by decide +kernel,
    Point.read_eq_aborted.mpr (by decide +kernel), ?_, ?_, ?_⟩
  · exact reported_eq_aborted.mpr (bind_eq_aborted.mpr
      (.inl (dropWord_eq_aborted.mpr (by decide +kernel))))
  · exact reported_eq_aborted.mpr (bind_eq_aborted.mpr
      (.inl (splitSrid_eq_aborted.mpr (by decide +kernel))))
  · exact (map_eq_error (f := fun _ => ())).mp (by decide +kernel)

end TemporalAlgebra
