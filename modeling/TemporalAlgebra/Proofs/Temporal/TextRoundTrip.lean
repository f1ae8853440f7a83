import TemporalAlgebra.Proofs.Temporal.Canonical
import TemporalAlgebra.Proofs.Temporal.Completion
import TemporalAlgebra.Proofs.Temporal.Text

/-!
# Temporal values read back from their text

What is read is canonical, and its text says all of it: the form and the interpolation by the
brackets, the bounds, the instants and the values. A value that was read is therefore read back
from its text unchanged.
-/
namespace TemporalAlgebra

variable {V : Type} [TemporalValue V]

section Writing

variable [LegibleValue V]

namespace Instant

lemma text_starts (i : Instant V) (places : Nat) : ∃ c rest,
    (i.text places).toList = c :: rest ∧ isValueStart c = true := by
  obtain ⟨c, rest, htext, hc⟩ := LegibleValue.starts i.value places
  exact ⟨c, rest ++ '@' :: i.time.text.toList, by rw [toList_text, htext, List.cons_append], hc⟩

variable {i : Instant V} (h : i.time.InCalendar) (places : Nat)
include h

lemma part_text : Text.Part (i.text places).toList := by
  obtain ⟨c, rest, htext, hc⟩ := i.text_starts places
  have htime : Text.Balanced ('@' :: i.time.text.toList) :=
    Text.balanced_of_neutral (List.forall_mem_cons.mpr
      ⟨rfl, fun c hc => (Timestamp.text_chars h c hc).2.1⟩)
  refine ⟨?_, ⟨?_, ?_⟩, ?_⟩
  · rw [toList_text]
    exact (LegibleValue.balanced i.value places).append htime
  · rw [htext]
    exact fun d hd => Option.some.inj hd ▸ (isValueStart_iff.mp hc).1.1
  · rw [toList_text, List.append_cons,
      List.getLast?_append_of_ne_nil _ (Timestamp.text_ne_nil h)]
    exact (Timestamp.tight_text h).last
  · rw [htext]
    exact List.cons_ne_nil _ _

/-- An instant is read back from its text: no `@` follows the one before the timestamp. -/
lemma read_text (context : ValueContext) : read context (i.text places).toList = .ok i := by
  have hmark : '@' ∉ i.time.text.toList := fun hmem =>
    (Timestamp.text_chars h _ hmem).2.2.1 rfl
  unfold read
  rw [toList_text, Text.splitLast_append hmark]
  change (do
    let value ← BaseValue.read context (BaseValue.text i.value places).toList
    let time ← Timestamp.read i.time.text.toList
    return ⟨value, time⟩ : Result (Instant V)) = _
  rw [bind_of_ok (LegibleValue.reads i.value places context),
    bind_of_ok (Timestamp.read_text h)]
  rfl

end Instant

namespace Sequence

lemma opens_inner (s : Sequence V) (places : Nat) :
    (Text.trimStart (s.inner places)).head?.bind Span.openingInc? = none := by
  obtain ⟨c, rest, htext, hstart⟩ := s.first.text_starts places
  obtain ⟨⟨hblank, hopening⟩, -⟩ := isValueStart_iff.mp hstart
  have hhead : (s.inner places).head? = some c := by
    change (Text.together ((s.first.text places).toList :: _)).head? = some c
    rw [htext, Text.head?_together (List.cons_ne_nil _ _)]
    rfl
  rw [Text.trimStart_eq_self fun d hd => Option.some.inj (hhead.symm.trans hd) ▸ hblank, hhead,
    Option.bind_some]
  exact Temporal.openingInc?_eq_none hopening

variable {s : Sequence V} (h : ∀ i ∈ s.instants, i.time.InCalendar) (places : Nat)
include h

lemma part_bareText : Text.Part (s.bareText places).toList := by
  refine ⟨?_, s.tight_bareText places, ?_⟩
  · rw [toList_bareText]
    apply Text.Nested.balanced s.isOpening_opening s.isClosing_closing
    exact Text.nested_together
      (List.forall_mem_map.mpr fun i hi => (Instant.part_text (h i hi) places).balanced)
  · rw [toList_bareText]
    exact List.append_ne_nil_of_left_ne_nil (List.cons_ne_nil _ _) _

lemma readAll_inner (context : ValueContext) :
    Instant.readAll context (s.inner places) = .ok s.instants := by
  obtain ⟨hsplit, hread⟩ := Text.read_together (List.cons_ne_nil s.first s.rest)
    (fun i hi => Instant.part_text (h i hi) places)
    fun i hi => Instant.read_text (h i hi) places context
  unfold Instant.readAll
  exact (bind_of_ok hsplit).trans hread

lemma read_bareText [StepValue V] (hc : s.Canonical) (hd : s.isDiscrete = false)
    (context : ValueContext) : read .step context (s.bareText places).toList = .ok s := by
  have hhead : (s.opening :: s.inner places ++ [s.closing]).head?.bind Span.openingInc? =
      some s.lowerInc := openingInc?_opening hd
  have hlast : (s.opening :: s.inner places ++ [s.closing]).getLast?.bind Span.closingInc? =
      some s.upperInc := by
    rw [List.getLast?_concat]
    exact closingInc?_closing hd
  have hstep : s.interp = .step := Temporal.WellFormed.interp_eq_step (v := .sequence s)
    hc.wellFormed hd
  have hmake := hc.make_eq
  rw [hstep] at hmake
  unfold read
  dsimp only
  rw [(s.tight_bareText places).trim_eq, toList_bareText, bind_of_ok (orRefuse_eq_ok.mpr hhead),
    bind_of_ok (orRefuse_eq_ok.mpr hlast)]
  change (Instant.readAll context (s.inner places ++ [s.closing]).dropLast >>= _) = _
  rw [List.dropLast_concat, bind_of_ok (readAll_inner h places context)]
  exact hmake

end Sequence

namespace Temporal

lemma plain_bareText {v : Temporal V} (h : v.InCalendar) (places : Nat) :
    Plain (v.bareText places) := by
  have hopening (s : Sequence V) : startsNoOption s.opening = true := by
    rcases Text.isOpening_iff.mp s.isOpening_opening with h | h | h <;> rw [h] <;> decide
  cases v with
  | instant i =>
    obtain ⟨c, rest, htext, hc⟩ := i.text_starts places
    have hpart := Instant.part_text (h i (List.mem_singleton_self i)) places
    refine ⟨hpart.ne_nil, hpart.tight, ?_⟩
    rw [bareText, htext]
    exact fun d hd => Option.some.inj hd ▸ (isValueStart_iff.mp hc).2
  | sequence s =>
    have hpart := Sequence.part_bareText h places
    refine ⟨hpart.ne_nil, hpart.tight, ?_⟩
    rw [bareText, Sequence.toList_bareText]
    exact fun d hd => Option.some.inj hd ▸ hopening s
  | sequenceSet s =>
    refine ⟨List.append_ne_nil_of_left_ne_nil (List.cons_ne_nil _ _) _,
      Text.tight_brackets rfl rfl _, fun d hd => ?_⟩
    rw [← Option.some.inj hd]
    decide

lemma bare_bareText {v : Temporal V} (h : ∀ i ∈ v.instants, i.Legible) (places : Nat) :
    Bare (v.bareText places) := by
  refine ⟨plain_bareText (fun i hi => (h i hi).time) places, ?_⟩
  cases v with
  | instant i => exact (h i (List.mem_singleton_self i)).ascii_text places
  | sequence s => exact Sequence.ascii_bareText h places
  | sequenceSet s =>
    have hinner : ∀ c ∈ s.inner places, c.toNat < 128 :=
      Text.together_chars (by decide) (by decide) (List.forall_mem_map.mpr fun x hx =>
        Sequence.ascii_bareText (fun i hi => h i (mem_instants_iff.mpr ⟨x, hx, hi⟩)) places)
    rw [bareText, List.forall_mem_append, List.forall_mem_cons]
    exact ⟨⟨by decide, hinner⟩, List.forall_mem_singleton.mpr (by decide)⟩

/-- Instants come between the braces if no bracket comes first. -/
lemma readBraced_instants [StepValue V] {s : Sequence V} (hc : s.Canonical)
    (h : ∀ i ∈ s.instants, i.time.InCalendar) (hd : s.isDiscrete = true) (places : Nat)
    (interp : Interpolation) (context : ValueContext) :
    readBraced interp context (s.inner places) = .ok (sequence s) := by
  have hi := Sequence.isDiscrete_iff.mp hd
  obtain ⟨hl, hu⟩ := (Sequence.wellFormed_iff.mp hc.wellFormed).closed (Or.inr hi)
  have hmake := hc.make_eq
  rw [hi, hl, hu] at hmake
  unfold readBraced
  rw [s.opens_inner, if_neg (by simp), bind_of_ok (Sequence.readAll_inner h places context),
    bind_of_ok hmake]
  rfl

/-- Sequences come between the braces if a bracket comes first. -/
lemma readBraced_sequences [StepValue V] {s : SequenceSet V} (hc : s.Canonical)
    (h : ∀ x ∈ s.sequences, ∀ i ∈ x.instants, i.time.InCalendar) (places : Nat)
    (context : ValueContext) : readBraced .step context (s.inner places) = .ok (sequenceSet s) := by
  have hcontinuous : ∀ x ∈ s.sequences, x.isDiscrete = false := fun x hx =>
    ((SequenceSet.checkKinds_eq_ok_iff.mp hc.wellFormed.kinds) x hx).2
  have hne : s.sequences ≠ [] := List.cons_ne_nil _ _
  obtain ⟨hsplit, hread⟩ := Text.read_together hne
    (fun x hx => Sequence.part_bareText (h x hx) places) fun x hx =>
      Sequence.read_bareText (h x hx) places (hc.sequences x hx) (hcontinuous x hx) context
  unfold readBraced
  rw [SequenceSet.opens_inner (hcontinuous s.first (List.mem_cons_self ..)), Option.isSome_some,
    if_pos rfl]
  unfold SequenceSet.inner
  rw [bind_of_ok hsplit, bind_of_ok hread]
  exact bind_of_ok hc.make_eq

/-- A value is read back from its text. -/
theorem read_bareText [StepValue V] {v : Temporal V} (hc : v.Canonical)
    (h : ∀ i ∈ v.instants, i.Legible) (places : Nat) : read (v.bareText places) = .ok v := by
  have hbare := bare_bareText h places
  have hplain := hbare.toPlain
  have htimes : v.InCalendar := fun i hi => (h i hi).time
  cases v with
  | instant i =>
    obtain ⟨c, rest, htext, hstart⟩ := i.text_starts places
    rw [hplain.read_value hbare.split_eq htext (isValueStart_iff.mp hstart).1.2]
    exact map_eq_ok.mpr
      ⟨i, Instant.read_text (htimes i (List.mem_singleton_self i)) places .plain, rfl⟩
  | sequence s =>
    cases hd : s.isDiscrete with
    | true =>
      rw [hplain.read_braces hbare.split_eq (Sequence.toList_bareText_discrete hd places)]
      exact readBraced_instants hc htimes hd places _ _
    | false =>
      have hopening : (Span.openingInc? s.opening).isSome = true := by
        rw [Sequence.openingInc?_opening hd]
        rfl
      rw [hplain.read_brackets hbare.split_eq (s.toList_bareText places) hopening]
      exact map_eq_ok.mpr ⟨s, Sequence.read_bareText htimes places hc hd .plain, rfl⟩
  | sequenceSet s =>
    rw [hplain.read_braces hbare.split_eq rfl]
    exact readBraced_sequences hc
      (fun x hx i hi => htimes i (mem_instants_iff.mpr ⟨x, hx, hi⟩)) places _

end Temporal

end Writing

section Reading

variable {cs : List Char} {context : ValueContext}

lemma Instant.readFrom_of_read {i : Instant V} (h : read context cs = .ok i) :
    BaseValue.ReadFrom cs i.value := by
  unfold read at h
  simp only [bind_eq_ok, pure_eq_ok, orRefuse_eq_ok] at h
  obtain ⟨⟨before, after⟩, hsplit, x, hx, t, -, rfl⟩ := h
  have hbefore : before ⊆ cs := by
    rw [Text.splitLast_eq_append hsplit]
    exact List.subset_append_left _ _
  exact ⟨context, before, hbefore, hx⟩

lemma Instant.readFrom_of_readAll {instants : List (Instant V)}
    (h : readAll context cs = .ok instants) : ∀ i ∈ instants, BaseValue.ReadFrom cs i.value := by
  unfold readAll at h
  rw [bind_eq_ok] at h
  obtain ⟨parts, hparts, hread⟩ := h
  intro i hi
  obtain ⟨part, hpart, hi⟩ := mem_of_mapM_eq_ok hread hi
  exact (readFrom_of_read hi).mono (Text.Piece.splitTopLevel hparts part hpart).subset

variable [StepValue V]

/-- A sequence that is read is canonical and has no values but those that are read. -/
lemma Sequence.spec_of_read {interp : Interpolation} {s : Sequence V}
    (h : read interp context cs = .ok s) :
    s.Canonical ∧ ∀ i ∈ s.instants, BaseValue.ReadFrom cs i.value := by
  unfold read at h
  simp only [bind_eq_ok] at h
  obtain ⟨lowerInc, -, upperInc, -, instants, hinstants, hmake⟩ := h
  refine ⟨canonical_of_make hmake, fun i hi => ?_⟩
  refine (Instant.readFrom_of_readAll hinstants i (instants_subset_of_make hmake i hi)).mono ?_
  intro c hc
  exact (Text.isInfix_trim cs).subset (List.mem_of_mem_drop (List.dropLast_subset _ hc))

namespace Temporal

lemma spec_of_readBraced {interp : Interpolation} {v : Temporal V}
    (h : readBraced interp context cs = .ok v) :
    v.Canonical ∧ ∀ i ∈ v.instants, BaseValue.ReadFrom cs i.value := by
  unfold readBraced at h
  split at h
  · simp only [bind_eq_ok, pure_eq_ok] at h
    obtain ⟨parts, hparts, sequences, hsequences, set, hmake, rfl⟩ := h
    have hspec : ∀ x ∈ sequences,
        x.Canonical ∧ ∀ i ∈ x.instants, BaseValue.ReadFrom cs i.value := by
      intro x hx
      obtain ⟨part, hpart, hread⟩ := mem_of_mapM_eq_ok hsequences hx
      obtain ⟨hcanonical, hfrom⟩ := Sequence.spec_of_read hread
      exact ⟨hcanonical, fun i hi =>
        (hfrom i hi).mono (Text.Piece.splitTopLevel hparts part hpart).subset⟩
    refine ⟨SequenceSet.canonical_of_make (fun x hx => (hspec x hx).1) hmake, fun i hi => ?_⟩
    obtain ⟨x, hx, hi⟩ := mem_instants_iff.mp hi
    obtain ⟨piece, hpiece, hi⟩ := SequenceSet.instants_subset_of_make
      (fun x hx => (hspec x hx).1.wellFormed) hmake x hx i hi
    exact (hspec piece hpiece).2 i hi
  · simp only [bind_eq_ok, pure_eq_ok] at h
    obtain ⟨instants, hinstants, s, hmake, rfl⟩ := h
    exact ⟨Sequence.canonical_of_make hmake, fun i hi =>
      Instant.readFrom_of_readAll hinstants i (Sequence.instants_subset_of_make hmake i hi)⟩

/-- A value that is read is canonical and has no values but those that are read. -/
lemma spec_of_read {v : Temporal V} (h : read cs = .ok v) :
    v.Canonical ∧ ∀ i ∈ v.instants, BaseValue.ReadFrom cs i.value := by
  unfold read at h
  rw [bind_eq_ok] at h
  obtain ⟨⟨options, body⟩, hsplit, h⟩ := h
  have hpiece := (Text.Piece.trimStart cs).trans
    (TextOptions.split_piece (Text.trimStart_trimStart cs) hsplit)
  have hbody : Text.trim body ⊆ cs := (hpiece.trans (Text.Piece.trim body)).subset
  dsimp only at h
  split at h
  · exact absurd h refuse_ne_ok
  · next rest htext =>
    rw [bind_eq_ok] at h
    obtain ⟨inner, hinner, h⟩ := h
    obtain ⟨hcanonical, hfrom⟩ := spec_of_readBraced h
    exact ⟨hcanonical, fun i hi =>
      (hfrom i hi).mono (List.Subset.trans (Text.Piece.stripBraces hinner).subset hbody)⟩
  · next c rest _ htext =>
    split at h
    · simp only [bind_eq_ok, pure_eq_ok] at h
      obtain ⟨s, hs, rfl⟩ := h
      obtain ⟨hcanonical, hfrom⟩ := Sequence.spec_of_read hs
      exact ⟨hcanonical, fun i hi => (hfrom i hi).mono hbody⟩
    · simp only [bind_eq_ok, pure_eq_ok] at h
      obtain ⟨i, hi, rfl⟩ := h
      exact ⟨trivial, List.forall_mem_singleton.mpr ((Instant.readFrom_of_read hi).mono hbody)⟩

end Temporal

end Reading

namespace Temporal

lemma parse_text [LegibleValue V] [StepValue V] {input : String} {v : Temporal V}
    (h : parse input = .ok v) (hcalendar : v.InCalendar)
    (hascii : ∀ i ∈ v.instants, BaseValue.Ascii i.value) (places : Nat) :
    parse (v.text places) = .ok v := by
  have hcanonical := (spec_of_read (reported_eq_ok.mp h)).1
  apply reported_eq_ok.mpr
  rw [toList_text (LegibleValue.srid_eq _)]
  exact read_bareText hcanonical (fun i hi => ⟨hcalendar i hi, hascii i hi⟩) places

/-- Texts over time have no characters but those of the text that they were read from. -/
lemma values_subset_of_parse {input : String} {v : Temporal String} (h : parse input = .ok v) :
    ∀ i ∈ v.instants, i.value.toList ⊆ input.toList := fun i hi =>
  subset_of_readFrom ((spec_of_read (reported_eq_ok.mp h)).2 i hi)

/-- Truth values, integers and texts over time are read back from their printed form unchanged,
whatever text they were read from. Texts are to be read from ASCII characters or to consist of
them. -/
theorem printed_form_round_trip (places : Nat) :
    (∀ (input : String) (v : Temporal Bool),
      parse input = .ok v → v.InCalendar → parse (v.text places) = .ok v) ∧
    (∀ (input : String) (v : Temporal Integer),
      parse input = .ok v → v.InCalendar → parse (v.text places) = .ok v) ∧
    ∀ (input : String) (v : Temporal String), parse input = .ok v → v.InCalendar →
      ((∀ c ∈ input.toList, c.toNat < 128) ∨
        ∀ i ∈ v.instants, ∀ c ∈ i.value.toList, c.toNat < 128) →
      parse (v.text places) = .ok v := by
  refine ⟨fun input v h hcalendar => ?_, fun input v h hcalendar => ?_,
    fun input v h hcalendar hascii => ?_⟩
  · exact parse_text h hcalendar (fun i _ => ascii_truth i.value) places
  · exact parse_text h hcalendar (fun i _ => ascii_integer i.value) places
  · have hvalues : ∀ i ∈ v.instants, ∀ c ∈ i.value.toList, c.toNat < 128 := by
      rcases hascii with hinput | hvalues
      · exact fun i hi c hc => hinput c (values_subset_of_parse h i hi hc)
      · exact hvalues
    exact parse_text h hcalendar (fun i hi => ascii_string (hvalues i hi)) places

/-- Two days of truth, as the only sequence of a set. -/
def twoDaysOn : Temporal Bool :=
  .sequenceSet
    (.ofRun (.ofRun ⟨true, .nearest 0⟩ [⟨false, .nearest 172800000000⟩] true true .step) [])

def openCount : Temporal Integer :=
  .sequence (.ofRun ⟨.clamp (-12), .nearest 1800500000⟩
    [⟨.clamp 7, .nearest 86400000000⟩, ⟨.clamp 7, .nearest 172800000000⟩] true false .step)

/-- A remark with marks in it that mean something outside its quotes. -/
def remark : Temporal String :=
  .sequence (.ofRun ⟨"say \"hi\", [x]@\\", .nearest 0⟩ [] true true .discrete)

/-- Texts that are not in the printed form are read, and the printed form of what they say is read
back. -/
theorem samples_read_back :
    (parse "\x7b[t@2000-01-01, True@2000-01-02], (t@2000-01-02, f@2000-01-03]\x7d" = .ok twoDaysOn ∧
      twoDaysOn.InCalendar ∧ parse (twoDaysOn.text 0) = .ok twoDaysOn) ∧
    (parse "[-12@2000-01-01 02:30:00.50+02, 7@2000-01-02, 7@2000-01-03)" = .ok openCount ∧
      openCount.InCalendar ∧ parse (openCount.text 0) = .ok openCount) ∧
    parse "\x7b \"say \\\"hi\\\", [x]@\\\\\"@2000-01-01 \x7d" = .ok remark ∧
      remark.InCalendar ∧ parse (remark.text 0) = .ok remark := by
  have hon : parse "\x7b[t@2000-01-01, True@2000-01-02], (t@2000-01-02, f@2000-01-03]\x7d" =
      .ok twoDaysOn := by
    unfold parse read
    rw [bind_of_ok (TextOptions.split_eq_self (by decide) (by decide) _ _)]
    rfl
  have hcount : parse "[-12@2000-01-01 02:30:00.50+02, 7@2000-01-02, 7@2000-01-03)" =
      .ok openCount := by
    unfold parse read
    rw [bind_of_ok (TextOptions.split_eq_self (by decide) (by decide) _ _)]
    rfl
  have hremark : parse "\x7b \"say \\\"hi\\\", [x]@\\\\\"@2000-01-01 \x7d" = .ok remark := by
    unfold parse read
    rw [bind_of_ok (TextOptions.split_eq_self (by decide) (by decide) _ _)]
    rfl
  have hascii : ("\x7b \"say \\\"hi\\\", [x]@\\\\\"@2000-01-01 \x7d".toList.all
      fun c => decide (c.toNat < 128)) = true := by decide
  have hdays : twoDaysOn.InCalendar :=
    (by decide : ∀ i ∈ twoDaysOn.instants, i.time.InCalendar)
  have hcounted : openCount.InCalendar :=
    (by decide : ∀ i ∈ openCount.instants, i.time.InCalendar)
  have hremarked : remark.InCalendar := (by decide : ∀ i ∈ remark.instants, i.time.InCalendar)
  exact ⟨⟨hon, hdays, (printed_form_round_trip 0).1 _ _ hon hdays⟩,
    ⟨hcount, hcounted, (printed_form_round_trip 0).2.1 _ _ hcount hcounted⟩,
    hremark, hremarked, (printed_form_round_trip 0).2.2 _ _ hremark hremarked
      (.inl fun c hc => of_decide_eq_true (List.all_eq_true.mp hascii c hc))⟩

end Temporal

end TemporalAlgebra
