import TemporalAlgebra.Proofs.Temporal.Appending
import TemporalAlgebra.Proofs.Temporal.Derivation
import TemporalAlgebra.Proofs.Temporal.Lifting
import TemporalAlgebra.Proofs.Temporal.Updating
import TemporalAlgebra.Temporal.Arithmetic
import TemporalAlgebra.Temporal.Delete
import TemporalAlgebra.Temporal.Letters
import TemporalAlgebra.Temporal.Logic

/-!
# Soundness is preserved

Whatever is made from sound values is sound: by appending to them, merging, inserting, replacing and
deleting, restricting, changing the interpolation, mapping and lifting.
-/
namespace TemporalAlgebra

variable {V : Type} [TemporalValue V]

namespace Sequence

section

variable [StepValue V]

/-- What sequences of steps are settled to stays sound; one that loses its first place has its box
computed anew. -/
lemma returns_settle {a : Sequence V} {rest : List (Sequence V)}
    (h : ∀ s ∈ a :: rest, s.Sound) (hi : ∀ s ∈ a :: rest, s.interp = .step) :
    Returns (∀ s ∈ ·, s.Sound) (settle a rest) := by
  induction rest generalizing a with
  | nil => exact Returns.ok h
  | cons b rest ih =>
    rw [List.forall_mem_cons, List.forall_mem_cons] at h hi
    obtain ⟨ha, hb, hrest⟩ := h
    obtain ⟨hia, hib, hirest⟩ := hi
    have hadd : ∀ {next : Sequence V}, next.Sound → next.interp = .step →
        Returns (∀ s ∈ ·, s.Sound) (do return a :: (← settle next rest)) := by
      intro next hn hin
      refine Returns.bind (ih (List.forall_mem_cons.mpr ⟨hn, hrest⟩)
        (List.forall_mem_cons.mpr ⟨hin, hirest⟩)) fun found hfound => ?_
      exact Returns.ok (List.forall_mem_cons.mpr ⟨ha, hfound⟩)
    refine Returns.after fun _ => ?_
    split
    · refine Returns.after fun _ => ?_
      split
      · exact ih (List.forall_mem_cons.mpr ⟨ha, hrest⟩) (List.forall_mem_cons.mpr ⟨hia, hirest⟩)
      · rename_i hne
        have hopened : b.opened.Stepped :=
          Stepped.opened ⟨hb.wellFormed, hib⟩ fun hn => hne (List.isEmpty_iff.mpr hn)
        exact hadd (sound_rebox hopened.wellFormed) hopened.interp_eq
    · exact hadd hb hib

end

section

variable [LawfulValue V]

lemma returns_bridge {interp : Interpolation} {a : Tagged V} {rest : List (Tagged V)}
    (h : ∀ t ∈ a :: rest, t.sequence.Sound) :
    Returns (∀ s ∈ ·, s.Sound) (bridge interp a rest) := by
  induction rest generalizing a with
  | nil => exact Returns.ok (List.forall_mem_singleton.mpr (h a (List.mem_cons_self ..)))
  | cons b rest ih =>
    rw [List.forall_mem_cons, List.forall_mem_cons] at h
    obtain ⟨ha, hb, hrest⟩ := h
    unfold bridge
    dsimp only
    split
    · refine Returns.after fun _ => Returns.bind (returns_makeRun _ _ _ _ _ _) ?_
      intro joined hjoined
      exact ih (List.forall_mem_cons.mpr ⟨hjoined, hrest⟩)
    · refine Returns.bind (ih (List.forall_mem_cons.mpr ⟨hb, hrest⟩)) fun found hfound => ?_
      exact Returns.ok (List.forall_mem_cons.mpr ⟨ha, hfound⟩)

lemma returns_adopt {interp : Interpolation} {s : Sequence V} (h : s.Sound) :
    Returns Sound (s.adopt interp) := by
  unfold adopt
  split
  · exact Returns.ok h
  · exact returns_makeRun _ _ _ _ _ _

lemma returns_withoutPeriods (s : Sequence V) (times : PeriodSet) :
    Returns (∀ x ∈ ·, x.Sound) (s.withoutPeriods times) := by
  unfold withoutPeriods
  dsimp only
  split
  · exact Returns.nothing
  · split
    · exact Returns.nothing
    · exact Returns.asFound (f := id) (returns_makeRun _ _ _ _ _ _)

end

end Sequence

namespace Temporal

open Sequence

section

variable [StepValue V]

lemma returns_mergeDiscrete (values : List (Temporal V)) :
    Returns Sound (mergeDiscrete values) := by
  unfold mergeDiscrete
  split
  · exact Returns.refuse _
  · refine Returns.after fun found => ?_
    split
    · exact Returns.ok (p := Sound) trivial
    · exact returns_sequence (returns_make _ _ _ _ _)

lemma returns_mergeSequences {pieces : List (Sequence V)} (h : ∀ s ∈ pieces, s.Sound)
    (hi : ∀ s ∈ pieces, s.interp = .step) : Returns Sound (mergeSequences .step pieces) := by
  refine Returns.after fun _ => ?_
  have hsorted : ∀ s ∈ Sequence.sort pieces, s ∈ pieces := fun s hs => List.mem_mergeSort.mp hs
  split
  · exact returns_ofSequences (by simp)
  · rename_i first rest hsort
    rw [hsort] at hsorted
    exact Returns.bind (returns_settle (fun s hs => h s (hsorted s hs))
      fun s hs => hi s (hsorted s hs)) fun _ hfound => returns_ofSequences hfound

variable [BoundedValue V]

lemma Sound.stepPieces {v : Temporal V} (h : v.Sound) : ∀ s ∈ v.stepPieces, s.Sound := by
  cases v with
  | instant i => exact List.forall_mem_singleton.mpr (sound_ofInstant i (by simp))
  | sequence s => exact List.forall_mem_singleton.mpr h
  | sequenceSet s => exact SequenceSet.Sound.sequences h

lemma returns_mergeAll {values : List (Temporal V)} (h : ∀ v ∈ values, v.Sound) :
    Returns Sound (mergeAll values) := by
  intro m hm
  have hwf := fun v hv => (h v hv).wellFormed
  by_cases hc : ∃ v ∈ values, v.isDiscrete = false
  · obtain ⟨hmergeable, hok⟩ := (mergeAll_continuous hwf hc).mp hm
    refine returns_mergeSequences (fun s hs => ?_) (fun s hs => ?_) m hok
    · obtain ⟨v, hv, hs⟩ := List.mem_flatMap.mp hs
      exact (h v hv).stepPieces s hs
    · obtain ⟨v, hv, hs⟩ := List.mem_flatMap.mp hs
      exact (stepped_of_mem_stepPieces (hwf v hv) (hmergeable v hv) s hs).interp_eq
  · have hd : ∀ v ∈ values, v.isDiscrete = true := by simpa using hc
    rw [mergeAll_discrete (ne_nil_of_mergeAll hm) hd] at hm
    exact returns_mergeDiscrete values m hm

variable {a b v : Temporal V}

lemma returns_merge (ha : a.Sound) (hb : b.Sound) : Returns Sound (merge a b) :=
  Returns.reported (returns_mergeAll
    (List.forall_mem_cons.mpr ⟨ha, List.forall_mem_singleton.mpr hb⟩))

lemma returns_appendSequence (h : v.Sound) {s : Sequence V} (hs : s.Sound) :
    Returns Sound (v.appendSequence s) := by
  have hboth : ∀ w ∈ [v, sequence s], w.Sound :=
    List.forall_mem_cons.mpr ⟨h, List.forall_mem_singleton.mpr hs⟩
  exact Returns.reported (Returns.after fun _ => Returns.after fun _ => Returns.after fun _ =>
    returns_mergeAll hboth)

lemma returns_insert (ha : a.Sound) (hb : b.Sound) (connecting : Bool) :
    Returns Sound (a.insert b connecting) := by
  have hboth : ∀ v ∈ [a, b], v.Sound :=
    List.forall_mem_cons.mpr ⟨ha, List.forall_mem_singleton.mpr hb⟩
  have htagged : ∀ t ∈ tagged a b, t.sequence.Sound := by
    have hsequences : ∀ s ∈ a.sequences ++ b.sequences, s.Sound :=
      List.forall_mem_append.mpr ⟨ha.sequences, hb.sequences⟩
    rw [← tagged_sequences, List.forall_mem_map] at hsequences
    exact hsequences
  refine Returns.reported (Returns.bind (returns_mergeAll hboth) fun merged hmerged => ?_)
  split
  · exact Returns.ok hmerged
  · refine Returns.bind (Returns.mapM (q := fun t => t.sequence.Sound) fun t ht => ?_)
      fun adopted hadopted => ?_
    · have ht := htagged t (List.mem_mergeSort.mp ht)
      exact Returns.bind (returns_adopt ht) fun s hs => Returns.ok hs
    · split
      · exact Returns.ok hmerged
      · refine Returns.bind (returns_bridge hadopted) fun found hfound => ?_
        exact returns_mergeAll (List.forall_mem_map.mpr hfound)

lemma returns_minusPeriods (h : v.Sound) (times : PeriodSet) :
    Returns (∀ w ∈ ·, w.Sound) (v.minusPeriods times) :=
  Returns.reported (returns_outsidePeriods h times)

lemma returns_update (ha : a.Sound) (hb : b.Sound) (connecting : Bool) :
    Returns Sound (a.update b connecting) := by
  refine Returns.bind (returns_minusPeriods ha b.time) fun left hleft => ?_
  split
  · exact returns_insert (hleft _ rfl) hb connecting
  · exact Returns.ok hb

lemma returns_deletePeriods (h : v.Sound) (times : PeriodSet) (connecting : Bool) :
    Returns (∀ w ∈ ·, w.Sound) (v.deletePeriods times connecting) := by
  unfold deletePeriods
  split
  · exact returns_minusPeriods h times
  · refine Returns.reported (Returns.bind (Returns.mapM fun s _ => returns_withoutPeriods s times)
      fun found hfound => ?_)
    exact returns_ofPieces (forall_mem_parts hfound)

lemma returns_atValue (h : v.Sound) (x : V) : Returns (∀ w ∈ ·, w.Sound) (v.atValue x) :=
  Returns.reported (Returns.after fun _ => returns_atFilter h _)

lemma returns_minusValue (h : v.Sound) (x : V) : Returns (∀ w ∈ ·, w.Sound) (v.minusValue x) :=
  Returns.reported (Returns.after fun _ => returns_minusFilter h _)

lemma returns_atValues (h : v.Sound) (xs : List V) :
    Returns (∀ w ∈ ·, w.Sound) (v.atValues xs) :=
  Returns.reported (Returns.after fun _ => returns_atFilter h _)

lemma returns_minusValues (h : v.Sound) (xs : List V) :
    Returns (∀ w ∈ ·, w.Sound) (v.minusValues xs) :=
  Returns.reported (Returns.after fun _ => returns_minusFilter h _)

end

section

variable {V : Type} [NumericValue V] [StepValue V] [BoundedValue V] {a v : Temporal V}

lemma returns_atSpans (h : v.Sound) (s : SpanSet Float) :
    Returns (∀ w ∈ ·, w.Sound) (v.atSpans s) := by
  unfold atSpans
  split
  · exact Returns.nothing
  · exact Returns.reported (returns_atFilter h _)

lemma returns_minusSpans (h : v.Sound) (s : SpanSet Float) :
    Returns (∀ w ∈ ·, w.Sound) (v.minusSpans s) := by
  unfold minusSpans
  split
  · exact Returns.found (p := Sound) h
  · exact Returns.reported (returns_minusFilter h _)

lemma returns_div (a b : Temporal V) : Returns (∀ r ∈ ·, r.Sound) (a.div b) := by
  have hlift : Returns (∀ r ∈ ·, r.Sound) (liftWith { apply := NumericValue.div } a b) :=
    returns_liftWith _ a b
  refine Returns.reported (Returns.after fun common => ?_)
  cases common with
  | none => exact hlift
  | some common =>
    refine Returns.after fun zeros => ?_
    cases zeros with
    | none => exact hlift
    | some zeros => exact Returns.after fun _ => hlift

omit [BoundedValue V] in
lemma returns_scaleValue (h : a.Sound) (width : V) : Returns Sound (a.scaleValue width) := by
  refine Returns.reported (Returns.after fun _ => ?_)
  dsimp only
  split
  · exact Returns.ok h
  · exact returns_mapValues _ _

end

/-- What stands in the place of a value that was to be changed: a refusal leaves it as it was. -/
def inPlace (v : Temporal V) (changed : Result (Temporal V)) : Temporal V :=
  changed.toOption.getD v

lemma sound_inPlace {v : Temporal V} (h : v.Sound) {changed : Result (Temporal V)}
    (hc : Returns Sound changed) : (v.inPlace changed).Sound := by
  cases changed with
  | error e => exact h
  | ok w => exact hc w rfl

/-- Changes of a value by others keep it sound. -/
structure ChangedSoundly (v : Temporal V) : Prop where
  appendInstant : ∀ i interp limits config,
    (v.inPlace (v.appendInstant i interp limits config)).Sound
  appendSequence : ∀ s : Sequence V, s.Sound → (v.inPlace (v.appendSequence s)).Sound
  merge : ∀ w : Temporal V, w.Sound → Returns Sound (v.merge w)
  insert : ∀ w : Temporal V, w.Sound → ∀ connecting, Returns Sound (v.insert w connecting)
  update : ∀ w : Temporal V, w.Sound → ∀ connecting, Returns Sound (v.update w connecting)
  deletePeriods : ∀ times connecting,
    Returns (∀ w ∈ ·, w.Sound) (v.deletePeriods times connecting)
  setInterp : ∀ interp, Returns Sound (v.setInterp interp)

/-- Parts of a value, by time or by values, are sound. -/
structure RestrictedSoundly (v : Temporal V) : Prop where
  periods : ∀ times, Returns (∀ w ∈ ·, w.Sound) (v.atPeriods times) ∧
    Returns (∀ w ∈ ·, w.Sound) (v.minusPeriods times)
  period : ∀ p, Returns (∀ w ∈ ·, w.Sound) (v.atPeriod p) ∧
    Returns (∀ w ∈ ·, w.Sound) (v.minusPeriod p)
  timestamp : ∀ t, Returns (∀ w ∈ ·, w.Sound) (v.atTimestamp t) ∧
    Returns (∀ w ∈ ·, w.Sound) (v.minusTimestamp t)
  timestamps : ∀ times, Returns (∀ w ∈ ·, w.Sound) (v.atTimestamps times) ∧
    Returns (∀ w ∈ ·, w.Sound) (v.minusTimestamps times)
  value : ∀ x, Returns (∀ w ∈ ·, w.Sound) (v.atValue x) ∧
    Returns (∀ w ∈ ·, w.Sound) (v.minusValue x)
  values : ∀ xs, Returns (∀ w ∈ ·, w.Sound) (v.atValues xs) ∧
    Returns (∀ w ∈ ·, w.Sound) (v.minusValues xs)
  extremes : ∀ part ∈ [v.atMin, v.minusMin, v.atMax, v.minusMax],
    Returns (∀ w ∈ ·, w.Sound) part

section

variable [StepValue V] [BoundedValue V] {v : Temporal V}

lemma changedSoundly (h : v.Sound) : v.ChangedSoundly := by
  constructor
  · intro i interp limits config
    exact sound_inPlace h (returns_appendInstant h i interp limits config)
  · intro s hs
    exact sound_inPlace h (returns_appendSequence h hs)
  · intro w hw
    exact returns_merge h hw
  · intro w hw connecting
    exact returns_insert h hw connecting
  · intro w hw connecting
    exact returns_update h hw connecting
  · exact returns_deletePeriods h
  · exact returns_setInterp h

lemma restrictedSoundly (h : v.Sound) : v.RestrictedSoundly := by
  constructor
  · intro times
    exact ⟨Returns.reported (returns_withinPeriods h times), returns_minusPeriods h times⟩
  · intro p
    exact ⟨Returns.reported (returns_withinPeriods h _), returns_minusPeriods h _⟩
  · intro t
    refine ⟨Returns.after fun found => Returns.ok fun w hw => ?_, returns_minusPeriods h _⟩
    obtain ⟨x, -, rfl⟩ := Option.map_eq_some_iff.mp hw
    trivial
  · intro times
    exact ⟨returns_atTimestamps v times, returns_minusPeriods h _⟩
  · intro x
    exact ⟨returns_atValue h x, returns_minusValue h x⟩
  · intro xs
    exact ⟨returns_atValues h xs, returns_minusValues h xs⟩
  · simp only [List.forall_mem_cons, List.not_mem_nil, false_implies, implies_true, and_true]
    exact ⟨returns_atValue h _, returns_minusValue h _, returns_atValue h _,
      returns_minusValue h _⟩

end

lemma returns_arithmetic {a : Temporal Integer} (h : a.Sound) (b : Temporal Integer) :
    (∀ op ∈ [add, sub, mul, div], Returns (∀ r ∈ ·, r.Sound) (op a b)) ∧
      (∀ op ∈ [addValue, subValue, mulValue, divValue, scaleValue], ∀ x,
        Returns Sound (op a x)) ∧ Returns Sound a.abs := by
  simp only [List.forall_mem_cons, List.not_mem_nil, false_implies, implies_true, and_true]
  refine ⟨⟨?_, ?_, ?_, returns_div a b⟩, ⟨?_, ?_, ?_, ?_, returns_scaleValue h⟩, ?_⟩
  · exact Returns.reported (returns_liftWith _ _ _)
  · exact Returns.reported (returns_liftWith _ _ _)
  · exact Returns.reported (returns_liftWith _ _ _)
  · exact fun x => Returns.reported (returns_mapValues _ _)
  · exact fun x => Returns.reported (returns_mapValues _ _)
  · exact fun x => Returns.reported (returns_mapValues _ _)
  · exact fun x => Returns.reported (returns_mapValues _ _)
  · exact Returns.reported (Returns.after fun _ => returns_mapValues _ _)

lemma returns_logic (a b : Temporal Bool) :
    (∀ op ∈ [and, or], Returns (∀ r ∈ ·, r.Sound) (op a b)) ∧
      (∀ op ∈ [andValue, orValue], ∀ x, Returns Sound (op a x)) ∧ Returns Sound a.not := by
  simp only [List.forall_mem_cons, List.not_mem_nil, false_implies, implies_true, and_true]
  refine ⟨⟨?_, ?_⟩, ⟨fun x => ?_, fun x => ?_⟩, ?_⟩
  · exact Returns.reported (returns_liftWith _ _ _)
  · exact Returns.reported (returns_liftWith _ _ _)
  · exact returns_mapValues _ _
  · exact returns_mapValues _ _
  · exact returns_mapValues _ _

lemma returns_letters (a b : Temporal String) : Returns (∀ r ∈ ·, r.Sound) (a.concat b) ∧
    (∀ ending, Returns Sound (a.concatValue ending)) ∧ Returns Sound a.upper ∧
      Returns Sound a.lower := by
  refine ⟨?_, fun ending => ?_, ?_, ?_⟩
  · exact Returns.reported (returns_liftWith _ _ _)
  · exact returns_mapValues _ _
  · exact returns_mapValues _ _
  · exact returns_mapValues _ _

/-- Operations on sound values that change by steps return sound values: changes by other values,
restrictions, constants over the time of a value, changes of all its values and lifted functions,
those of numbers, truth values and texts among them. -/
theorem operations_preserve_soundness :
    (∀ {V : Type} [TemporalValue V] [StepValue V] [BoundedValue V],
      (∀ v : Temporal V, v.Sound → v.ChangedSoundly ∧ v.RestrictedSoundly) ∧
        ∀ values : List (Temporal V), (∀ v ∈ values, v.Sound) →
          Returns Sound (mergeArray values)) ∧
    (∀ {V W : Type} [TemporalValue V] [TemporalValue W] [LawfulValue W] [BoundedValue W]
      (a b : Temporal V),
      (∀ x : W, Returns Sound (constantLike x a)) ∧
        (∀ change : V → Result W, Returns Sound (a.mapValues change)) ∧
          ∀ g : Lifting V W, Returns (∀ r ∈ ·, r.Sound) (liftWith g a b) ∧
            ∀ x, Returns Sound (liftValue g a x)) ∧
    (∀ a b : Temporal Integer, a.Sound → b.Sound →
      (∀ s, Returns (∀ w ∈ ·, w.Sound) (a.atSpans s) ∧
        Returns (∀ w ∈ ·, w.Sound) (a.minusSpans s)) ∧
      (∀ op ∈ [add, sub, mul, div], Returns (∀ r ∈ ·, r.Sound) (op a b)) ∧
      (∀ op ∈ [addValue, subValue, mulValue, divValue, scaleValue], ∀ x,
        Returns Sound (op a x)) ∧ Returns Sound a.abs) ∧
    (∀ a b : Temporal Bool, a.Sound → b.Sound →
      (∀ op ∈ [and, or], Returns (∀ r ∈ ·, r.Sound) (op a b)) ∧
      (∀ op ∈ [andValue, orValue], ∀ x, Returns Sound (op a x)) ∧ Returns Sound a.not) ∧
    ∀ a b : Temporal String, a.Sound → b.Sound →
      Returns (∀ r ∈ ·, r.Sound) (a.concat b) ∧
      (∀ ending, Returns Sound (a.concatValue ending)) ∧ Returns Sound a.upper ∧
      Returns Sound a.lower := by
  refine ⟨fun {V} _ _ _ => ⟨fun v h => ?_, fun values h => ?_⟩,
    fun {V W} _ _ _ _ a b => ⟨fun x => ?_, fun change => ?_, fun g => ⟨?_, fun x => ?_⟩⟩,
    fun a b ha _ => ⟨fun s => ?_, returns_arithmetic ha b⟩, fun a b _ _ => returns_logic a b,
    fun a b _ _ => returns_letters a b⟩
  · exact ⟨changedSoundly h, restrictedSoundly h⟩
  · exact Returns.reported (returns_mergeAll h)
  · exact Returns.reported (returns_mapWith _ _ _)
  · exact returns_mapValues _ _
  · exact returns_liftWith g a b
  · exact returns_liftValue g a x
  · exact ⟨returns_atSpans ha s, returns_minusSpans ha s⟩

lemma stairs_sound : stairs.Sound := ⟨stairs_wellFormed, rfl⟩

lemma landing_sound : landing.Sound := ⟨landing_wellFormed, rfl⟩

lemma moment_sound : moment.Sound := ⟨moment_wellFormed, rfl⟩

/-- The stairs stay sound when they go on, are merged with what follows, or added to. -/
theorem stairs_stay_sound :
    stairs.Sound ∧ Sequence.Sound landing ∧ moment.Sound ∧
      (∃ w, stairs.appendInstant ⟨.clamp 3, .nearest 20⟩ .step ⟨none, none⟩ {} = .ok w ∧
        w.Sound) ∧
      (∃ m, mergeArray [stairs, sequence landing] = .ok m ∧ m.Sound) ∧
      (∃ r, stairs.add moment = .ok (some r) ∧ r.Sound) ∧
      (∃ r, (instant ⟨true, .nearest 0⟩).and (instant ⟨false, .nearest 0⟩) = .ok (some r) ∧
        r.Sound) ∧
      ∃ r, (instant ⟨"a", .nearest 0⟩).concat (instant ⟨"b", .nearest 0⟩) = .ok (some r) ∧
        r.Sound := by
  obtain ⟨hchanged, -, hinteger, hbool, htext⟩ := operations_preserve_soundness
  have hboth : ∀ v ∈ [stairs, sequence landing], v.Sound :=
    List.forall_mem_cons.mpr ⟨stairs_sound, List.forall_mem_singleton.mpr landing_sound⟩
  refine ⟨stairs_sound, landing_sound, moment_sound, ?_, ?_, ?_, ?_, ?_⟩
  · obtain ⟨w, hw⟩ : ∃ w, stairs.appendInstant ⟨.clamp 3, .nearest 20⟩ .step ⟨none, none⟩ {} =
        .ok w := ⟨_, rfl⟩
    have hsound := (hchanged.1 stairs stairs_sound).1.appendInstant ⟨.clamp 3, .nearest 20⟩ .step
      ⟨none, none⟩ {}
    rw [hw] at hsound
    exact ⟨w, hw, hsound⟩
  · obtain ⟨m, hm⟩ : ∃ m, mergeAll [stairs, sequence landing] = .ok m :=
      exists_mergeAll_pair ⟨stairs_wellFormed, rfl⟩ ⟨landing_wellFormed, rfl⟩
        (Or.inl ⟨by decide, by decide⟩)
    exact ⟨m, reported_eq_ok.mpr hm, hchanged.2 _ hboth m (reported_eq_ok.mpr hm)⟩
  · have hadd : stairs.add moment = .ok _ := reported_eq_ok.mpr liftWith_moment
    exact ⟨_, hadd, (hinteger stairs moment stairs_sound moment_sound).2.1 add (by simp) _ hadd _
      rfl⟩
  · have hand : (instant ⟨true, .nearest 0⟩).and (instant ⟨false, .nearest 0⟩) = .ok _ :=
      reported_eq_ok.mpr (liftWith_instant rfl rfl _)
    have hsound := hbool (instant ⟨true, .nearest 0⟩) (instant ⟨false, .nearest 0⟩) trivial trivial
    exact ⟨_, hand, hsound.1 and (by simp) _ hand _ rfl⟩
  · have hconcat : (instant ⟨"a", .nearest 0⟩).concat (instant ⟨"b", .nearest 0⟩) = .ok _ :=
      reported_eq_ok.mpr (liftWith_instant rfl rfl _)
    have hsound := htext (instant ⟨"a", .nearest 0⟩) (instant ⟨"b", .nearest 0⟩) trivial trivial
    exact ⟨_, hconcat, hsound.1 _ hconcat _ rfl⟩

end Temporal

end TemporalAlgebra
