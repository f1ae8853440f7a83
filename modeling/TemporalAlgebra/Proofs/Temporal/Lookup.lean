import TemporalAlgebra.Proofs.Partition
import TemporalAlgebra.Proofs.Temporal.Assembly
import TemporalAlgebra.Temporal.Restrict

/-!
# Looking values up

The instants of a sequence, and the sequences of a set, are cut in two by every timestamp, so that a
search by halves finds the cut. Of the sequences that do not end before the timestamp only the first
two are looked at, and that is enough: what is found is what looking at every sequence would find. A
look-up is given up where the timestamp lies between two instants that are too far apart for the way
from the one to the other to be told.
-/
namespace TemporalAlgebra

variable {V : Type} [TemporalValue V]

namespace Sequence

lemma partition_instants {instants : List (Instant V)} (h : instants.Pairwise Instant.Precedes)
    (t : Timestamp) :
    (instants.takeWhile fun i => decide (i.time ≤ t)) =
      instants.filter fun i => decide (i.time ≤ t) := by
  refine (takeWhile_eq_filter (h.imp fun {a b} hab hb => ?_)).1
  rw [decide_eq_true_eq, Timestamp.le_iff] at hb ⊢
  exact hab.1.le.trans hb

lemma countP_time_le_one {instants : List (Instant V)} (h : instants.Pairwise Instant.Precedes)
    (t : Timestamp) : (instants.countP fun i => i.time == t) ≤ 1 := by
  refine countP_le_one (h.imp fun {a b} hab ha => ?_)
  rw [Timestamp.beq_iff] at ha
  rw [← Bool.not_eq_true, Timestamp.beq_iff, ← ha]
  exact hab.1.ne'

lemma getLast?_filter_time {t : Timestamp} {a : Instant V} {rest : List (Instant V)}
    (h : (a :: rest).Pairwise Instant.Precedes) (ha : a.time.place ≤ t.place) :
    (((a :: rest).filter fun i => decide (i.time ≤ t)).getLast?).map Instant.value =
      some (heldFrom t.place a rest) := by
  have hkeep : ∀ {i : Instant V} {l : List (Instant V)}, i.time.place ≤ t.place →
      ((i :: l).filter fun i => decide (i.time ≤ t)) =
        i :: l.filter fun i => decide (i.time ≤ t) :=
    fun hi => List.filter_cons_of_pos (decide_eq_true (Timestamp.le_iff.mpr hi))
  induction rest generalizing a with
  | nil => simp [Timestamp.le_iff, ha, heldFrom]
  | cons b rest ih =>
    rw [hkeep ha, heldFrom]
    by_cases hb : b.time.place ≤ t.place
    · have hfilter := ih h.tail hb
      rw [hkeep hb] at hfilter ⊢
      rw [List.getLast?_cons_cons, hfilter, if_pos hb]
    · have hnone : ((b :: rest).filter fun i => decide (i.time ≤ t)) = [] := by
        refine List.filter_eq_nil_iff.mpr fun i hi => ?_
        have := first_le h.tail hi
        rw [decide_eq_true_eq, Timestamp.le_iff]
        omega
      rw [hnone, if_neg hb]
      rfl

/-- Whether a timestamp lies between two instants that are too far apart: the microseconds from the
one to the other do not fit in 64 bits. -/
def Lost (t : Timestamp) (ab : Instant V × Instant V) : Prop :=
  ab.1.time < t ∧ t < ab.2.time ∧ ¬Timestamp.Fits (ab.2.time.micros - ab.1.time.micros)

lemma valueFrom_eq_aborted_iff {t : Timestamp} {a : Instant V} {rest : List (Instant V)}
    (h : (a :: rest).Pairwise Instant.Precedes) :
    valueFrom .linear t a rest = .error .aborted ↔ ∃ ab ∈ (a :: rest).zip rest, Lost t ab := by
  induction rest generalizing a with
  | nil => exact iff_of_false (Completes.ok _) (by simp)
  | cons b rest ih =>
    -- what starts at or after the timestamp has it not in between
    have hlater : ∀ {x : Instant V} {xs ys : List (Instant V)},
        (x :: xs).Pairwise Instant.Precedes → t.place ≤ x.time.place →
        ¬∃ ab ∈ (x :: xs).zip ys, Lost t ab := by
      rintro x xs ys hrising hx ⟨ab, hmem, hlt, -⟩
      have hle := first_le hrising (List.of_mem_zip hmem).1
      rw [Timestamp.lt_iff] at hlt
      omega
    rw [valueFrom]
    simp only [Timestamp.le_iff]
    by_cases hb : b.time.place ≤ t.place
    · have hab : ¬Lost t (a, b) := by
        rintro ⟨-, hlt, -⟩
        exact absurd (Timestamp.lt_iff.mp hlt) (not_lt.mpr hb)
      rw [if_pos hb, ih h.tail, List.zip_cons_cons, List.exists_mem_cons_iff, or_iff_right hab]
    · rw [if_neg hb]
      rw [not_le] at hb
      by_cases ha : t.place ≤ a.time.place
      · rw [if_pos ha]
        exact iff_of_false (Completes.ok _) (hlater h ha)
      · rw [if_neg ha, List.zip_cons_cons, List.exists_mem_cons_iff,
          or_iff_left (hlater h.tail hb.le)]
        rw [not_le] at ha
        have hratio := Timestamp.ratio_eq_aborted (Timestamp.lt_iff.mpr ha)
          (Timestamp.le_iff.mpr hb.le)
        refine (bind_eq_aborted_iff fun _ _ => Completes.ok _).trans (hratio.trans ?_)
        exact ⟨fun hfar => ⟨Timestamp.lt_iff.mpr ha, Timestamp.lt_iff.mpr hb, hfar⟩,
          fun hlost => hlost.2.2⟩

variable [LawfulValue V]

/-- A look-up is given up just between two instants of a line that are too far apart. -/
lemma WellFormed.lookup_eq_aborted_iff {s : Sequence V} (h : s.WellFormed) (t : Timestamp) :
    s.lookup t = .error .aborted ↔ s.interp = .linear ∧ ∃ ab ∈ s.segments, Lost t ab := by
  by_cases hl : s.interp = .linear
  · have hd : s.isDiscrete = false := isDiscrete_eq_false_iff.mpr (by simp [hl])
    have hnear : s.valueNear t = .error .aborted ↔ ∃ ab ∈ s.segments, Lost t ab := by
      unfold valueNear
      rw [hl]
      exact valueFrom_eq_aborted_iff h.rising
    rw [← hnear, and_iff_right hl]
    by_cases hc : s.Covers t.place
    · rw [lookup_of_covers hd hc, map_eq_pure_bind]
      exact bind_eq_aborted_iff fun _ _ => Completes.ok _
    · rw [lookup_eq_none_iff.mpr hc]
      refine iff_of_false nofun fun hlost => hc ?_
      obtain ⟨ab, hmem, hafter, hbefore, -⟩ := hnear.mp hlost
      obtain ⟨ha, hb⟩ := List.of_mem_zip hmem
      have hfirst := first_le h.rising ha
      have hlast := place_le_last h.rising ab.2 (List.mem_cons_of_mem _ hb)
      rw [Timestamp.lt_iff] at hafter hbefore
      rw [covers_of_continuous hd, lo_eq, hi_eq]
      unfold last
      split <;> split <;> omega
  · refine iff_of_false (fun hlost => ?_) fun hlin => hl hlin.1
    rw [lookup_eq_valueAt hl] at hlost
    cases hlost

lemma WellFormed.lookup_step {s : Sequence V} (h : s.WellFormed) (hs : s.interp = .step)
    (t : Timestamp) :
    s.lookup t = .ok (if s.period.containsValue t then
      ((s.instants.filter fun i => decide (i.time ≤ t)).getLast?).map Instant.value else none) := by
  have hd : s.isDiscrete = false := isDiscrete_eq_false_iff.mpr (by simp [hs])
  by_cases hc : s.Covers t.place
  · rw [lookup_of_covers hd hc, valueNear_eq (by simp [hs]),
      if_pos ((containsValue_period hd t).mpr hc)]
    rw [covers_of_continuous hd, lo_eq] at hc
    have hlatest := getLast?_filter_time (t := t) h.rising (by split at hc <;> omega)
    exact congrArg Except.ok hlatest.symm
  · rw [lookup_eq_none_iff.mpr hc, if_neg fun hin => hc ((containsValue_period hd t).mp hin)]

end Sequence

lemma SequenceSet.WellFormed.partition_sequences [LawfulValue V] {s : SequenceSet V}
    (h : s.WellFormed) (t : Timestamp) :
    (s.sequences.dropWhile fun x => decide (x.last.time < t)) =
      s.sequences.filter fun x => !decide (x.last.time < t) := by
  refine (takeWhile_eq_filter (h.isTrain.rising.imp_of_mem fun {a b} _ hb hab hend => ?_)).2
  rw [decide_eq_true_eq, Timestamp.lt_iff] at hend ⊢
  have hlast := Sequence.place_le_last (h.sequences b hb).rising b.first (List.mem_cons_self ..)
  have halast := a.hi_eq
  have hbfirst := b.lo_eq
  have := a.last.time.place_emod
  have := b.first.time.place_emod
  change b.first.time.place ≤ b.last.time.place at hlast
  unfold Sequence.Before at hab
  split at halast <;> split at hbfirst <;> omega

namespace Temporal

variable [LawfulValue V] {v : Temporal V}

/-- Of two sequences of a value one is not defined at a timestamp. -/
lemma WellFormed.pairwise_lookup (h : v.WellFormed) (t : Timestamp) :
    v.sequences.Pairwise fun a b => a.lookup t = .ok none ∨ b.lookup t = .ok none := by
  refine h.rising.imp_of_mem fun {a b} ha hb hab => ?_
  rw [Sequence.lookup_eq_none_iff, Sequence.lookup_eq_none_iff, ← not_and_or]
  exact hab.apart (h.sequences a ha) (h.sequences b hb) _

lemma WellFormed.lookup_eq_findSomeM? (h : v.WellFormed) (t : Timestamp) :
    v.lookup t = v.sequences.findSomeM? fun s => s.lookup t := by
  by_cases hc : v.Covers t.place
  · obtain ⟨s, hs, hc⟩ := hc
    rw [h.lookup_of_mem hs hc]
    exact (findSomeM?_of_unique (h.pairwise_lookup t) hs
      fun hn => Sequence.lookup_eq_none_iff.mp hn hc).symm
  · rw [lookup_of_not_covers hc]
    exact (findSomeM?_eq_none fun s hs =>
      Sequence.lookup_eq_none_iff.mpr fun hsc => hc ⟨s, hs, hsc⟩).symm

/-- A value is given up at a timestamp just where one of its sequences is. -/
lemma WellFormed.lookup_eq_aborted_iff (h : v.WellFormed) (t : Timestamp) :
    v.lookup t = .error .aborted ↔ ∃ s ∈ v.sequences, s.interp = .linear ∧
      ∃ ab ∈ s.segments, Sequence.Lost t ab := by
  have hseq : ∀ s ∈ v.sequences, s.lookup t = .error .aborted ↔
      s.interp = .linear ∧ ∃ ab ∈ s.segments, Sequence.Lost t ab :=
    fun s hs => (h.sequences s hs).lookup_eq_aborted_iff t
  constructor
  · intro hlost
    have hc : v.Covers t.place := by
      by_contra hn
      rw [lookup_of_not_covers hn] at hlost
      cases hlost
    obtain ⟨s, hs, hc⟩ := hc
    rw [h.lookup_of_mem hs hc] at hlost
    exact ⟨s, hs, (hseq s hs).mp hlost⟩
  · rintro ⟨s, hs, hlost⟩
    rw [h.lookup_eq_findSomeM?]
    have hs_lost := (hseq s hs).mpr hlost
    rw [findSomeM?_of_unique (h.pairwise_lookup t) hs (by simp [hs_lost]), hs_lost]

/-- A value is found at a timestamp as by looking at every sequence: at most one of them is defined
there, and one is just where the time of the value contains the timestamp. It is given up just
between two instants of a line that are too far apart. -/
theorem WellFormed.lookup_spec (h : v.WellFormed) (t : Timestamp) :
    (v.sequences.Pairwise fun a b => a.lookup t = .ok none ∨ b.lookup t = .ok none) ∧
      v.lookup t = (v.sequences.findSomeM? fun s => s.lookup t) ∧
      (∀ s ∈ v.sequences, s.lookup t ≠ .ok none → v.lookup t = s.lookup t) ∧
      (v.lookup t = .ok none ↔ v.time.containsValue t = false) ∧
      (∀ f, v.lookup t = .error f ↔ f = .aborted ∧ ∃ s ∈ v.sequences, s.interp = .linear ∧
        ∃ ab ∈ s.segments, Sequence.Lost t ab) ∧
      (v.Short → ∃ found, v.lookup t = .ok found ∧ found.isSome = v.time.containsValue t) ∧
      (∀ s ∈ v.sequences, s.interp = .step → s.lookup t =
        .ok (if s.period.containsValue t then
          ((s.instants.filter fun i => decide (i.time ≤ t)).getLast?).map Instant.value
        else none)) ∧
      (∀ set, v = sequenceSet set →
        (set.sequences.dropWhile fun s => decide (s.last.time < t)) =
          set.sequences.filter fun s => !decide (s.last.time < t)) ∧
      ∀ s ∈ v.sequences, (s.instants.countP fun i => i.time == t) ≤ 1 ∧
        (s.instants.takeWhile fun i => decide (i.time ≤ t)) =
          s.instants.filter fun i => decide (i.time ≤ t) := by
  have hnone : v.lookup t = .ok none ↔ v.time.containsValue t = false := by
    rw [h.lookup_eq_none_iff, ← h.containsValue_time, Bool.not_eq_true]
  refine ⟨h.pairwise_lookup t, h.lookup_eq_findSomeM? t, fun s hs hfound => ?_, hnone,
    fun f => ?_, fun hshort => ?_, fun s hs hstep => (h.sequences s hs).lookup_step hstep t, ?_,
    fun s hs => ?_⟩
  · rw [h.lookup_eq_findSomeM?]
    exact findSomeM?_of_unique (h.pairwise_lookup t) hs hfound
  · rw [← h.lookup_eq_aborted_iff]
    constructor
    · intro hf
      obtain rfl := h.unrefused_lookup t f hf
      exact ⟨rfl, hf⟩
    · rintro ⟨rfl, hf⟩
      exact hf
  · have hlookup := h.lookup_of_completes (h.completes_lookup hshort t)
    refine ⟨_, hlookup, ?_⟩
    rw [hlookup, Except.ok.injEq] at hnone
    rw [Bool.eq_iff_iff, Option.isSome_iff_ne_none, ne_eq, hnone, Bool.not_eq_false]
  · rintro set rfl
    exact SequenceSet.WellFormed.partition_sequences h t
  · exact ⟨Sequence.countP_time_le_one (h.sequences s hs).rising t,
      Sequence.partition_instants (h.sequences s hs).rising t⟩

/-- Three counts by steps that meet at a timestamp, which belongs to the second one only. -/
def junction : SequenceSet Integer :=
  .ofRun (.ofRun ⟨.clamp 1, .nearest 0⟩ [⟨.clamp 1, .nearest 10⟩] true false .step)
    [.ofInstant ⟨.clamp 2, .nearest 10⟩ .step,
      .ofRun ⟨.clamp 3, .nearest 10⟩ [⟨.clamp 3, .nearest 20⟩] false true .step]

/-- Where three counts meet the value of the only one that is defined there is found. -/
theorem junction_looked_up :
    (sequenceSet junction).WellFormed ∧
      (sequenceSet junction).lookup (.nearest 10) = .ok (some (.clamp 2)) ∧
      (sequenceSet junction).time.containsValue (.nearest 10) = true := by
  have hwf : (sequenceSet junction).WellFormed := by
    have hmake : SequenceSet.make junction.sequences false = .ok junction := rfl
    refine SequenceSet.wellFormed_of_make (fun s hs => ?_) hmake
    rcases List.mem_cons.mp hs with rfl | hs
    · rfl
    · rcases List.mem_pair.mp hs with rfl | rfl <;> rfl
  obtain ⟨-, hfind, -, -, -, hshort, -⟩ := hwf.lookup_spec (.nearest 10)
  have hfound : (sequenceSet junction).lookup (.nearest 10) = .ok (some (.clamp 2)) :=
    hfind.trans rfl
  obtain ⟨found, hok, htime⟩ := hshort hwf.short
  obtain rfl := Except.ok.inj (hfound.symm.trans hok)
  exact ⟨hwf, hfound, htime.symm⟩

def ages : Temporal Float :=
  .sequence (.ofRun ⟨0.0, .nearest (-8000000000000000000)⟩ [⟨10.0, .nearest 8000000000000000000⟩]
    true true .linear)

lemma ages_wellFormed : ages.WellFormed := rfl

/-- What goes up through all of the time is given up in the middle of it. -/
theorem ages_not_looked_up : ages.WellFormed ∧ ages.time.containsValue (.nearest 0) = true ∧
    ages.lookup (.nearest 0) = .error .aborted :=
  ⟨ages_wellFormed, rfl, rfl⟩

end Temporal

end TemporalAlgebra
