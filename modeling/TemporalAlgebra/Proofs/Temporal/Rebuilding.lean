import TemporalAlgebra.Proofs.Temporal.Joining

/-!
# Values built anew

Values are equal if their instants, bounds and interpolations are. Bounding boxes and the room for
further instants do not count: a value that is built anew from the rest is equal to the old one.
Joining sequences and assembling them into one value never look at what is built anew.
-/
namespace TemporalAlgebra

variable {V : Type} [TemporalValue V]

instance [LawfulBEq V] : LawfulBEq (Instant V) where
  eq_of_beq {i j} h := by
    obtain ⟨x, t⟩ := i
    obtain ⟨y, u⟩ := j
    change (x == y && t == u) = true at h
    rw [Bool.and_eq_true, beq_iff_eq, beq_iff_eq] at h
    rw [h.1, h.2]
  rfl {i} := by
    change (i.value == i.value && i.time == i.time) = true
    simp

namespace Sequence

/-- A sequence with its box and its room computed anew. -/
def rebuilt (s : Sequence V) : Sequence V := ofRun s.first s.rest s.lowerInc s.upperInc s.interp

@[simp] lemma rebuilt_rebuilt (s : Sequence V) : s.rebuilt.rebuilt = s.rebuilt := rfl

lemma beq_iff [LawfulBEq V] {a b : Sequence V} : (a == b) = true ↔ a.rebuilt = b.rebuilt := by
  change (a.interp == b.interp && a.lowerInc == b.lowerInc && a.upperInc == b.upperInc &&
    a.instants == b.instants) = true ↔ _
  simp only [Bool.and_eq_true, beq_iff_eq]
  constructor
  · rintro ⟨⟨⟨hi, hl⟩, hu⟩, hinstants⟩
    obtain ⟨hfirst, hrest⟩ := List.cons.inj hinstants
    unfold rebuilt
    rw [hi, hl, hu, hfirst, hrest]
  · intro h
    have hparts := Sequence.mk.inj h
    exact ⟨⟨⟨hparts.2.2.2.2.1, hparts.2.2.1⟩, hparts.2.2.2.1⟩,
      List.cons_eq_cons.mpr ⟨hparts.1, hparts.2.1⟩⟩

lemma list_beq_iff [LawfulBEq V] {as bs : List (Sequence V)} :
    (as == bs) = true ↔ as.map rebuilt = bs.map rebuilt := by
  induction as generalizing bs with
  | nil => cases bs <;> simp
  | cons a as ih =>
    cases bs with
    | nil => simp
    | cons b bs =>
      rw [List.cons_beq_cons, Bool.and_eq_true, beq_iff, ih, List.map_cons, List.map_cons,
        List.cons_eq_cons]

lemma list_beq_self {α : Type} [BEq α] {as : List α} (h : ∀ a ∈ as, (a == a) = true) :
    (as == as) = true := by
  induction as with
  | nil => rfl
  | cons a as ih =>
    rw [List.forall_mem_cons] at h
    rw [List.cons_beq_cons, h.1, ih h.2]
    rfl

lemma beq_of_rebuilt_eq {a b : Sequence V} (h : a.rebuilt = b.rebuilt)
    (hself : ∀ i ∈ a.instants, (i.value == i.value) = true) : (a == b) = true := by
  obtain ⟨hfirst, hrest, hl, hu, hi, -⟩ := Sequence.mk.inj h
  have hinstants : a.instants = b.instants := List.cons_eq_cons.mpr ⟨hfirst, hrest⟩
  change (a.interp == b.interp && a.lowerInc == b.lowerInc && a.upperInc == b.upperInc &&
    a.instants == b.instants) = true
  rw [hi, hl, hu, ← hinstants, list_beq_self fun i hi => ?_]
  · simp
  · change (i.value == i.value && i.time == i.time) = true
    rw [hself i hi, BEq.rfl]
    rfl

lemma list_beq_of_map_eq {as bs : List (Sequence V)} (h : as.map rebuilt = bs.map rebuilt)
    (hself : ∀ s ∈ as, ∀ i ∈ s.instants, (i.value == i.value) = true) : (as == bs) = true := by
  induction as generalizing bs with
  | nil =>
    obtain rfl := List.map_eq_nil_iff.mp h.symm
    rfl
  | cons a as ih =>
    obtain ⟨b, bs, rfl, hb, hbs⟩ := List.map_eq_cons_iff.mp h.symm
    rw [List.forall_mem_cons] at hself
    rw [List.cons_beq_cons, beq_of_rebuilt_eq hb.symm hself.1, ih hbs.symm hself.2]
    rfl

lemma rebuilt_of_makeRun {first : Instant V} {rest : List (Instant V)} {lowerInc upperInc : Bool}
    {interp : Interpolation} {normalizing : Bool} {s : Sequence V}
    (h : makeRun first rest lowerInc upperInc interp normalizing = .ok s) : s.rebuilt = s := by
  unfold makeRun at h
  obtain ⟨-, h⟩ := check_bind_eq_ok.mp h
  cases normalizing with
  | false =>
    rw [← pure_eq_ok.mp h]
    rfl
  | true =>
    obtain ⟨kept, -, h⟩ := bind_eq_ok.mp h
    rw [← pure_eq_ok.mp h]
    rfl

end Sequence

namespace SequenceSet

open Sequence

def rebuilt (s : SequenceSet V) : SequenceSet V :=
  ofRun s.first.rebuilt (s.rest.map Sequence.rebuilt)

lemma sequences_rebuilt (s : SequenceSet V) :
    s.rebuilt.sequences = s.sequences.map Sequence.rebuilt := rfl

lemma rebuilt_eq_iff {s t : SequenceSet V} : s.rebuilt = t.rebuilt ↔
    s.sequences.map Sequence.rebuilt = t.sequences.map Sequence.rebuilt := by
  constructor
  · intro h
    rw [← sequences_rebuilt, h, sequences_rebuilt]
  · intro h
    obtain ⟨hfirst, hrest⟩ := List.cons.inj h
    unfold rebuilt
    rw [hfirst, hrest]

lemma checkKinds_rebuilt (interp : Interpolation) (pieces : List (Sequence V)) :
    checkKinds interp (pieces.map Sequence.rebuilt) = checkKinds interp pieces := by
  induction pieces with
  | nil => rfl
  | cons s rest ih =>
    rw [List.map_cons, checkKinds, checkKinds, ih]
    rfl

lemma checkRising_rebuilt (a : Sequence V) (rest : List (Sequence V)) :
    checkRising a.rebuilt (rest.map Sequence.rebuilt) = checkRising a rest := by
  induction rest generalizing a with
  | nil => rfl
  | cons b rest ih =>
    rw [List.map_cons, checkRising, checkRising, ih]
    rfl

lemma join_rebuilt {a first : Sequence V} {rest more : List (Sequence V)}
    (h : join a rest = .ok (first, more)) :
    join a.rebuilt (rest.map Sequence.rebuilt) =
      .ok (first.rebuilt, more.map Sequence.rebuilt) := by
  induction rest generalizing a first more with
  | nil =>
    cases h
    rfl
  | cons b rest ih =>
    have hjoined : joined a.rebuilt b.rebuilt = joined a b := rfl
    cases hj : joined a b with
    | some found =>
      obtain ⟨hdone, s, hs, h⟩ := (join_eq_ok_of_joined hj).mp h
      refine (join_eq_ok_of_joined (hjoined.trans hj)).mpr ⟨hdone, s, hs, ?_⟩
      rw [← rebuilt_of_makeRun hs]
      exact ih h
    | none =>
      obtain ⟨next, others, hnext, hfound⟩ := (join_eq_ok_of_not_joined hj).mp h
      obtain ⟨rfl, rfl⟩ := Prod.mk.inj hfound
      exact (join_eq_ok_of_not_joined (hjoined.trans hj)).mpr ⟨_, _, ih hnext, rfl⟩

lemma make_rebuilt {pieces : List (Sequence V)} {normalizing : Bool} {set : SequenceSet V}
    (h : make pieces normalizing = .ok set) :
    make (pieces.map Sequence.rebuilt) normalizing = .ok set.rebuilt := by
  obtain ⟨first, rest, rfl⟩ := exists_cons_of_make h
  obtain ⟨hkinds, hrising, ⟨first', rest'⟩, hjoin, rfl⟩ := make_cons_eq_ok_iff.mp h
  refine make_cons_eq_ok_iff.mpr ⟨(checkKinds_rebuilt _ (first :: rest)).trans hkinds,
    (checkRising_rebuilt first rest).trans hrising, (_, _), ?_, rfl⟩
  cases normalizing with
  | false =>
    obtain ⟨rfl, rfl⟩ := Prod.mk.inj (Except.ok.inj hjoin)
    rfl
  | true => exact join_rebuilt hjoin

end SequenceSet

namespace Temporal

def rebuilt : Temporal V → Temporal V
  | instant i => instant i
  | sequence s => sequence s.rebuilt
  | sequenceSet s => sequenceSet s.rebuilt

@[simp] lemma rebuilt_rebuilt (v : Temporal V) : v.rebuilt.rebuilt = v.rebuilt := by
  cases v with
  | instant i => rfl
  | sequence s => rfl
  | sequenceSet s =>
    change sequenceSet s.rebuilt.rebuilt = sequenceSet s.rebuilt
    rw [sequenceSet.injEq, SequenceSet.rebuilt_eq_iff, SequenceSet.sequences_rebuilt, List.map_map]
    rfl

/-- Values are equal if they are the same when built anew. -/
theorem beq_iff [LawfulBEq V] {v w : Temporal V} : (v == w) = true ↔ v.rebuilt = w.rebuilt := by
  match v, w with
  | instant i, instant j =>
    change (i == j) = true ↔ instant i = instant j
    rw [beq_iff_eq, instant.injEq]
  | sequence s, sequence t =>
    change (s == t) = true ↔ sequence s.rebuilt = sequence t.rebuilt
    rw [Sequence.beq_iff, sequence.injEq]
  | sequenceSet s, sequenceSet t =>
    change (s.sequences == t.sequences) = true ↔ sequenceSet s.rebuilt = sequenceSet t.rebuilt
    rw [Sequence.list_beq_iff, sequenceSet.injEq, SequenceSet.rebuilt_eq_iff]
  | instant _, sequence _ | instant _, sequenceSet _ | sequence _, instant _
  | sequence _, sequenceSet _ | sequenceSet _, instant _ | sequenceSet _, sequence _ =>
    exact iff_of_false Bool.false_ne_true (by simp [rebuilt])

lemma beq_of_rebuilt_eq {v w : Temporal V} (h : v.rebuilt = w.rebuilt) (hv : v.Proper) :
    (v == w) = true := by
  match v, w with
  | instant i, instant j =>
    obtain rfl := instant.inj h
    change (i.value == i.value && i.time == i.time) = true
    rw [hv i (by simp [instants]), BEq.rfl]
    rfl
  | sequence s, sequence t => exact Sequence.beq_of_rebuilt_eq (sequence.inj h) hv
  | sequenceSet s, sequenceSet t =>
    have hmap := SequenceSet.rebuilt_eq_iff.mp (sequenceSet.inj h)
    have hself : ∀ x ∈ s.sequences, ∀ i ∈ x.instants, (i.value == i.value) = true :=
      fun x hx i hi => hv i (mem_instants_iff.mpr ⟨x, hx, hi⟩)
    change (s.sequences == t.sequences) = true
    exact Sequence.list_beq_of_map_eq hmap hself
  | instant _, sequence _ | instant _, sequenceSet _ | sequence _, instant _
  | sequence _, sequenceSet _ | sequenceSet _, instant _ | sequenceSet _, sequence _ =>
    simp [rebuilt] at h

lemma ofSequences_rebuilt {pieces : List (Sequence V)} {v : Temporal V}
    (h : ofSequences pieces = .ok v) :
    ofSequences (pieces.map Sequence.rebuilt) = .ok v.rebuilt := by
  match pieces with
  | [s] =>
    obtain rfl := Except.ok.inj h
    rfl
  | [] => simp [ofSequences, SequenceSet.make] at h
  | a :: b :: rest =>
    unfold ofSequences at h
    rw [List.map_cons, List.map_cons]
    unfold ofSequences
    simp only [bind_eq_ok, pure_eq_ok] at h ⊢
    obtain ⟨set, hset, rfl⟩ := h
    refine ⟨_, SequenceSet.make_rebuilt hset, ?_⟩
    change (if (set.rest.map Sequence.rebuilt).isEmpty then _ else _) = _
    rw [List.isEmpty_map]
    cases set.rest.isEmpty <;> rfl

end Temporal

end TemporalAlgebra
