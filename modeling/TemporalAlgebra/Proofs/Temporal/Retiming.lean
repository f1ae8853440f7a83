import TemporalAlgebra.Proofs.Temporal.Rebuilding
import TemporalAlgebra.Temporal.Transform

/-!
# Values with other timestamps

Where every timestamp of a value is moved, the value is built anew from the moved instants. It keeps
its form, interpolation, bounds and values, and it is refused if the moved instants fail the checks of
values. They pass if the timestamps rise as before.
-/
namespace TemporalAlgebra

def Instant.retimed {V : Type} (move : Timestamp → Timestamp) (i : Instant V) : Instant V :=
  ⟨i.value, move i.time⟩

variable {V : Type} [TemporalValue V] {g g' : Timestamp → Timestamp}
  {move : Timestamp → Result Timestamp}

namespace Sequence

def retimed (g : Timestamp → Timestamp) (s : Sequence V) : Sequence V :=
  ofRun (s.first.retimed g) (s.rest.map (Instant.retimed g)) s.lowerInc s.upperInc s.interp

variable {s : Sequence V}

lemma last_retimed (g : Timestamp → Timestamp) (s : Sequence V) :
    (s.retimed g).last = s.last.retimed g := by
  change (s.rest.map (Instant.retimed g)).getLastD (s.first.retimed g) = _
  rw [List.getLastD_map]
  rfl

lemma retimed_congr (h : ∀ i ∈ s.instants, g i.time = g' i.time) : s.retimed g = s.retimed g' := by
  have hinstant : ∀ i ∈ s.instants, i.retimed g = i.retimed g' := fun i hi => by
    unfold Instant.retimed
    rw [h i hi]
  unfold retimed
  rw [hinstant s.first (List.mem_cons_self ..),
    List.map_congr_left fun i hi => hinstant i (List.mem_cons_of_mem _ hi)]

lemma retimed_retimed (s : Sequence V) :
    (s.retimed g).retimed g' = s.retimed fun t => g' (g t) := by
  change ofRun _ ((s.rest.map (Instant.retimed g)).map (Instant.retimed g')) _ _ _ = _
  rw [List.map_map]
  rfl

lemma retimed_id (s : Sequence V) : s.retimed id = s.rebuilt := by
  unfold retimed
  have hid : Instant.retimed (V := V) id = id := rfl
  rw [hid, List.map_id]
  rfl

lemma endsRepeated_retimed (a : Instant V) (rest : List (Instant V)) :
    endsRepeated (a.retimed g) (rest.map (Instant.retimed g)) = endsRepeated a rest := by
  induction rest generalizing a with
  | nil => rfl
  | cons b rest ih =>
    cases rest with
    | nil => rfl
    | cons c rest => exact ih b

lemma WellFormed.retimed [LawfulValue V] (h : s.WellFormed)
    (hrise : ∀ i ∈ s.instants, ∀ j ∈ s.instants, i.time.place < j.time.place →
      (g i.time).place < (g j.time).place) : (s.retimed g).WellFormed := by
  have hc := wellFormed_iff.mp h
  refine wellFormed_iff.mpr ⟨hc.linear, ?_, fun hshort => ?_, fun hstep hopen => ?_⟩
  · change ((s.instants).map (Instant.retimed g)).Pairwise Instant.Precedes
    rw [List.pairwise_map]
    exact hc.rising.imp_of_mem fun hi hj hij => ⟨hrise _ hi _ hj hij.1, hij.2⟩
  · exact hc.closed (hshort.imp_left List.map_eq_nil_iff.mp)
  · exact (endsRepeated_retimed s.first s.rest).trans (hc.repeated hstep hopen)

lemma mapTimes_eq_ok_iff {r : Sequence V} (h : ∀ i ∈ s.instants, move i.time = .ok (g i.time)) :
    s.mapTimes move = .ok r ↔ (s.retimed g).WellFormed ∧ s.retimed g = r := by
  have hmoved : (s.instants.mapM fun i => return ⟨i.value, ← move i.time⟩ : Result _) =
      .ok (s.instants.map (Instant.retimed g)) := mapM_eq_map fun i hi => by
    rw [h i hi]
    rfl
  unfold mapTimes
  rw [bind_of_ok hmoved]
  change makeRun (s.first.retimed g) (s.rest.map (Instant.retimed g)) s.lowerInc s.upperInc
    s.interp false = .ok r ↔ _
  unfold makeRun
  rw [check_bind_eq_ok]
  simp only [Bool.false_eq_true, if_false, pure_bind, pure_eq_ok]
  rfl

lemma exists_of_mapTimes {r : Sequence V} (h : s.mapTimes move = .ok r) :
    ∀ i ∈ s.instants, ∃ u, move i.time = .ok u := by
  intro i hi
  unfold mapTimes at h
  rw [bind_eq_ok] at h
  obtain ⟨moved, hmoved, -⟩ := h
  obtain ⟨j, -, hj⟩ := mem_mapM_of_mem hmoved hi
  rw [bind_eq_ok] at hj
  exact hj.imp fun u hu => hu.1

end Sequence

namespace SequenceSet

def retimed (g : Timestamp → Timestamp) (s : SequenceSet V) : SequenceSet V :=
  ofRun (s.first.retimed g) (s.rest.map (Sequence.retimed g))

variable {s : SequenceSet V}

lemma sequences_retimed (g : Timestamp → Timestamp) (s : SequenceSet V) :
    (s.retimed g).sequences = s.sequences.map (Sequence.retimed g) := rfl

lemma retimed_congr (h : ∀ x ∈ s.sequences, x.retimed g = x.retimed g') :
    s.retimed g = s.retimed g' := by
  unfold retimed
  rw [h s.first (List.mem_cons_self ..),
    List.map_congr_left fun x hx => h x (List.mem_cons_of_mem _ hx)]

lemma retimed_retimed (s : SequenceSet V) :
    (s.retimed g).retimed g' = s.retimed fun t => g' (g t) := by
  change ofRun ((s.first.retimed g).retimed g')
    ((s.rest.map (Sequence.retimed g)).map (Sequence.retimed g')) = _
  rw [List.map_map, Sequence.retimed_retimed,
    List.map_congr_left fun x _ => x.retimed_retimed]
  rfl

lemma retimed_id (s : SequenceSet V) : s.retimed id = s.rebuilt := by
  unfold retimed rebuilt
  rw [Sequence.retimed_id, List.map_congr_left fun x _ => x.retimed_id]

lemma make_eq_ok_iff {pieces : List (Sequence V)} {first : Sequence V} {rest : List (Sequence V)}
    {r : SequenceSet V} (h : pieces = first :: rest) : make pieces false = .ok r ↔
      checkKinds first.interp (first :: rest) = .ok () ∧ checkRising first rest = .ok () ∧
        ofRun first rest = r := by
  subst h
  change (do
    checkKinds first.interp (first :: rest)
    checkRising first rest
    return ofRun first rest : Result (SequenceSet V)) = .ok r ↔ _
  rw [check_bind_eq_ok, check_bind_eq_ok, pure_eq_ok]

/-- Sequences still follow each other if a gap between them does not close. -/
lemma Follows.retimed {a b : Sequence V} (h : Follows a b)
    (hrise : a.last.time.place < b.first.time.place →
      (g a.last.time).place < (g b.first.time).place) :
    Follows (a.retimed g) (b.retimed g) := by
  obtain ⟨hbefore, hcompat⟩ := h
  refine ⟨?_, ?_⟩
  · unfold Sequence.Before at *
    rw [Sequence.hi_eq, Sequence.lo_eq, Sequence.last_retimed]
    rw [Sequence.hi_eq, Sequence.lo_eq] at hbefore
    have hlast := a.last.time.place_emod
    have hfirst := b.first.time.place_emod
    have hlast' := (g a.last.time).place_emod
    have hfirst' := (g b.first.time).place_emod
    change (g a.last.time).place - (if a.upperInc then 0 else 1) <
      (g b.first.time).place + if b.lowerInc then 0 else 1
    have hle : a.last.time.place ≤ b.first.time.place := by split at hbefore <;> omega
    rcases hle.lt_or_eq with hlt | heq
    · have hgap := hrise hlt
      split <;> split <;> omega
    · -- they touch, so one of them leaves the timestamp out, then as before
      have hmeet : g a.last.time = g b.first.time := congrArg g (Timestamp.eq_iff.mpr heq)
      rw [hmeet]
      omega
  · rw [Sequence.last_retimed]
    exact hcompat

lemma WellFormed.retimed [LawfulValue V] (h : s.WellFormed)
    (hrise : ∀ i ∈ s.sequences.flatMap Sequence.instants,
      ∀ j ∈ s.sequences.flatMap Sequence.instants, i.time.place < j.time.place →
        (g i.time).place < (g j.time).place) : (s.retimed g).WellFormed := by
  have hmem : ∀ x ∈ s.sequences, ∀ i ∈ x.instants, i ∈ s.sequences.flatMap Sequence.instants :=
    fun x hx i hi => List.mem_flatMap.mpr ⟨x, hx, hi⟩
  refine ⟨?_, checkKinds_eq_ok_iff.mpr ?_, checkRising_eq_ok_iff.mpr ?_⟩
  · rw [sequences_retimed, List.forall_mem_map]
    exact fun x hx => (h.sequences x hx).retimed fun i hi j hj =>
      hrise i (hmem x hx i hi) j (hmem x hx j hj)
  · rw [sequences_retimed, List.forall_mem_map]
    exact checkKinds_eq_ok_iff.mp h.kinds
  · change (s.sequences.map (Sequence.retimed g)).IsChain Follows
    rw [List.isChain_map]
    refine (checkRising_eq_ok_iff.mp h.rising).imp_of_mem_imp fun a b ha hb hab => ?_
    exact hab.retimed (hrise _ (hmem a ha _ a.last_mem) _ (hmem b hb _ (List.mem_cons_self ..)))

end SequenceSet

namespace Temporal

def retimed (g : Timestamp → Timestamp) : Temporal V → Temporal V
  | instant i => instant (i.retimed g)
  | sequence s => sequence (s.retimed g)
  | sequenceSet s => sequenceSet (s.retimed g)

variable {v r : Temporal V}

lemma instants_retimed (g : Timestamp → Timestamp) (v : Temporal V) :
    (v.retimed g).instants = v.instants.map (Instant.retimed g) := by
  cases v with
  | instant i => rfl
  | sequence s => rfl
  | sequenceSet s =>
    change (s.retimed g).sequences.flatMap Sequence.instants = _
    rw [SequenceSet.sequences_retimed, List.flatMap_map]
    change _ = (s.sequences.flatMap Sequence.instants).map (Instant.retimed g)
    rw [List.map_flatMap]
    rfl

lemma retimed_eq_iff : v.retimed g = v.retimed g' ↔ ∀ i ∈ v.instants, g i.time = g' i.time := by
  constructor
  · intro h i hi
    have hmap := congrArg instants h
    rw [instants_retimed, instants_retimed] at hmap
    exact congrArg Instant.time (List.map_inj_left.mp hmap i hi)
  · intro h
    cases v with
    | instant i =>
      change instant ⟨i.value, g i.time⟩ = instant ⟨i.value, g' i.time⟩
      rw [h i (List.mem_singleton.mpr rfl)]
    | sequence s => exact congrArg sequence (Sequence.retimed_congr h)
    | sequenceSet s =>
      refine congrArg sequenceSet (SequenceSet.retimed_congr fun x hx => ?_)
      exact Sequence.retimed_congr fun i hi => h i (List.mem_flatMap.mpr ⟨x, hx, hi⟩)

lemma retimed_retimed : (v.retimed g).retimed g' = v.retimed fun t => g' (g t) := by
  cases v with
  | instant i => rfl
  | sequence s => exact congrArg sequence s.retimed_retimed
  | sequenceSet s => exact congrArg sequenceSet s.retimed_retimed

lemma retimed_id : v.retimed id = v.rebuilt := by
  cases v with
  | instant i => rfl
  | sequence s => exact congrArg sequence s.retimed_id
  | sequenceSet s => exact congrArg sequenceSet s.retimed_id

lemma WellFormed.retimed [LawfulValue V] (h : v.WellFormed)
    (hrise : ∀ i ∈ v.instants, ∀ j ∈ v.instants, i.time.place < j.time.place →
      (g i.time).place < (g j.time).place) : (v.retimed g).WellFormed := by
  cases v with
  | instant i => exact wellFormed_instant _
  | sequence s => exact Sequence.WellFormed.retimed h hrise
  | sequenceSet s => exact SequenceSet.WellFormed.retimed h hrise

/-- What moving the timestamps of a value returns, if each of them can be moved. -/
theorem mapTimes_eq_ok_iff (h : ∀ i ∈ v.instants, move i.time = .ok (g i.time)) :
    v.mapTimes move = .ok r ↔ (v.retimed g).WellFormed ∧ v.retimed g = r := by
  cases v with
  | instant i =>
    change (do return instant ⟨i.value, ← move i.time⟩ : Result (Temporal V)) = .ok r ↔ _
    rw [bind_of_ok (h i (List.mem_singleton.mpr rfl))]
    exact ⟨fun hr => ⟨wellFormed_instant _, Except.ok.inj hr⟩, fun hr => congrArg Except.ok hr.2⟩
  | sequence s =>
    unfold mapTimes
    simp only [bind_eq_ok, pure_eq_ok, Sequence.mapTimes_eq_ok_iff h]
    constructor
    · rintro ⟨_, ⟨hwf, rfl⟩, rfl⟩
      exact ⟨hwf, rfl⟩
    · rintro ⟨hwf, rfl⟩
      exact ⟨_, ⟨hwf, rfl⟩, rfl⟩
  | sequenceSet s =>
    have hsequences : ∀ x ∈ s.sequences, ∀ y, x.mapTimes move = .ok y ↔
        (x.retimed g).WellFormed ∧ x.retimed g = y := fun x hx y =>
      Sequence.mapTimes_eq_ok_iff fun i hi => h i (List.mem_flatMap.mpr ⟨x, hx, hi⟩)
    unfold mapTimes
    simp only [bind_eq_ok, pure_eq_ok, mapM_eq_ok_of_iff hsequences]
    -- the sequences pass their checks one by one, then the set of them passes its own
    constructor
    · rintro ⟨_, ⟨hwf, rfl⟩, _, hmake, rfl⟩
      obtain ⟨hkinds, hrising, rfl⟩ := (SequenceSet.make_eq_ok_iff rfl).mp hmake
      refine ⟨⟨?_, hkinds, hrising⟩, rfl⟩
      rw [SequenceSet.sequences_retimed, List.forall_mem_map]
      exact hwf
    · rintro ⟨hwf, rfl⟩
      have hpieces := SequenceSet.WellFormed.sequences hwf
      rw [SequenceSet.sequences_retimed, List.forall_mem_map] at hpieces
      exact ⟨_, ⟨hpieces, rfl⟩, _, (SequenceSet.make_eq_ok_iff rfl).mpr
        ⟨SequenceSet.WellFormed.kinds hwf, SequenceSet.WellFormed.rising hwf, rfl⟩, rfl⟩

lemma exists_of_mapTimes (h : v.mapTimes move = .ok r) :
    ∀ i ∈ v.instants, ∃ u, move i.time = .ok u := by
  intro i hi
  cases v with
  | instant j =>
    obtain rfl := List.mem_singleton.mp hi
    exact (bind_eq_ok.mp h).imp fun u hu => hu.1
  | sequence s =>
    obtain ⟨_, hs, -⟩ := bind_eq_ok.mp h
    exact Sequence.exists_of_mapTimes hs i hi
  | sequenceSet s =>
    obtain ⟨_, hpieces, -⟩ := bind_eq_ok.mp h
    obtain ⟨x, hx, hi⟩ := List.mem_flatMap.mp hi
    obtain ⟨_, -, hs⟩ := mem_mapM_of_mem hpieces hx
    exact Sequence.exists_of_mapTimes hs i hi

end Temporal

end TemporalAlgebra
