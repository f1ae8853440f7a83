import TemporalAlgebra.Proofs.Box.Lawful
import TemporalAlgebra.Proofs.Temporal.Assembly

/-!
# Sound temporal values

A temporal value is sound if it is well-formed and every box that it keeps is the one of its
instants and bounds. Whatever is built from instants, or assembled from sound sequences, is
sound.
-/
namespace TemporalAlgebra

open TemporalBox

variable {V : Type} [TemporalValue V]

namespace Sequence

/-- A well-formed sequence that keeps the box of its instants and bounds. -/
structure Sound (s : Sequence V) : Prop where
  wellFormed : s.WellFormed
  box_eq : s.box = boxOf s.first s.rest s.lowerInc s.upperInc

lemma sound_rebox {s : Sequence V} (h : s.WellFormed) : (rebox s).Sound := ⟨h, rfl⟩

lemma returns_singleton {r : Result (Sequence V)} (h : Returns Sound r) :
    Returns (∀ s ∈ ·, s.Sound) (do return [← r]) := by
  refine Returns.bind h fun s hs => Returns.ok ?_
  exact List.forall_mem_singleton.mpr hs

variable [LawfulValue V]

lemma returns_makeRun (first : Instant V) (rest : List (Instant V)) (lowerInc upperInc : Bool)
    (interp : Interpolation) (normalizing : Bool) :
    Returns Sound (makeRun first rest lowerInc upperInc interp normalizing) := by
  intro s h
  have hwf := (builtFrom_of_makeRun h).wellFormed
  obtain ⟨-, -, rfl⟩ := makeRun_eq_ok_iff.mp h
  exact ⟨hwf, rfl⟩

lemma returns_make (instants : List (Instant V)) (lowerInc upperInc : Bool)
    (interp : Interpolation) (normalizing : Bool) :
    Returns Sound (make instants lowerInc upperInc interp normalizing) := by
  cases instants with
  | nil => exact Returns.refuse _
  | cons first rest => exact returns_makeRun first rest lowerInc upperInc interp normalizing

lemma sound_ofInstant [BoundedValue V] (i : Instant V) {interp : Interpolation}
    (h : interp = .linear → TemporalValue.continuous V = true) : (ofInstant i interp).Sound :=
  ⟨wellFormed_ofInstant i h, (BoundedValue.setPeriod_instantBox _ _ _).symm⟩

end Sequence

namespace SequenceSet

open Sequence

structure Sound (s : SequenceSet V) : Prop where
  wellFormed : s.WellFormed
  sequences : ∀ x ∈ s.sequences, x.Sound
  box_eq : s.box = s.rest.foldl (fun b x => hull b x.box) s.first.box

variable [LawfulValue V]

lemma returns_join {a : Sequence V} {rest : List (Sequence V)} (h : ∀ s ∈ a :: rest, s.Sound) :
    Returns (fun found => ∀ s ∈ found.1 :: found.2, s.Sound) (join a rest) := by
  induction rest generalizing a with
  | nil => exact Returns.ok h
  | cons b rest ih =>
    rw [List.forall_mem_cons, List.forall_mem_cons] at h
    obtain ⟨ha, hb, hrest⟩ := h
    rw [join]
    split
    · refine Returns.after fun kept => Returns.bind (returns_makeRun _ _ _ _ _ _) fun s hs => ?_
      exact ih (List.forall_mem_cons.mpr ⟨hs, hrest⟩)
    · refine Returns.bind (ih (List.forall_mem_cons.mpr ⟨hb, hrest⟩)) fun found hfound => ?_
      exact Returns.ok (List.forall_mem_cons.mpr ⟨ha, hfound⟩)

lemma returns_make {pieces : List (Sequence V)} (h : ∀ s ∈ pieces, s.Sound)
    (normalizing : Bool) : Returns Sound (make pieces normalizing) := by
  intro set hset
  have hwf := wellFormed_of_make (fun s hs => (h s hs).wellFormed) hset
  obtain ⟨first, rest, rfl⟩ := exists_cons_of_make hset
  obtain ⟨-, -, found, hfound, rfl⟩ := make_cons_eq_ok_iff.mp hset
  refine ⟨hwf, ?_, rfl⟩
  cases normalizing with
  | false =>
    obtain rfl : (first, rest) = found := Except.ok.inj hfound
    exact h
  | true => exact returns_join h found hfound

end SequenceSet

namespace Temporal

open Sequence

/-- A well-formed value whose boxes are those of its instants and bounds. A single instant keeps no
box. -/
def Sound : Temporal V → Prop
  | instant _ => True
  | sequence s => s.Sound
  | sequenceSet s => s.Sound

lemma Sound.wellFormed {v : Temporal V} (h : v.Sound) : v.WellFormed := by
  cases v with
  | instant i => exact wellFormed_instant i
  | sequence s => exact Sequence.Sound.wellFormed h
  | sequenceSet s => exact SequenceSet.Sound.wellFormed h

lemma returns_sequence {r : Result (Sequence V)} (h : Returns Sequence.Sound r) :
    Returns Sound (do return sequence (← r)) := Returns.bind h fun _ hs => Returns.ok hs

lemma returns_sequenceSet {r : Result (SequenceSet V)} (h : Returns SequenceSet.Sound r) :
    Returns Sound (do return sequenceSet (← r)) := Returns.bind h fun _ hs => Returns.ok hs

variable [LawfulValue V]

lemma Sound.sequences [BoundedValue V] {v : Temporal V} (h : v.Sound) :
    ∀ s ∈ v.sequences, s.Sound := by
  cases v with
  | instant i => exact List.forall_mem_singleton.mpr (sound_ofInstant i (by simp))
  | sequence s => exact List.forall_mem_singleton.mpr h
  | sequenceSet s => exact SequenceSet.Sound.sequences h

lemma returns_ofSequences {pieces : List (Sequence V)} (h : ∀ s ∈ pieces, s.Sound) :
    Returns Sound (ofSequences pieces) := by
  unfold ofSequences
  split
  · exact Returns.ok (h _ (List.mem_singleton.mpr rfl))
  · refine Returns.bind (SequenceSet.returns_make h true) fun set hset => Returns.ok ?_
    split
    · exact hset.sequences _ (List.mem_cons_self ..)
    · exact hset

lemma returns_ofPieces {pieces : List (Sequence V)} (h : ∀ s ∈ pieces, s.Sound) :
    Returns (∀ v ∈ ·, v.Sound) (ofPieces pieces) := by
  unfold ofPieces
  split
  · exact Returns.nothing
  · split
    · split
      · exact Returns.found (p := Sound) (h _ (List.mem_cons_self ..))
      · exact Returns.asFound (Sequence.returns_make _ _ _ _ _)
    · refine Returns.asFound (f := id) (returns_ofSequences fun s hs => ?_)
      exact h s (List.mem_mergeSort.mp hs)

lemma returns_ofPieces_mapM {α : Type} {as : List α} {f : α → Result (List (Sequence V))}
    (h : ∀ a ∈ as, Returns (∀ s ∈ ·, s.Sound) (f a)) :
    Returns (∀ v ∈ ·, v.Sound) (do ofPieces (← as.mapM f).flatten) := by
  refine Returns.bind (Returns.mapM h) fun found hfound => ?_
  apply returns_ofPieces
  intro s hs
  obtain ⟨pieces, hpieces, hs⟩ := List.mem_flatten.mp hs
  exact hfound pieces hpieces s hs

end Temporal

end TemporalAlgebra
