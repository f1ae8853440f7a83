import TemporalAlgebra.Proofs.Temporal.Settling
import TemporalAlgebra.Proofs.Temporal.TimeRestriction
import TemporalAlgebra.Temporal.Append

/-!
# Merging values

Values that only change by steps are merged if they agree wherever they meet. Discrete ones may
share timestamps at which they are equal, continuous ones only those at which one ends and another
one starts. What is merged is defined where any of the values is and takes their values there,
whatever their order.
-/
namespace TemporalAlgebra

variable {V : Type} [TemporalValue V]

def Instant.Agree (i j : Instant V) : Prop := i.time.place = j.time.place → i = j

omit [TemporalValue V] in
lemma Instant.Agree.symm {i j : Instant V} (h : i.Agree j) : j.Agree i :=
  fun heq => (h heq.symm).symm

namespace Sequence

variable [StepValue V]

/-- Instants sorted by time can be united if those at one timestamp are the same. -/
lemma exists_unite {a : Instant V} {rest : List (Instant V)}
    (hsorted : (a :: rest).Pairwise fun i j => i.time.place ≤ j.time.place)
    (h : (a :: rest).Pairwise Instant.Agree) :
    ∃ found, unite a rest = .ok found ∧ found.Pairwise Instant.Precedes ∧
      ∀ i, i ∈ found ↔ i ∈ a :: rest := by
  induction rest generalizing a with
  | nil => exact ⟨[a], rfl, by simp, fun i => Iff.rfl⟩
  | cons b rest ih =>
    have hle : a.time.place ≤ b.time.place := List.rel_of_pairwise_cons hsorted (by simp)
    rw [unite]
    by_cases htime : (a.time == b.time) = true
    · have hab : a = b := List.rel_of_pairwise_cons h (by simp) (Timestamp.beq_iff.mp htime)
      obtain ⟨found, hok, hrising, hmem⟩ := ih hsorted.tail h.tail
      subst hab
      refine ⟨found, ?_, hrising, fun i => ?_⟩
      · rw [if_pos htime, check_bind_eq_ok, require_eq_ok]
        exact ⟨beq_self_eq_true _, hok⟩
      · rw [hmem]
        simp
    · have hlt := lt_of_le_of_ne hle (mt Timestamp.beq_iff.mpr htime)
      obtain ⟨found, hok, hrising, hmem⟩ := ih hsorted.tail h.tail
      refine ⟨a :: found, ?_, ?_, fun i => ?_⟩
      · rw [if_neg htime]
        simp only [bind_eq_ok, pure_eq_ok]
        exact ⟨found, hok, rfl⟩
      · refine List.pairwise_cons.mpr ⟨fun i hi => ?_, hrising⟩
        refine ⟨hlt.trans_le ?_, StepValue.compatible_eq_ok _ _⟩
        rcases List.mem_cons.mp ((hmem i).mp hi) with rfl | hi
        · exact le_refl _
        · exact List.rel_of_pairwise_cons hsorted.tail hi
      · rw [List.mem_cons, List.mem_cons, hmem]

/-- Instants sorted by time that could be united are the same where they share a timestamp. -/
lemma agree_of_unite {a : Instant V} {rest found : List (Instant V)}
    (hsorted : (a :: rest).Pairwise fun i j => i.time.place ≤ j.time.place)
    (h : unite a rest = .ok found) : (a :: rest).Pairwise Instant.Agree := by
  induction rest generalizing a found with
  | nil => simp
  | cons b rest ih =>
    have hle : a.time.place ≤ b.time.place := List.rel_of_pairwise_cons hsorted (by simp)
    rw [unite] at h
    by_cases htime : (a.time == b.time) = true
    · rw [if_pos htime, check_bind_eq_ok, require_eq_ok] at h
      have hab : a = b := by
        rw [Instant.mk.injEq]
        exact ⟨eq_of_beq h.1, eq_of_beq htime⟩
      subst hab
      have hpair := ih hsorted.tail h.2
      refine List.pairwise_cons.mpr ⟨fun i hi => ?_, hpair⟩
      rcases List.mem_cons.mp hi with rfl | hi
      · exact fun _ => rfl
      · exact List.rel_of_pairwise_cons hpair hi
    · rw [if_neg htime] at h
      simp only [bind_eq_ok, pure_eq_ok] at h
      obtain ⟨more, hok, -⟩ := h
      have hlt := lt_of_le_of_ne hle (mt Timestamp.beq_iff.mpr htime)
      refine List.pairwise_cons.mpr ⟨fun i hi heq => ?_, ih hsorted.tail hok⟩
      have hbi : b.time.place ≤ i.time.place := by
        rcases List.mem_cons.mp hi with rfl | hi
        · exact le_refl _
        · exact List.rel_of_pairwise_cons hsorted.tail hi
      omega

end Sequence

namespace Temporal

open Sequence

section

variable [StepValue V]

/-! ### Discrete values -/

def sortedInstants (values : List (Temporal V)) : List (Instant V) :=
  (values.flatMap instants).mergeSort fun a b => a.time ≤ b.time

omit [StepValue V] in
lemma sortedInstants_perm (values : List (Temporal V)) :
    (sortedInstants values).Perm (values.flatMap instants) := List.mergeSort_perm _ _

omit [StepValue V] in
/-- Instants that agree are sorted to the same list in whatever order the values come. -/
lemma sortedInstants_eq {values others : List (Temporal V)} (hperm : values.Perm others)
    (h : (values.flatMap instants).Pairwise Instant.Agree) :
    sortedInstants values = sortedInstants others := by
  refine List.Perm.eq_of_pairwise ?_ (pairwise_sort_times _) (pairwise_sort_times _)
    ((sortedInstants_perm values).trans
      ((hperm.flatMap_right instants).trans (sortedInstants_perm others).symm))
  intro i j hi hj hij hji
  have hi := (sortedInstants_perm values).mem_iff.mp hi
  have hj := (hperm.flatMap_right instants).mem_iff.mpr
    ((sortedInstants_perm others).mem_iff.mp hj)
  by_contra hne
  have hs : Std.Symm (Instant.Agree (V := V)) := ⟨fun _ _ => Instant.Agree.symm⟩
  exact hne (h.forall hi hj hne (le_antisymm hij hji))

omit [StepValue V] in
lemma mergeDiscrete_congr {values others : List (Temporal V)}
    (h : sortedInstants values = sortedInstants others) :
    mergeDiscrete values = mergeDiscrete others := by
  unfold sortedInstants at h
  unfold mergeDiscrete
  rw [h]

lemma agree_of_mergeDiscrete {values : List (Temporal V)} {m : Temporal V}
    (h : mergeDiscrete values = .ok m) : (values.flatMap instants).Pairwise Instant.Agree := by
  rw [← (sortedInstants_perm values).pairwise_iff Instant.Agree.symm]
  have hsorted := pairwise_sort_times (values.flatMap instants)
  unfold mergeDiscrete at h
  unfold sortedInstants
  cases hs : (values.flatMap instants).mergeSort fun a b => a.time ≤ b.time with
  | nil => exact List.Pairwise.nil
  | cons first rest =>
    rw [hs] at h hsorted
    simp only [bind_eq_ok] at h
    obtain ⟨found, hok, -⟩ := h
    exact agree_of_unite hsorted hok

/-- Discrete values that have the same instants where they share a timestamp are merged into one
discrete value with all of the instants. -/
lemma exists_mergeDiscrete {values : List (Temporal V)} (hne : values ≠ [])
    (h : (values.flatMap instants).Pairwise Instant.Agree) :
    ∃ m, mergeDiscrete values = .ok m ∧ m.WellFormed ∧ m.isDiscrete = true ∧
      ∀ i, i ∈ m.instants ↔ i ∈ values.flatMap instants := by
  have hperm := sortedInstants_perm values
  have hsorted := pairwise_sort_times (values.flatMap instants)
  rw [← hperm.pairwise_iff Instant.Agree.symm] at h
  unfold sortedInstants at h hperm
  unfold mergeDiscrete
  cases hs : (values.flatMap instants).mergeSort fun a b => a.time ≤ b.time with
  | nil =>
    obtain ⟨v, hv⟩ := List.exists_mem_of_ne_nil values hne
    rw [hs] at hperm
    exact absurd (hperm.mem_iff.mpr (List.mem_flatMap.mpr ⟨v, hv, v.firstInstant_mem⟩)) (by simp)
  | cons first rest =>
    rw [hs] at h hsorted hperm
    obtain ⟨found, hok, hrising, hmem⟩ := exists_unite hsorted h
    have hall : ∀ i, i ∈ found ↔ i ∈ values.flatMap instants := fun i => by
      rw [hmem, hperm.mem_iff]
    match found with
    | [] => exact absurd ((hmem first).mpr (by simp)) (by simp)
    | [i] =>
      refine ⟨instant i, ?_, wellFormed_instant i, rfl, hall⟩
      exact bind_eq_ok.mpr ⟨[i], hok, rfl⟩
    | i :: j :: more =>
      have hs := makeRun_eq_ok (checked_discrete hrising)
      have hinstants : (ofRun i (j :: more) true true .discrete).instants = i :: j :: more := rfl
      generalize ofRun i (j :: more) true true .discrete = s at hs hinstants
      have hbuilt := builtFrom_of_makeRun hs
      refine ⟨sequence s, ?_, hbuilt.wellFormed, isDiscrete_iff.mpr hbuilt.interp_eq, fun i => ?_⟩
      · exact bind_eq_ok.mpr ⟨i :: j :: more, hok, bind_eq_ok.mpr ⟨s, hs, rfl⟩⟩
      · rw [← hall, ← hinstants]
        rfl

lemma takes_of_discrete {v : Temporal V} (h : v.WellFormed) (hd : v.isDiscrete = true) (n : Int)
    (x : V) : v.Takes n x ↔ ∃ i ∈ v.instants, i.time.place = n ∧ i.value = x := by
  have hseq : ∀ s ∈ v.sequences, s.isDiscrete = true := fun s hs =>
    isDiscrete_iff.mpr ((h.interp_eq s hs).trans (beq_iff_eq.mp hd))
  constructor
  · rintro ⟨s, hs, hx⟩
    obtain ⟨i, hi, hx⟩ := ((h.sequences s hs).takes_of_discrete (hseq s hs) n x).mp hx
    exact ⟨i, mem_instants_iff.mpr ⟨s, hs, hi⟩, hx⟩
  · rintro ⟨i, hi, hx⟩
    obtain ⟨s, hs, hi⟩ := mem_instants_iff.mp hi
    exact ⟨s, hs, ((h.sequences s hs).takes_of_discrete (hseq s hs) n x).mpr ⟨i, hi, hx⟩⟩

lemma takes_of_instants {values : List (Temporal V)} (hwf : ∀ v ∈ values, v.WellFormed)
    (hd : ∀ v ∈ values, v.isDiscrete = true) {m : Temporal V} (hm : m.WellFormed)
    (hmd : m.isDiscrete = true) (h : ∀ i, i ∈ m.instants ↔ i ∈ values.flatMap instants) (n : Int)
    (x : V) : m.Takes n x ↔ ∃ v ∈ values, v.Takes n x := by
  rw [takes_of_discrete hm hmd]
  constructor
  · rintro ⟨i, hi, hx⟩
    obtain ⟨v, hv, hi⟩ := List.mem_flatMap.mp ((h i).mp hi)
    exact ⟨v, hv, (takes_of_discrete (hwf v hv) (hd v hv) n x).mpr ⟨i, hi, hx⟩⟩
  · rintro ⟨v, hv, hx⟩
    obtain ⟨i, hi, hx⟩ := (takes_of_discrete (hwf v hv) (hd v hv) n x).mp hx
    exact ⟨i, (h i).mpr (List.mem_flatMap.mpr ⟨v, hv, hi⟩), hx⟩

/-! ### Continuous values -/

/-- The sequences as which a value is merged with continuous ones. -/
def stepPieces : Temporal V → List (Sequence V)
  | instant i => [.ofInstant i .step]
  | sequence s => [s]
  | sequenceSet s => s.sequences

/-- A value that is merged with continuous ones: it is one of them or a single instant. -/
def Mergeable (v : Temporal V) : Prop := v.isInstant = true ∨ v.isDiscrete = false

omit [StepValue V] in
lemma sequencesToMerge_eq_ok {v : Temporal V} {pieces : List (Sequence V)} :
    sequencesToMerge .step v = .ok pieces ↔ v.Mergeable ∧ v.stepPieces = pieces := by
  cases v with
  | instant i => simp [sequencesToMerge, Mergeable, isInstant, stepPieces]
  | sequence s =>
    simp [sequencesToMerge, Mergeable, isInstant, stepPieces, sequences]
  | sequenceSet s =>
    simp [sequencesToMerge, Mergeable, isInstant, stepPieces, sequences]

omit [StepValue V] in
lemma mapM_sequencesToMerge {values : List (Temporal V)} {found : List (List (Sequence V))} :
    values.mapM (sequencesToMerge .step) = .ok found ↔
      (∀ v ∈ values, v.Mergeable) ∧ values.map stepPieces = found := by
  induction values generalizing found with
  | nil => simp
  | cons v rest ih =>
    rw [List.mapM_cons]
    simp only [bind_eq_ok, pure_eq_ok, sequencesToMerge_eq_ok, ih, List.forall_mem_cons,
      List.map_cons]
    constructor
    · rintro ⟨_, ⟨hv, rfl⟩, _, ⟨hrest, rfl⟩, rfl⟩
      exact ⟨⟨hv, hrest⟩, rfl⟩
    · rintro ⟨⟨hv, hrest⟩, rfl⟩
      exact ⟨_, ⟨hv, rfl⟩, _, ⟨hrest, rfl⟩, rfl⟩

omit [StepValue V] in
lemma gathers_stepPieces (v : Temporal V) : Gathers v.sequences v.stepPieces := by
  cases v with
  | instant i =>
    refine ⟨fun n => ?_, fun _ n x => ?_, fun s hs j hj => ?_⟩
    · simp [sequences, stepPieces, covers_ofInstant]
    · simp [sequences, stepPieces, takes_ofInstant]
    · obtain rfl := List.mem_singleton.mp hs
      exact ⟨_, List.mem_singleton.mpr rfl, hj⟩
  | sequence s => exact Gathers.refl _
  | sequenceSet s => exact Gathers.refl _

lemma stepped_of_mem_stepPieces {v : Temporal V} (h : v.WellFormed) (hm : v.Mergeable) :
    ∀ s ∈ v.stepPieces, s.Stepped := by
  cases v with
  | instant i =>
    intro s hs
    obtain rfl := List.mem_singleton.mp hs
    exact ⟨wellFormed_ofInstant i (by simp), rfl⟩
  | sequence s =>
    have hd := hm.resolve_left Bool.false_ne_true
    exact fun x hx => ⟨h.sequences x hx, (h.interp_eq x hx).trans (h.interp_eq_step hd)⟩
  | sequenceSet s =>
    have hd := hm.resolve_left Bool.false_ne_true
    exact fun x hx => ⟨h.sequences x hx, (h.interp_eq x hx).trans (h.interp_eq_step hd)⟩

section

variable {pieces : List (Sequence V)} (hne : pieces ≠ []) (hp : ∀ s ∈ pieces, s.Stepped)

include hp in
omit [StepValue V] in
lemma mergeSequences_eq_ok {m : Temporal V} {first : Sequence V} {rest : List (Sequence V)}
    (hs : Sequence.sort pieces = first :: rest) : mergeSequences .step pieces = .ok m ↔
      ∃ found, settle first rest = .ok found ∧ ofSequences found = .ok m := by
  have hall : (pieces.all fun s => s.interp == .step) = true :=
    List.all_eq_true.mpr fun s hs => beq_iff_eq.mpr (hp s hs).interp_eq
  unfold mergeSequences
  rw [check_bind_eq_ok, require_eq_ok, hs]
  simp only [bind_eq_ok]
  exact and_iff_right hall

include hne in
omit [StepValue V] in
lemma exists_sort_cons : ∃ first rest, Sequence.sort pieces = first :: rest := by
  have hperm := sort_perm pieces
  refine List.exists_cons_of_ne_nil fun hn => hne ?_
  rw [hn] at hperm
  exact hperm.symm.eq_nil

include hne hp

lemma exists_mergeSequences (h : pieces.Pairwise Agree) :
    ∃ m, mergeSequences .step pieces = .ok m ∧ m.WellFormed ∧ Gathers pieces m.sequences := by
  have hperm := sort_perm pieces
  have hleads := (pairwise_leads_sort hp).mpr h
  obtain ⟨first, rest, hs⟩ := exists_sort_cons hne
  rw [hs] at hperm hleads
  obtain ⟨found, hok, htrain, hg, hfound, -⟩ := exists_settle
    (fun s h => hp s (hperm.mem_iff.mp h)) hleads
  obtain ⟨m, hm, hwfm, -, hgm⟩ := exists_ofSequences_of_step hfound htrain
  refine ⟨m, (mergeSequences_eq_ok hp hs).mpr ⟨found, hok, hm⟩, hwfm, ?_⟩
  exact (Gathers.perm hperm.symm).trans (hg.trans hgm)

lemma agree_of_mergeSequences {m : Temporal V} (h : mergeSequences .step pieces = .ok m) :
    pieces.Pairwise Agree := by
  have hperm := sort_perm pieces
  obtain ⟨first, rest, hs⟩ := exists_sort_cons hne
  obtain ⟨found, hok, -⟩ := (mergeSequences_eq_ok hp hs).mp h
  rw [← pairwise_leads_sort hp, hs]
  rw [hs] at hperm
  exact leads_of_settle (fun s h => hp s (hperm.mem_iff.mp h)) hok

/-- Sequences are merged to equal values in whatever order they come. -/
lemma mergeSequences_perm {others : List (Sequence V)} (hperm : pieces.Perm others)
    {m : Temporal V} (h : mergeSequences .step pieces = .ok m) :
    ∃ m', mergeSequences .step others = .ok m' ∧ m.rebuilt = m'.rebuilt := by
  have hagree := agree_of_mergeSequences hne hp h
  have hne' : others ≠ [] := fun hn => hne (hn ▸ hperm).eq_nil
  have hp' : ∀ s ∈ others, s.Stepped := fun s hs => hp s (hperm.mem_iff.mpr hs)
  obtain ⟨m', hm', -⟩ := exists_mergeSequences hne' hp'
    ((hperm.pairwise_iff Agree.symm).mp hagree)
  refine ⟨m', hm', ?_⟩
  have hsort := map_rebuilt_sort hperm hp hagree
  obtain ⟨first, rest, hs⟩ := exists_sort_cons hne
  obtain ⟨first', rest', hs'⟩ := exists_sort_cons hne'
  obtain ⟨found, hok, hofs⟩ := (mergeSequences_eq_ok hp hs).mp h
  obtain ⟨found', hok', hofs'⟩ := (mergeSequences_eq_ok hp' hs').mp hm'
  rw [hs, hs'] at hsort
  obtain ⟨hfirst, hrest⟩ := List.cons.inj hsort
  have hsettle := settle_rebuilt hok
  rw [hfirst, hrest, settle_rebuilt hok'] at hsettle
  have hfound := ofSequences_rebuilt hofs
  rw [← Except.ok.inj hsettle, ofSequences_rebuilt hofs'] at hfound
  exact (Except.ok.inj hfound).symm

end

/-! ### All values -/

lemma forM_compatible (x : V) (values : List (Temporal V)) :
    (values.forM fun v => TemporalValue.compatible x v.firstInstant.value) = .ok () := by
  induction values with
  | nil => rfl
  | cons v rest ih =>
    rw [List.forM, StepValue.compatible_eq_ok]
    exact ih

lemma mergeAll_discrete {values : List (Temporal V)} (hne : values ≠ [])
    (hd : ∀ v ∈ values, v.isDiscrete = true) : mergeAll values = mergeDiscrete values := by
  obtain ⟨first, rest, rfl⟩ := List.exists_cons_of_ne_nil hne
  have hfind : ((first :: rest).find? fun v => !v.isDiscrete) = none :=
    List.find?_eq_none.mpr fun v hv => by simp [hd v hv]
  rw [mergeAll, forM_compatible, hfind]
  rfl

lemma mergeAll_continuous {values : List (Temporal V)} (hwf : ∀ v ∈ values, v.WellFormed)
    (hc : ∃ v ∈ values, v.isDiscrete = false) {m : Temporal V} : mergeAll values = .ok m ↔
      (∀ v ∈ values, v.Mergeable) ∧ mergeSequences .step (values.flatMap stepPieces) = .ok m := by
  obtain ⟨v, hv, hd⟩ := hc
  obtain ⟨first, rest, rfl⟩ := List.exists_cons_of_ne_nil (List.ne_nil_of_mem hv)
  cases hfind : (first :: rest).find? fun v => !v.isDiscrete with
  | none => simpa [hd] using List.find?_eq_none.mp hfind v hv
  | some w =>
    have hw := List.mem_of_find?_eq_some hfind
    have hwd : w.isDiscrete = false := by
      simpa using List.find?_some hfind
    rw [mergeAll, check_bind_eq_ok, forM_compatible, hfind, List.flatMap_def]
    simp only [true_and, (hwf w hw).interp_eq_step hwd, bind_eq_ok, mapM_sequencesToMerge]
    constructor
    · rintro ⟨_, ⟨hm, rfl⟩, h⟩
      exact ⟨hm, h⟩
    · rintro ⟨hm, h⟩
      exact ⟨_, ⟨hm, rfl⟩, h⟩

/-- The sequences as which values are merged are sequences of steps. -/
lemma flatMap_stepPieces_spec {values : List (Temporal V)} (hwf : ∀ v ∈ values, v.WellFormed)
    (hne : values ≠ []) (hm : ∀ v ∈ values, v.Mergeable) :
    values.flatMap stepPieces ≠ [] ∧ ∀ s ∈ values.flatMap stepPieces, s.Stepped := by
  refine ⟨fun hn => ?_, fun s hs => ?_⟩
  · obtain ⟨v, hv⟩ := List.exists_mem_of_ne_nil values hne
    have hnil := List.flatMap_eq_nil_iff.mp hn v hv
    cases v <;> simp [stepPieces, SequenceSet.sequences] at hnil
  · obtain ⟨v, hv, hs⟩ := List.mem_flatMap.mp hs
    exact stepped_of_mem_stepPieces (hwf v hv) (hm v hv) s hs

lemma exists_mergeAll {values : List (Temporal V)} (hwf : ∀ v ∈ values, v.WellFormed)
    (hc : ∃ v ∈ values, v.isDiscrete = false) (hm : ∀ v ∈ values, v.Mergeable)
    (h : (values.flatMap stepPieces).Pairwise Agree) : ∃ m, mergeAll values = .ok m ∧
      m.WellFormed ∧ ∀ n x, m.Takes n x ↔ ∃ v ∈ values, v.Takes n x := by
  obtain ⟨v, hv, -⟩ := id hc
  obtain ⟨hne, hp⟩ := flatMap_stepPieces_spec hwf (List.ne_nil_of_mem hv) hm
  obtain ⟨m, hok, hwfm, hg⟩ := exists_mergeSequences hne hp h
  refine ⟨m, (mergeAll_continuous hwf hc).mpr ⟨hm, hok⟩, hwfm, fun n x => ?_⟩
  change (∃ s ∈ m.sequences, s.Takes n x) ↔ _
  rw [hg.takes_iff inferInstance]
  simp only [List.mem_flatMap]
  constructor
  · rintro ⟨s, ⟨w, hw, hs⟩, hx⟩
    exact ⟨w, hw, ((gathers_stepPieces w).takes_iff inferInstance n x).mp ⟨s, hs, hx⟩⟩
  · rintro ⟨w, hw, hx⟩
    obtain ⟨s, hs, hx⟩ := ((gathers_stepPieces w).takes_iff inferInstance n x).mpr hx
    exact ⟨s, ⟨w, hw, hs⟩, hx⟩

lemma agree_of_mergeAll {values : List (Temporal V)} (hwf : ∀ v ∈ values, v.WellFormed)
    (hc : ∃ v ∈ values, v.isDiscrete = false) {m : Temporal V} (h : mergeAll values = .ok m) :
    (∀ v ∈ values, v.Mergeable) ∧ (values.flatMap stepPieces).Pairwise Agree := by
  obtain ⟨v, hv, -⟩ := id hc
  obtain ⟨hm, h⟩ := (mergeAll_continuous hwf hc).mp h
  obtain ⟨hne, hp⟩ := flatMap_stepPieces_spec hwf (List.ne_nil_of_mem hv) hm
  exact ⟨hm, agree_of_mergeSequences hne hp h⟩

lemma exists_mergeAll_pair {s s' : Sequence V} (h : s.Stepped) (h' : s'.Stepped)
    (hagree : s.Agree s') : ∃ m, mergeAll [sequence s, sequence s'] = .ok m := by
  have hwf : ∀ v ∈ [sequence s, sequence s'], v.WellFormed :=
    List.forall_mem_cons.mpr ⟨h.wellFormed, List.forall_mem_singleton.mpr h'.wellFormed⟩
  obtain ⟨m, hm, -⟩ := exists_mergeAll hwf ⟨sequence s, by simp, h.isDiscrete⟩
    (List.forall_mem_cons.mpr ⟨Or.inr h.isDiscrete,
      List.forall_mem_singleton.mpr (Or.inr h'.isDiscrete)⟩)
    (List.pairwise_pair.mpr hagree)
  exact ⟨m, hm⟩

omit [StepValue V] in
lemma ne_nil_of_mergeAll {values : List (Temporal V)} {m : Temporal V}
    (h : mergeAll values = .ok m) : values ≠ [] := by
  rintro rfl
  simp [mergeAll] at h

/-- What values are merged into is well-formed and takes what any of them takes. -/
theorem mergeAll_spec {values : List (Temporal V)} (hwf : ∀ v ∈ values, v.WellFormed)
    {m : Temporal V} (h : mergeAll values = .ok m) :
    m.WellFormed ∧ ∀ n x, m.Takes n x ↔ ∃ v ∈ values, v.Takes n x := by
  by_cases hc : ∃ v ∈ values, v.isDiscrete = false
  · obtain ⟨hm, hagree⟩ := agree_of_mergeAll hwf hc h
    obtain ⟨m', hm', hspec⟩ := exists_mergeAll hwf hc hm hagree
    obtain rfl := Except.ok.inj (h.symm.trans hm')
    exact hspec
  · have hd : ∀ v ∈ values, v.isDiscrete = true := by simpa using hc
    have hne := ne_nil_of_mergeAll h
    rw [mergeAll_discrete hne hd] at h
    obtain ⟨m', hm', hwfm, hmd, hinstants⟩ := exists_mergeDiscrete hne (agree_of_mergeDiscrete h)
    obtain rfl := Except.ok.inj (h.symm.trans hm')
    exact ⟨hwfm, takes_of_instants hwf hd hwfm hmd hinstants⟩

/-- Values are merged into equal ones in whatever order they come. -/
theorem mergeAll_perm {values others : List (Temporal V)} (hperm : values.Perm others)
    (hwf : ∀ v ∈ values, v.WellFormed) {m : Temporal V} (h : mergeAll values = .ok m) :
    ∃ m', mergeAll others = .ok m' ∧ m.rebuilt = m'.rebuilt := by
  have hne := ne_nil_of_mergeAll h
  by_cases hc : ∃ v ∈ values, v.isDiscrete = false
  · have hc' : ∃ v ∈ others, v.isDiscrete = false := by simpa only [hperm.mem_iff] using hc
    obtain ⟨hm, h⟩ := (mergeAll_continuous hwf hc).mp h
    obtain ⟨hnep, hp⟩ := flatMap_stepPieces_spec hwf hne hm
    obtain ⟨m', hm', heq⟩ := mergeSequences_perm hnep hp (hperm.flatMap_right stepPieces) h
    exact ⟨m', (mergeAll_continuous (fun v hv => hwf v (hperm.mem_iff.mpr hv)) hc').mpr
      ⟨fun v hv => hm v (hperm.mem_iff.mpr hv), hm'⟩, heq⟩
  · have hd : ∀ v ∈ values, v.isDiscrete = true := by simpa using hc
    have hne' : others ≠ [] := fun hn => hne (hn ▸ hperm).eq_nil
    have hd' : ∀ v ∈ others, v.isDiscrete = true := fun v hv => hd v (hperm.mem_iff.mpr hv)
    rw [mergeAll_discrete hne hd] at h
    refine ⟨m, ?_, rfl⟩
    rw [mergeAll_discrete hne' hd', ← h]
    exact (mergeDiscrete_congr (sortedInstants_eq hperm (agree_of_mergeDiscrete h))).symm

/-- Whether a value is the union of given ones, which agree wherever they meet. -/
structure Unites (values : List (Temporal V)) (m : Temporal V) : Prop where
  agree : ∀ t, ∀ v ∈ values, ∀ w ∈ values, ∀ x y,
    v.valueAt t = some x → w.valueAt t = some y → x = y
  valueAt_eq : ∀ t, ∀ v ∈ values, ∀ x, v.valueAt t = some x → m.valueAt t = some x
  valueAt_eq_none : ∀ t, (∀ v ∈ values, v.valueAt t = none) → m.valueAt t = none
  time_eq : some m.time = SpanSet.ofSpans? (values.flatMap fun v => v.time.spans)

lemma unites_of_mergeAll {values : List (Temporal V)} (hwf : ∀ v ∈ values, v.WellFormed)
    {m : Temporal V} (h : mergeAll values = .ok m) : Unites values m := by
  obtain ⟨hwfm, htakes⟩ := mergeAll_spec hwf h
  have hvalue : ∀ t, ∀ v ∈ values, ∀ x, v.valueAt t = some x → m.valueAt t = some x := by
    intro t v hv x hx
    rw [hwfm.valueAt_eq_some_iff, htakes]
    exact ⟨v, hv, ((hwf v hv).valueAt_eq_some_iff t x).mp hx⟩
  refine ⟨fun t v hv w hw x y hx hy => ?_, hvalue, fun t hnone => ?_, ?_⟩
  · exact Option.some.inj ((hvalue t v hv x hx).symm.trans (hvalue t w hw y hy))
  · refine Option.eq_none_iff_forall_ne_some.mpr fun x hx => ?_
    obtain ⟨v, hv, hx⟩ := (htakes _ _).mp ((hwfm.valueAt_eq_some_iff t x).mp hx)
    rw [← (hwf v hv).valueAt_eq_some_iff, hnone v hv] at hx
    exact absurd hx (by simp)
  · obtain ⟨hset, hunion⟩ := unionOfTimes_spec hwf
    change (some m).map time = _
    refine map_time_eq (by simpa using hwfm) hset fun n => ?_
    rw [hunion, someCovers_some, covers_iff_exists_takes]
    simp only [covers_iff_exists_takes, htakes]
    rw [exists_comm]
    simp only [exists_and_left]

lemma mergeAll_commutes {values others : List (Temporal V)} (hperm : values.Perm others)
    (hwf : ∀ v ∈ values, v.WellFormed) :
    ((∃ m, mergeAll values = .ok m) ↔ ∃ m, mergeAll others = .ok m) ∧
      ∀ m m', mergeAll values = .ok m → mergeAll others = .ok m' → (m == m') = true := by
  have hwf' : ∀ v ∈ others, v.WellFormed := fun v hv => hwf v (hperm.mem_iff.mpr hv)
  refine ⟨⟨fun ⟨m, h⟩ => ?_, fun ⟨m, h⟩ => ?_⟩, fun m m' h h' => ?_⟩
  · obtain ⟨m', h', -⟩ := mergeAll_perm hperm hwf h
    exact ⟨m', h'⟩
  · obtain ⟨m', h', -⟩ := mergeAll_perm hperm.symm hwf' h
    exact ⟨m', h'⟩
  · obtain ⟨m'', h'', heq⟩ := mergeAll_perm hperm hwf h
    obtain rfl := Except.ok.inj (h'.symm.trans h'')
    exact beq_iff.mpr heq

end

/-- Merging is a union of values that agree, whatever their order: it succeeds in one order if it
does in another, with equal results. So it is commutative, and appending a sequence is merging with
it. -/
theorem merging_unites [StepValue V] :
    (∀ {values others : List (Temporal V)}, values.Perm others → (∀ v ∈ values, v.WellFormed) →
      ((∃ m, mergeArray values = .ok m) ↔ ∃ m, mergeArray others = .ok m) ∧
        (∀ m m', mergeArray values = .ok m → mergeArray others = .ok m' → (m == m') = true) ∧
        ∀ m, mergeArray values = .ok m → Unites values m) ∧
    (∀ {a b : Temporal V}, a.WellFormed → b.WellFormed →
      ((∃ m, merge a b = .ok m) ↔ ∃ m, merge b a = .ok m) ∧
        ∀ m m', merge a b = .ok m → merge b a = .ok m' → (m == m') = true) ∧
    ∀ {v w : Temporal V} {s : Sequence V}, v.WellFormed → s.WellFormed →
      v.appendSequence s = .ok w → ∃ m, v.merge (sequence s) = .ok m ∧ (w == m) = true := by
  unfold mergeArray merge appendSequence
  simp only [reported_eq_ok]
  refine ⟨fun hperm hwf => ?_, fun ha hb => ?_, fun hv hs h => ?_⟩
  · obtain ⟨hiff, heq⟩ := mergeAll_commutes hperm hwf
    exact ⟨hiff, heq, fun m h => unites_of_mergeAll hwf h⟩
  · apply mergeAll_commutes (List.Perm.swap _ _ _)
    simp [ha, hb]
  · simp only [check_bind_eq_ok] at h
    obtain ⟨-, -, -, h⟩ := h
    exact ⟨_, h, beq_iff.mpr rfl⟩

def landing : Sequence Integer :=
  .ofRun ⟨.clamp 3, .nearest 20⟩ [⟨.clamp 3, .nearest 30⟩] true true .step

lemma landing_wellFormed : landing.WellFormed := rfl

/-- The stairs and what starts where they end are merged in either order, and the one is appended
to the other. -/
theorem stairs_united_with_landing :
    stairs.WellFormed ∧ landing.WellFormed ∧
      ∃ m m', mergeArray [stairs, sequence landing] = .ok m ∧
        mergeArray [sequence landing, stairs] = .ok m' ∧ (m == m') = true ∧
        m.valueAt (.nearest 20) = some (.clamp 3) ∧ m.valueAt (.nearest 40) = none ∧
        (∃ m, (sequence landing).merge stairs = .ok m) ∧
        stairs.appendSequence landing = .ok m ∧
        ∃ m', stairs.merge (sequence landing) = .ok m' ∧ (m == m') = true := by
  obtain ⟨m, hm⟩ : ∃ m, mergeAll [stairs, sequence landing] = .ok m :=
    exists_mergeAll_pair ⟨stairs_wellFormed, rfl⟩ ⟨landing_wellFormed, rfl⟩
      (Or.inl ⟨by decide, by decide⟩)
  have hwf : ∀ v ∈ [stairs, sequence landing], v.WellFormed :=
    List.forall_mem_cons.mpr ⟨stairs_wellFormed, List.forall_mem_singleton.mpr landing_wellFormed⟩
  have hmerge : mergeArray [stairs, sequence landing] = .ok m := reported_eq_ok.mpr hm
  have happend : stairs.appendSequence landing = .ok m := by
    unfold appendSequence
    simp only [reported_eq_ok, check_bind_eq_ok, require_eq_ok]
    exact ⟨rfl, rfl, rfl, hm⟩
  obtain ⟨hiff, heq, hunites⟩ := merging_unites.1 (List.Perm.swap _ _ []) hwf
  have hlanding : (sequence landing).WellFormed := landing_wellFormed
  obtain ⟨hcomm, -⟩ := merging_unites.2.1 stairs_wellFormed hlanding
  obtain ⟨m', hm'⟩ := hiff.mp ⟨m, hmerge⟩
  refine ⟨stairs_wellFormed, landing_wellFormed, m, m', hmerge, hm', heq m m' hmerge hm', ?_, ?_,
    hcomm.mp ⟨m, hmerge⟩, happend,
    merging_unites.2.2 stairs_wellFormed landing_wellFormed happend⟩
  · exact (hunites m hmerge).valueAt_eq _ (sequence landing) (by simp) _ rfl
  · exact (hunites m hmerge).valueAt_eq_none _
      (List.forall_mem_cons.mpr ⟨rfl, List.forall_mem_singleton.mpr rfl⟩)

end Temporal

end TemporalAlgebra
