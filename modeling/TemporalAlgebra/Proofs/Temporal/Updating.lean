import TemporalAlgebra.Proofs.Temporal.Merging

/-!
# Inserting and updating

An inserted sequence is joined to those right before and after it by a bridge that goes from the end
of one to the start of the other. Nothing else is defined there, so that a bridge never replaces a
value, and what is bridged can be merged again. Updating takes away what is replaced first, so that
it never fails.
-/
namespace TemporalAlgebra

variable {V : Type} [TemporalValue V]

namespace Sequence

/-- The sequence that joins two others across the gap between them. -/
def bridged (a b : Sequence V) : Sequence V :=
  ofRun a.first (kept .step a.first (a.rest ++ b.instants)) a.lowerInc b.upperInc .step

def stepwise (s : Sequence V) : Sequence V :=
  if s.interp == .step then s else ofRun s.first s.rest true true .step

section

variable [StepValue V] {a b : Sequence V}

lemma rising_of_gap (ha : a.Stepped) (hb : b.Stepped)
    (hgap : a.last.time.place < b.first.time.place) :
    (a.first :: (a.rest ++ b.instants)).Pairwise Instant.Precedes := by
  rw [← List.cons_append, List.pairwise_append]
  refine ⟨ha.wellFormed.rising, hb.wellFormed.rising, fun i hi j hj => ?_⟩
  have h1 := place_le_last ha.wellFormed.rising i hi
  have h2 := first_le hb.wellFormed.rising hj
  unfold last at hgap
  exact ⟨by omega, StepValue.compatible_eq_ok _ _⟩

lemma checked_bridge (ha : a.Stepped) (hb : b.Stepped)
    (hgap : a.last.time.place < b.first.time.place) :
    Checked a.first (a.rest ++ b.instants) a.lowerInc b.upperInc .step := by
  exact ⟨by simp, rising_of_gap ha hb hgap, by simp [instants], fun _ hu =>
    hb.wellFormed.endsRepeated_append_instants hb.interp_eq hu _ _⟩

lemma stepped_bridged (ha : a.Stepped) (hb : b.Stepped)
    (hgap : a.last.time.place < b.first.time.place) : (bridged a b).Stepped :=
  ⟨wellFormed_iff.mpr (checked_bridge ha hb hgap).kept, rfl⟩

lemma last_bridged : (bridged a b).last = b.last := by
  change (kept .step a.first (a.rest ++ b.instants)).getLastD a.first = _
  rw [getLastD_kept]
  unfold instants
  rw [getLastD_append_cons]
  rfl

omit [StepValue V] in
lemma lo_bridged : (bridged a b).lo = a.lo := by
  rw [lo_eq, lo_eq]
  rfl

lemma hi_bridged : (bridged a b).hi = b.hi := by
  rw [hi_eq, hi_eq, last_bridged]
  rfl

/-- A sequence joined to a later one keeps the values of both. -/
lemma takes_bridged (ha : a.Stepped) (hb : b.Stepped)
    (hgap : a.last.time.place < b.first.time.place) {n : Int} {x : V}
    (hx : a.Takes n x ∨ b.Takes n x) : (bridged a b).Takes n x := by
  have hac := covers_of_continuous ha.isDiscrete n
  have hbc := covers_of_continuous hb.isDiscrete n
  have hla := ha.wellFormed.lo_le_hi
  have hlb := hb.wellFormed.lo_le_hi
  have hae : a.hi ≤ a.last.time.place := by
    rw [hi_eq]
    split <;> omega
  have hbe : b.first.time.place ≤ b.lo := by
    rw [lo_eq]
    split <;> omega
  have hheld : (bridged a b).held n =
      if b.first.time.place ≤ n then b.held n else a.held n := by
    have hrising := rising_of_gap ha hb hgap
    change heldFrom n a.first (kept .step a.first (a.rest ++ b.instants)) = _
    rw [heldFrom_kept (by simp) n hrising]
    exact heldFrom_append hrising
  have hcov : (bridged a b).Covers n ↔ a.lo ≤ n ∧ n ≤ b.hi := by
    rw [covers_of_continuous (stepped_bridged ha hb hgap).isDiscrete, lo_bridged, hi_bridged]
  unfold Takes
  rw [hcov, hheld]
  rcases hx with ⟨hn, rfl⟩ | ⟨hn, rfl⟩
  · rw [hac] at hn
    rw [if_neg (by omega)]
    exact ⟨by omega, rfl⟩
  · rw [hbc] at hn
    rw [if_pos (by omega)]
    exact ⟨by omega, rfl⟩

lemma leads_bridged {c : Sequence V} : (bridged a b).Leads c ↔ b.Leads c := by
  unfold Leads
  rw [hi_bridged, last_bridged]

omit [StepValue V] in
lemma Leads.bridged {c : Sequence V} (h : c.Leads a) : c.Leads (bridged a b) := by
  unfold Leads at h ⊢
  rw [lo_bridged]
  exact h

/-- What is bridged out of sequences of which each leads all later ones. -/
structure Bridges (tagged : List (Tagged V)) (found : List (Sequence V)) : Prop where
  stepped : ∀ s ∈ found, s.Stepped
  leads : found.Pairwise Leads
  ne_nil : found ≠ []
  takes : ∀ t ∈ tagged, ∀ n x, t.sequence.Takes n x → ∃ s ∈ found, s.Takes n x
  led : ∀ c : Sequence V, (∀ t ∈ tagged, c.Leads t.sequence) → ∀ s ∈ found, c.Leads s

/-- Sequences of which each leads all later ones can be joined across the gaps between them. -/
lemma exists_bridge {t : Tagged V} {rest : List (Tagged V)}
    (hs : ∀ u ∈ t :: rest, u.sequence.Stepped)
    (h : (t :: rest).Pairwise fun u v => u.sequence.Leads v.sequence) :
    ∃ found, bridge .step t rest = .ok found ∧ Bridges (t :: rest) found := by
  induction rest generalizing t with
  | nil =>
    exact ⟨[t.sequence], rfl, by simpa using hs, by simp, by simp, by simp, fun c hc => by
      simpa using hc⟩
  | cons u rest ih =>
    have ht := hs t (by simp)
    have hu := hs u (by simp)
    have hrest : ∀ v ∈ rest, v.sequence.Stepped := fun v hv => hs v (by simp [hv])
    rw [bridge]
    by_cases hcond : (t.inserted != u.inserted &&
        decide (t.sequence.last.time < u.sequence.first.time)) = true
    · have hgap := hcond
      rw [Bool.and_eq_true, decide_eq_true_eq, Timestamp.lt_iff] at hgap
      have hj := stepped_bridged ht hu hgap.2
      have hchecked := checked_bridge ht hu hgap.2
      have hkept : normalize .step _ _ = .ok _ :=
        normalize_eq_ok_iff.mpr (completes_normalize hchecked.rising fun hl => absurd hl (by simp))
      have hmake := makeRun_eq_ok hchecked.kept
      obtain ⟨found, hok, hb⟩ := ih (t := ⟨bridged t.sequence u.sequence, u.inserted⟩)
        (List.forall_mem_cons.mpr ⟨hj, hrest⟩)
        (List.pairwise_cons.mpr ⟨fun v hv => leads_bridged.mpr
          (List.rel_of_pairwise_cons h.tail hv), h.tail.tail⟩)
      refine ⟨found, ?_, hb.stepped, hb.leads, hb.ne_nil, ?_, fun c hc s hs => ?_⟩
      · rw [if_pos hcond]
        exact bind_eq_ok.mpr ⟨_, hkept, bind_eq_ok.mpr ⟨_, hmake, hok⟩⟩
      · have hjoined : ∀ n x, t.sequence.Takes n x ∨ u.sequence.Takes n x →
            ∃ s ∈ found, s.Takes n x := fun n x hx =>
          hb.takes _ (List.mem_cons_self ..) n x (takes_bridged ht hu hgap.2 hx)
        intro v hv n x hx
        rcases List.mem_cons.mp hv with rfl | hv
        · exact hjoined n x (Or.inl hx)
        · rcases List.mem_cons.mp hv with rfl | hv
          · exact hjoined n x (Or.inr hx)
          · exact hb.takes v (by simp [hv]) n x hx
      · refine hb.led c (List.forall_mem_cons.mpr ⟨(hc t (by simp)).bridged, fun v hv => ?_⟩) s hs
        exact hc v (by simp [hv])
    · obtain ⟨found, hok, hb⟩ := ih (List.forall_mem_cons.mpr ⟨hu, hrest⟩) h.tail
      refine ⟨t.sequence :: found, ?_, List.forall_mem_cons.mpr ⟨ht, hb.stepped⟩,
        List.pairwise_cons.mpr ⟨hb.led _ ?_, hb.leads⟩, by simp, ?_, fun c hc => ?_⟩
      · rw [if_neg hcond]
        exact bind_eq_ok.mpr ⟨_, hok, rfl⟩
      · exact fun v hv => List.rel_of_pairwise_cons h hv
      · intro v hv n x hx
        rcases List.mem_cons.mp hv with rfl | hv
        · exact ⟨_, by simp, hx⟩
        · obtain ⟨s, hs, hx⟩ := hb.takes v hv n x hx
          exact ⟨s, by simp [hs], hx⟩
      · exact List.forall_mem_cons.mpr
          ⟨hc t (by simp), hb.led c fun v hv => hc v (by simp [hv])⟩

/-- A sequence of steps or a single instant: both can be adopted by sequences of steps. -/
structure Adoptable (s : Sequence V) : Prop where
  wellFormed : s.WellFormed
  step_or_single : s.interp = .step ∨ s.rest = []

namespace Adoptable

variable {s : Sequence V} (h : s.Adoptable)

include h

lemma rebuilt_stepwise : s.stepwise.rebuilt = ofRun s.first s.rest s.lowerInc s.upperInc .step := by
  unfold stepwise
  by_cases hi : s.interp = .step
  · rw [if_pos (beq_iff_eq.mpr hi), rebuilt, hi]
  · rw [if_neg (mt beq_iff_eq.mp hi)]
    obtain ⟨hl, hu⟩ := (wellFormed_iff.mp h.wellFormed).closed
      (Or.inl (h.step_or_single.resolve_left hi))
    rw [hl, hu]
    rfl

lemma stepped : s.stepwise.Stepped := by
  have hc := wellFormed_iff.mp h.wellFormed
  have hr := h.rebuilt_stepwise
  have hwf : s.stepwise.rebuilt.WellFormed := by
    rw [hr]
    refine wellFormed_iff.mpr
      ⟨fun hl => Interpolation.noConfusion hl, hc.rising, ?_, fun _ hu => ?_⟩
    · rintro (hn | hd)
      · exact hc.closed (Or.inl hn)
      · exact absurd hd (by intro h; cases h)
    · rcases h.step_or_single with hi | hn
      · exact hc.repeated hi hu
      · exact absurd hn (h.wellFormed.rest_ne_nil hu)
  exact ⟨hwf, congrArg interp hr⟩

lemma adopt_eq : adopt .step s = .ok s.stepwise := by
  have hwf := wellFormed_iff.mp h.stepped.wellFormed
  unfold adopt
  unfold stepwise at hwf ⊢
  by_cases hi : s.interp = .step
  · rw [if_pos (beq_iff_eq.mpr hi), if_pos (beq_iff_eq.mpr hi)]
  · rw [if_neg (mt beq_iff_eq.mp hi)] at hwf ⊢
    rw [if_neg (mt beq_iff_eq.mp hi)]
    exact makeRun_eq_ok hwf

lemma lo_stepwise : s.stepwise.lo = s.lo := by
  change s.stepwise.rebuilt.lo = s.lo
  rw [h.rebuilt_stepwise]
  rfl

lemma hi_stepwise : s.stepwise.hi = s.hi := by
  change s.stepwise.rebuilt.hi = s.hi
  rw [h.rebuilt_stepwise]
  rfl

lemma takes_stepwise {n : Int} {x : V} (hx : s.Takes n x) : s.stepwise.Takes n x := by
  refine ⟨?_, ?_⟩
  · rw [covers_of_continuous h.stepped.isDiscrete, h.lo_stepwise, h.hi_stepwise]
    exact h.wellFormed.mem_period hx.1
  · change s.stepwise.rebuilt.held n = x
    rw [h.rebuilt_stepwise]
    exact hx.2

end Adoptable

omit [StepValue V] in
lemma Before.leads (h : a.Before b) : a.Leads b := ⟨h.le, fun heq => absurd heq h.ne⟩

lemma Apart.agree (ha : a.Stepped) (hb : b.Stepped) (h : a.Apart b) : a.Agree b := by
  have hla := ha.wellFormed.lo_le_hi
  have hlb := hb.wellFormed.lo_le_hi
  have hac := covers_of_continuous ha.isDiscrete
  have hbc := covers_of_continuous hb.isDiscrete
  have hlo := h a.lo
  have hlo' := h b.lo
  rw [hac, hbc] at hlo hlo'
  by_cases hle : a.lo ≤ b.lo
  · exact Or.inl (Before.leads (show a.hi < b.lo by omega))
  · exact Or.inr (Before.leads (show b.hi < a.lo by omega))

end

end Sequence

namespace Temporal

open Sequence

variable [StepValue V] {a b : Temporal V}

/-- The sequences of a value that is merged with continuous ones can be adopted by them, and are
then those as which it is merged. -/
lemma adoptable_of_mergeable {v : Temporal V} (h : v.WellFormed) (hm : v.Mergeable) :
    (∀ s ∈ v.sequences, s.Adoptable) ∧
      (v.sequences.map stepwise).map Sequence.rebuilt = v.stepPieces.map Sequence.rebuilt := by
  have hstep : v.isDiscrete = false → (∀ s ∈ v.sequences, s.Adoptable) ∧
      v.sequences.map stepwise = v.sequences := by
    intro hd
    have hi : ∀ s ∈ v.sequences, s.interp = .step := fun s hs =>
      (h.interp_eq s hs).trans (h.interp_eq_step hd)
    refine ⟨fun s hs => ⟨h.sequences s hs, Or.inl (hi s hs)⟩, ?_⟩
    exact (List.map_congr_left fun s hs => if_pos (beq_iff_eq.mpr (hi s hs))).trans (List.map_id _)
  cases v with
  | instant i =>
    refine ⟨fun s hs => ?_, rfl⟩
    obtain rfl := List.mem_singleton.mp hs
    exact ⟨wellFormed_ofInstant i (by simp), Or.inr rfl⟩
  | sequence s =>
    obtain ⟨hadopt, hmap⟩ := hstep (hm.resolve_left Bool.false_ne_true)
    exact ⟨hadopt, by rw [hmap]; rfl⟩
  | sequenceSet s =>
    obtain ⟨hadopt, hmap⟩ := hstep (hm.resolve_left Bool.false_ne_true)
    exact ⟨hadopt, by rw [hmap]; rfl⟩

omit [StepValue V] in
lemma pairwise_agree_rebuilt {pieces : List (Sequence V)} :
    (pieces.map Sequence.rebuilt).Pairwise Agree ↔ pieces.Pairwise Agree := List.pairwise_map

lemma exists_continuous_of_mergeAll {values : List (Temporal V)} {m : Temporal V}
    (h : mergeAll values = .ok m) (hd : m.isDiscrete = false) :
    ∃ v ∈ values, v.isDiscrete = false := by
  by_contra hc
  have hall : ∀ v ∈ values, v.isDiscrete = true := by simpa using hc
  have hne := ne_nil_of_mergeAll h
  rw [mergeAll_discrete hne hall] at h
  obtain ⟨m', hm', -, hmd, -⟩ := exists_mergeDiscrete hne (agree_of_mergeDiscrete h)
  rw [Except.ok.inj (h.symm.trans hm'), hmd] at hd
  exact absurd hd (by simp)

def tagged (a b : Temporal V) : List (Tagged V) :=
  (a.sequences.map fun s => ⟨s, false⟩) ++ b.sequences.map fun s => ⟨s, true⟩

omit [StepValue V] in
lemma tagged_sequences (a b : Temporal V) :
    (tagged a b).map Tagged.sequence = a.sequences ++ b.sequences := by
  unfold tagged
  rw [List.map_append, List.map_map, List.map_map]
  exact congrArg₂ (· ++ ·) (List.map_id _) (List.map_id _)

/-- The sequences of two values that could be merged, in order of their periods and as sequences of
steps. -/
def adoptedTags (a b : Temporal V) : List (Tagged V) :=
  ((tagged a b).mergeSort fun s t => s.sequence.period.order t.sequence.period != .gt).map
    fun t => { t with sequence := t.sequence.stepwise }

lemma adoptedTags_spec (ha : a.WellFormed) (hb : b.WellFormed)
    (hm : ∀ v ∈ [a, b], v.Mergeable) (h : ([a, b].flatMap stepPieces).Pairwise Agree) :
    (((tagged a b).mergeSort fun s t => s.sequence.period.order t.sequence.period != .gt).mapM
      fun t => do return { t with sequence := ← t.sequence.adopt .step }) = .ok (adoptedTags a b) ∧
    (∀ t ∈ adoptedTags a b, t.sequence.Stepped) ∧
    (adoptedTags a b).Pairwise fun t u => t.sequence.Leads u.sequence := by
  obtain ⟨hadopta, hmapa⟩ := adoptable_of_mergeable ha (hm a (by simp))
  obtain ⟨hadoptb, hmapb⟩ := adoptable_of_mergeable hb (hm b (by simp))
  have hperm := List.mergeSort_perm (tagged a b)
    fun s t => s.sequence.period.order t.sequence.period != .gt
  have hadopt : ∀ t ∈ (tagged a b).mergeSort fun s t =>
      s.sequence.period.order t.sequence.period != .gt, t.sequence.Adoptable := by
    intro t ht
    have hmem := List.mem_map_of_mem (hperm.mem_iff.mp ht) (f := Tagged.sequence)
    rw [tagged_sequences] at hmem
    exact (List.mem_append.mp hmem).elim (hadopta _) (hadoptb _)
  have hagree : (tagged a b).Pairwise fun t u =>
      t.sequence.stepwise.Agree u.sequence.stepwise := by
    have hmap : ((tagged a b).map fun t => t.sequence.stepwise).map Sequence.rebuilt =
        ([a, b].flatMap stepPieces).map Sequence.rebuilt := by
      have hsplit : ((tagged a b).map fun t => t.sequence.stepwise) =
          ((tagged a b).map Tagged.sequence).map stepwise := by
        rw [List.map_map]
        rfl
      rw [hsplit, tagged_sequences, List.map_append, List.map_append, hmapa, hmapb]
      simp
    rw [← pairwise_agree_rebuilt, ← hmap, pairwise_agree_rebuilt] at h
    exact List.pairwise_map.mp h
  refine ⟨mapM_eq_map fun t ht => ?_, fun t ht => ?_, ?_⟩
  · rw [(hadopt t ht).adopt_eq]
    rfl
  · obtain ⟨u, hu, rfl⟩ := List.mem_map.mp ht
    exact (hadopt u hu).stepped
  · have hagree := (hperm.pairwise_iff Agree.symm).mpr hagree
    have hsorted := pairwise_sort_periods Tagged.sequence (tagged a b)
    refine List.pairwise_map.mpr ((hsorted.and hagree).imp_of_mem fun {t u} ht hu htu => ?_)
    have hta := hadopt t ht
    have hua := hadopt u hu
    apply htu.2.leads hta.stepped.wellFormed hua.stepped.wellFormed
    rw [hta.lo_stepwise, hua.lo_stepwise, hta.hi_stepwise, hua.hi_stepwise]
    exact htu.1

lemma exists_mem_adoptedTags (ha : a.WellFormed) (hb : b.WellFormed)
    (hm : ∀ v ∈ [a, b], v.Mergeable) {n : Int} {x : V} (hx : ∃ v ∈ [a, b], v.Takes n x) :
    ∃ t ∈ adoptedTags a b, t.sequence.Takes n x := by
  obtain ⟨v, hv, s, hs, hx⟩ := hx
  have hmem : s ∈ (tagged a b).map Tagged.sequence := by
    rw [tagged_sequences]
    rcases List.mem_cons.mp hv with rfl | hv
    · exact List.mem_append_left _ hs
    · obtain rfl := List.mem_singleton.mp hv
      exact List.mem_append_right _ hs
  obtain ⟨t, ht, rfl⟩ := List.mem_map.mp hmem
  have hwf : v.WellFormed := by
    rcases List.mem_cons.mp hv with rfl | hv
    · exact ha
    · obtain rfl := List.mem_singleton.mp hv
      exact hb
  exact ⟨_, List.mem_map_of_mem ((List.mergeSort_perm _ _).mem_iff.mpr ht),
    ((adoptable_of_mergeable hwf (hm v hv)).1 _ hs).takes_stepwise hx⟩

omit [StepValue V] in
lemma flatMap_stepPieces_sequence (pieces : List (Sequence V)) :
    (pieces.map sequence).flatMap stepPieces = pieces := by
  rw [List.flatMap_map]
  exact List.flatMap_singleton' pieces

omit [StepValue V] in
lemma stepPieces_of_continuous {v : Temporal V} (hd : v.isDiscrete = false) :
    v.stepPieces = v.sequences := by
  cases v with
  | instant i => exact absurd hd (by simp [isDiscrete, interp])
  | sequence s => rfl
  | sequenceSet s => rfl

/-- Inserting succeeds if merging does, and keeps what is merged. -/
lemma exists_insert (ha : a.WellFormed) (hb : b.WellFormed) {m : Temporal V}
    (h : mergeAll [a, b] = .ok m) (connecting : Bool) :
    ∃ r, a.insert b connecting = .ok r ∧ r.WellFormed ∧ (∀ n x, m.Takes n x → r.Takes n x) ∧
      (connecting = false → r = m) := by
  have hwf : ∀ v ∈ [a, b], v.WellFormed :=
    List.forall_mem_cons.mpr ⟨ha, List.forall_mem_singleton.mpr hb⟩
  obtain ⟨hwfm, htakes⟩ := mergeAll_spec hwf h
  unfold insert
  rw [h]
  simp only [reported_eq_ok]
  by_cases hmerged : (!connecting || m.isDiscrete) = true
  · exact ⟨m, if_pos hmerged, hwfm, fun _ _ hx => hx, fun _ => rfl⟩
  · have hmerged' := hmerged
    rw [Bool.or_eq_true, not_or, Bool.not_eq_true', Bool.not_eq_true, Bool.not_eq_false] at hmerged'
    obtain ⟨rfl, hmd⟩ := hmerged'
    have hc := exists_continuous_of_mergeAll h hmd
    obtain ⟨hm, hagree⟩ := agree_of_mergeAll hwf hc h
    obtain ⟨hmapM, hstepped, hleads⟩ := adoptedTags_spec ha hb hm hagree
    have hkept := fun n x (hx : m.Takes n x) => exists_mem_adoptedTags ha hb hm ((htakes n x).mp hx)
    obtain ⟨first, rest, hcons⟩ : ∃ first rest, adoptedTags a b = first :: rest := by
      obtain ⟨s, hs⟩ := m.exists_mem_sequences
      obtain ⟨t, ht, -⟩ := hkept s.lo (s.held s.lo) ⟨s, hs, (hwfm.sequences s hs).covers_lo, rfl⟩
      exact List.exists_cons_of_ne_nil (List.ne_nil_of_mem ht)
    rw [hcons] at hmapM hstepped hleads hkept
    obtain ⟨found, hok, hbridges⟩ := exists_bridge hstepped hleads
    obtain ⟨s, hs⟩ := List.exists_mem_of_ne_nil found hbridges.ne_nil
    have hwfs : ∀ v ∈ found.map sequence, v.WellFormed :=
      List.forall_mem_map.mpr fun s hs => (hbridges.stepped s hs).wellFormed
    obtain ⟨r, hr, hwfr, hrt⟩ := exists_mergeAll hwfs
      ⟨sequence s, List.mem_map_of_mem hs, (hbridges.stepped s hs).isDiscrete⟩
      (List.forall_mem_map.mpr fun s hs => Or.inr (hbridges.stepped s hs).isDiscrete)
      (by
        rw [flatMap_stepPieces_sequence]
        exact hbridges.leads.imp Or.inl)
    refine ⟨r, ?_, hwfr, fun n x hx => ?_, by simp⟩
    · refine bind_eq_ok.mpr ⟨m, rfl, ?_⟩
      rw [if_neg hmerged, hwfm.interp_eq_step hmd]
      exact bind_eq_ok.mpr ⟨_, hmapM, bind_eq_ok.mpr ⟨found, hok, hr⟩⟩
    · obtain ⟨t, ht, hx⟩ := hkept n x hx
      obtain ⟨s, hs, hx⟩ := hbridges.takes t ht n x hx
      exact (hrt n x).mpr ⟨sequence s, List.mem_map_of_mem hs, s, List.mem_singleton.mpr rfl, hx⟩

/-- A continuous value can be merged with what is left of another one outside of it. -/
lemma exists_merge_outside (hb : b.WellFormed) (hda : a.isDiscrete = false)
    (hdb : b.isDiscrete = false) {left : Temporal V}
    (hr : Restricts a (fun n => ¬b.time.Covers n) (some left)) :
    ∃ m, mergeAll [left, b] = .ok m := by
  have hleft := hr.wellFormed left rfl
  have hdl : left.isDiscrete = false := by
    unfold isDiscrete at hda ⊢
    rw [hr.interp_eq left rfl, hda]
  have hm : ∀ v ∈ [left, b], v.Mergeable :=
    List.forall_mem_cons.mpr ⟨Or.inr hdl, List.forall_mem_singleton.mpr (Or.inr hdb)⟩
  have hwf : ∀ v ∈ [left, b], v.WellFormed :=
    List.forall_mem_cons.mpr ⟨hleft, List.forall_mem_singleton.mpr hb⟩
  have hpieces : [left, b].flatMap stepPieces = left.sequences ++ b.sequences := by
    simp [stepPieces_of_continuous hdl, stepPieces_of_continuous hdb]
  have hstepped := (flatMap_stepPieces_spec hwf (by simp) hm).2
  have hrising : ∀ {v : Temporal V}, v.WellFormed → v.sequences.Pairwise Agree := fun h =>
    h.rising.imp fun hbefore => Or.inl hbefore.leads
  obtain ⟨m, hok, -⟩ := exists_mergeAll hwf ⟨b, by simp, hdb⟩ hm (by
    rw [hpieces] at hstepped ⊢
    refine List.pairwise_append.mpr ⟨hrising hleft, hrising hb, fun x hx y hy => ?_⟩
    refine Apart.agree (hstepped x (List.mem_append_left _ hx))
      (hstepped y (List.mem_append_right _ hy)) fun n hn => ?_
    have hout := ((hr.covers_iff n).mp ⟨x, hx, hn.1⟩).2
    exact hout ((hb.time_spec.2 n).mpr ⟨y, hy, hn.2⟩))
  exact ⟨m, hok⟩

/-- Updating never fails. It keeps what the new value takes and, outside of it, what the old one
takes; only bridges take more. -/
lemma exists_update (ha : a.WellFormed) (hb : b.WellFormed) (hda : a.isDiscrete = false)
    (hdb : b.isDiscrete = false) (connecting : Bool) :
    ∃ r, a.update b connecting = .ok r ∧ r.WellFormed ∧ (∀ n x, b.Takes n x → r.Takes n x) ∧
      (∀ n x, ¬b.Covers n → a.Takes n x → r.Takes n x) ∧
      (connecting = false → ∀ n, r.Covers n → a.Covers n ∨ b.Covers n) := by
  obtain ⟨htime, hcov⟩ := hb.time_spec
  obtain ⟨found, hfound, hr⟩ := exists_outsidePeriods ha htime
  have hminus : a.minusPeriods b.time = .ok found := reported_eq_ok.mpr hfound
  have hleft : ∀ n x, ¬b.Covers n → a.Takes n x → SomeTakes found n x := fun n x hn hx =>
    (hr.takes_iff inferInstance n x).mpr ⟨hx, mt (hcov n).mp hn⟩
  unfold update
  rw [hminus]
  cases found with
  | none =>
    refine ⟨b, rfl, hb, fun _ _ hx => hx, fun n x hn hx => ?_, fun _ n hn => Or.inr hn⟩
    exact absurd (hleft n x hn hx) (not_someTakes_none n x)
  | some left =>
    have hwfl := hr.wellFormed left rfl
    obtain ⟨m, hm⟩ := exists_merge_outside hb hda hdb hr
    have hwf : ∀ v ∈ [left, b], v.WellFormed :=
      List.forall_mem_cons.mpr ⟨hwfl, List.forall_mem_singleton.mpr hb⟩
    obtain ⟨-, htakes⟩ := mergeAll_spec hwf hm
    obtain ⟨r, hok, hwfr, hkept, hplain⟩ := exists_insert hwfl hb hm connecting
    refine ⟨r, hok, hwfr, fun n x hx => ?_, fun n x hn hx => ?_, fun hc n hn => ?_⟩
    · exact hkept n x ((htakes n x).mpr ⟨b, by simp, hx⟩)
    · exact hkept n x ((htakes n x).mpr ⟨left, by simp, hleft n x hn hx⟩)
    · obtain ⟨x, hx⟩ := covers_iff_exists_takes.mp hn
      rw [hplain hc, htakes] at hx
      obtain ⟨v, hv, hx⟩ := hx
      rcases List.mem_cons.mp hv with rfl | hv
      · exact Or.inl ((hr.covers_iff n).mp (covers_iff_exists_takes.mpr ⟨x, hx⟩)).1
      · obtain rfl := List.mem_singleton.mp hv
        exact Or.inr (covers_iff_exists_takes.mpr ⟨x, hx⟩)

/-- Updating a continuous value overrides it by another one; inserting keeps what is merged, with or
without bridges. -/
theorem updating_overrides :
    (∀ {a b : Temporal V}, a.WellFormed → b.WellFormed → a.isDiscrete = false →
      b.isDiscrete = false → ∀ connecting, ∃ r, a.update b connecting = .ok r ∧
        (∀ t x, b.valueAt t = some x → r.valueAt t = some x) ∧
        (∀ t x, b.valueAt t = none → a.valueAt t = some x → r.valueAt t = some x) ∧
        (connecting = false → ∀ t, b.valueAt t = none → a.valueAt t = none → r.valueAt t = none)) ∧
    ∀ {a b m : Temporal V}, a.WellFormed → b.WellFormed → a.insert b false = .ok m →
      ∃ r, a.insert b true = .ok r ∧ ∀ t x, m.valueAt t = some x → r.valueAt t = some x := by
  constructor
  · intro a b ha hb hda hdb connecting
    obtain ⟨r, hok, hwf, hnew, hold, honly⟩ := exists_update ha hb hda hdb connecting
    refine ⟨r, hok, fun t x hx => ?_, fun t x hn hx => ?_, fun hc t hnb hna => ?_⟩
    · rw [hb.valueAt_eq_some_iff] at hx
      exact (hwf.valueAt_eq_some_iff t x).mpr (hnew _ x hx)
    · rw [ha.valueAt_eq_some_iff] at hx
      exact (hwf.valueAt_eq_some_iff t x).mpr (hold _ x ((hb.valueAt_eq_none_iff t).mp hn) hx)
    · rw [hwf.valueAt_eq_none_iff]
      intro hr
      rcases honly hc _ hr with hr | hr
      · exact (ha.valueAt_eq_none_iff t).mp hna hr
      · exact (hb.valueAt_eq_none_iff t).mp hnb hr
  · intro a b m ha hb hm
    obtain ⟨merged, hmerged⟩ : ∃ m, mergeAll [a, b] = .ok m := by
      unfold insert at hm
      rw [reported_eq_ok, bind_eq_ok] at hm
      exact ⟨_, hm.choose_spec.1⟩
    obtain ⟨m', hm', hwfm, -, hplain⟩ := exists_insert ha hb hmerged false
    obtain ⟨r, hr, hwfr, hkept, -⟩ := exists_insert ha hb hmerged true
    obtain rfl := Except.ok.inj (hm.symm.trans hm')
    refine ⟨r, hr, fun t x hx => ?_⟩
    rw [hwfm.valueAt_eq_some_iff, hplain rfl] at hx
    exact (hwfr.valueAt_eq_some_iff t x).mpr (hkept _ x hx)

def summit : Temporal Integer :=
  .sequence (.ofRun ⟨.clamp 3, .nearest 30⟩ [⟨.clamp 3, .nearest 40⟩] true true .step)

lemma summit_wellFormed : summit.WellFormed := rfl

/-- The stairs are updated by a step behind them, and the step is inserted with a bridge. -/
theorem stairs_overridden_by_summit :
    stairs.WellFormed ∧ summit.WellFormed ∧
      (stairs.isDiscrete = false ∧ summit.isDiscrete = false ∧
        ∃ r, stairs.update summit true = .ok r ∧ r.valueAt (.nearest 35) = some (.clamp 3) ∧
          r.valueAt (.nearest 5) = some (.clamp 1)) ∧
      (∃ r, stairs.update summit false = .ok r ∧ r.valueAt (.nearest 25) = none) ∧
      ∃ m r, stairs.insert summit false = .ok m ∧ stairs.insert summit true = .ok r ∧
        ∀ t x, m.valueAt t = some x → r.valueAt t = some x := by
  obtain ⟨m, hm⟩ : ∃ m, mergeAll [stairs, summit] = .ok m :=
    exists_mergeAll_pair ⟨stairs_wellFormed, rfl⟩ ⟨summit_wellFormed, rfl⟩
      (Or.inl ⟨by decide, by decide⟩)
  obtain ⟨m', hm', -⟩ := exists_insert stairs_wellFormed summit_wellFormed hm false
  have hd : stairs.isDiscrete = false ∧ summit.isDiscrete = false := ⟨rfl, rfl⟩
  have hupdate := updating_overrides.1 stairs_wellFormed summit_wellFormed hd.1 hd.2
  refine ⟨stairs_wellFormed, summit_wellFormed, ⟨hd.1, hd.2, ?_⟩, ?_, ?_⟩
  · obtain ⟨r, hr, hnew, hold, -⟩ := hupdate true
    exact ⟨r, hr, hnew _ _ rfl, hold _ _ rfl rfl⟩
  · obtain ⟨r, hr, -, -, honly⟩ := hupdate false
    exact ⟨r, hr, honly rfl _ rfl rfl⟩
  · obtain ⟨r, hr, hkept⟩ := updating_overrides.2 stairs_wellFormed summit_wellFormed hm'
    exact ⟨m', r, hm', hr, hkept⟩

end Temporal

end TemporalAlgebra
