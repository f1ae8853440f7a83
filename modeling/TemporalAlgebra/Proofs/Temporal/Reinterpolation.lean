import TemporalAlgebra.Proofs.Number.Quotient
import TemporalAlgebra.Proofs.Temporal.Likeness
import TemporalAlgebra.Proofs.Temporal.Rebuilding
import TemporalAlgebra.Proofs.Temporal.Soundness
import TemporalAlgebra.Temporal.Transform

/-!
# Changed interpolation

Steps are cut at their jumps into flat linear pieces, half-open at each jump. These cover what the
steps cover, with values alike to theirs, and flat pieces can be turned into steps again. So a value
by steps keeps its time and its values when its interpolation is changed to linear and back, unless
it goes on for so long that its flat pieces cannot be joined or looked up. The instants of a discrete
sequence become sequences of one instant, from which it can be built again.
-/
namespace TemporalAlgebra

namespace Sequence

variable {V : Type} [TemporalValue V]

/-- Flat linear sequences that follow each other from one place to another one, with given values up
to alikeness. The values of their instants are `among` some. -/
structure FlatCut (value : Int → V) (among : V → Prop) (lo hi : Int)
    (pieces : List (Sequence V)) : Prop where
  wellFormed : ∀ p ∈ pieces, p.WellFormed
  interp_eq : ∀ p ∈ pieces, p.interp = .linear
  rising : pieces.Pairwise Before
  flat : ∀ p ∈ pieces, p.Flat
  bounds : ∀ p ∈ pieces, lo ≤ p.lo ∧ p.hi ≤ hi
  takes_iff : ∀ n x, (∃ p ∈ pieces, p.TakesLike n x) ↔ (lo ≤ n ∧ n ≤ hi) ∧ Alike (value n) x
  among : ∀ p ∈ pieces, ∀ i ∈ p.instants, among i.value

section

variable {value value' : Int → V} {among : V → Prop} {lo mid hi : Int}
  {pieces more : List (Sequence V)}

lemma flatCut_nil (value : Int → V) (among : V → Prop) (h : hi < lo) :
    FlatCut value among lo hi [] := by
  refine ⟨by simp, by simp, by simp, by simp, by simp, fun n x => ?_, by simp⟩
  constructor
  · rintro ⟨p, hp, -⟩
    simp at hp
  · rintro ⟨hn, -⟩
    omega

lemma FlatCut.append (h : FlatCut value among lo mid pieces)
    (h' : FlatCut value among (mid + 1) hi more) (hlo : lo ≤ mid + 1) (hhi : mid ≤ hi) :
    FlatCut value among lo hi (pieces ++ more) := by
  have hmem : ∀ {P : Sequence V → Prop}, (∀ p ∈ pieces, P p) → (∀ p ∈ more, P p) →
      ∀ p ∈ pieces ++ more, P p := fun hl hr p hp => (List.mem_append.mp hp).elim (hl p) (hr p)
  refine ⟨hmem h.wellFormed h'.wellFormed, hmem h.interp_eq h'.interp_eq, ?_,
    hmem h.flat h'.flat, hmem (fun p hp => ?_) (fun p hp => ?_), fun n x => ?_,
    hmem h.among h'.among⟩
  · refine List.pairwise_append.mpr ⟨h.rising, h'.rising, fun p hp q hq => ?_⟩
    have := (h.bounds p hp).2
    have := (h'.bounds q hq).1
    unfold Before
    omega
  · have := h.bounds p hp
    omega
  · have := h'.bounds p hp
    omega
  · simp only [List.mem_append, or_and_right, exists_or, h.takes_iff, h'.takes_iff]
    rw [← or_and_right]
    exact and_congr_left fun _ => by omega

variable [LawfulValue V]

lemma FlatCut.congr (h : FlatCut value among lo hi pieces)
    (heq : ∀ n, lo ≤ n → n ≤ hi → Alike (value n) (value' n)) :
    FlatCut value' among lo hi pieces := by
  refine ⟨h.wellFormed, h.interp_eq, h.rising, h.flat, h.bounds, fun n x => ?_, h.among⟩
  rw [h.takes_iff]
  exact and_congr_right fun hn => ⟨(heq n hn.1 hn.2).symm.trans, (heq n hn.1 hn.2).trans⟩

omit [LawfulValue V] in
lemma Flat.alike_held {s : Sequence V} (h : s.Flat) (n : Int) :
    Alike s.first.value (s.held n) := by
  obtain ⟨i, hi, hv⟩ := heldFrom_mem n s.first s.rest
  unfold held
  rw [hv]
  exact h i hi

/-- One flat piece. -/
lemma flatCut_single {first : Instant V} {rest : List (Instant V)} {lowerInc upperInc : Bool}
    (hc : Checked first rest lowerInc upperInc .linear)
    (hflat : ∀ i ∈ rest, Alike first.value i.value)
    (hvalue : ∀ n, n ≤ hi → Alike first.value (value n))
    (hamong : ∀ i ∈ first :: rest, among i.value)
    (hlo : first.time.place + (if lowerInc then 0 else 1) = lo)
    (hhi : (rest.getLastD first).time.place - (if upperInc then 0 else 1) = hi) :
    FlatCut value among lo hi [ofRun first rest lowerInc upperInc .linear] := by
  have hflat' : (ofRun first rest lowerInc upperInc .linear).Flat := by
    intro i hi
    rcases List.mem_cons.mp hi with rfl | hi
    · exact Alike.refl _
    · exact hflat i hi
  have hlo' : (ofRun first rest lowerInc upperInc .linear).lo = lo := (lo_eq _).trans hlo
  have hhi' : (ofRun first rest lowerInc upperInc .linear).hi = hi := (hi_eq _).trans hhi
  refine ⟨by simpa using wellFormed_iff.mpr hc, by simp [ofRun], by simp, by simpa using hflat',
    by simp [hlo', hhi'], fun n x => ?_, fun p hp i hi => ?_⟩
  · simp only [List.mem_singleton, exists_eq_left]
    unfold TakesLike
    rw [covers_of_continuous rfl, hlo', hhi']
    refine and_congr_right fun hn => ?_
    have halike := (hflat'.alike_held n).symm.trans (hvalue n hn.2)
    exact ⟨halike.symm.trans, halike.trans⟩
  · obtain rfl := List.mem_singleton.mp hp
    exact hamong i hi

section

variable {start b : Instant V} {stop : Option (Instant V)} {upperInc : Bool}
  {rest : List (Instant V)}

omit [LawfulValue V] in
/-- A piece that has reached `stop` without a jump holds one value up to alikeness. -/
lemma alike_reached (hstop : ∀ m ∈ stop, Alike start.value m.value) (n : Int) :
    Alike start.value (heldFrom n start stop.toList) := by
  obtain ⟨i, hi, hv⟩ := heldFrom_mem n start stop.toList
  rw [hv]
  rcases List.mem_cons.mp hi with rfl | hi
  · exact Alike.refl _
  · exact hstop i (Option.mem_toList.mp hi)

/-- The piece up to a jump: it holds the last value before it and leaves the jump out. -/
lemma exists_piece (hcont : TemporalValue.continuous V = true) (lowerInc : Bool)
    (hrise : (start :: (stop.toList ++ b :: rest)).Pairwise Instant.Precedes)
    (hstop : ∀ m ∈ stop, Alike start.value m.value)
    (hamong : ∀ i ∈ start :: (stop.toList ++ b :: rest), among i.value) :
    ∃ piece, makeRun start [⟨(stop.getD start).value, b.time⟩] lowerInc false .linear false =
        .ok piece ∧
      FlatCut (fun n => heldFrom n start (stop.toList ++ b :: rest)) among
        (start.time.place + if lowerInc then 0 else 1) (b.time.place - 1) [piece] := by
  have hcurrent : stop.getD start = start ∨ stop.getD start ∈ stop := by
    cases stop <;> simp
  have hheld : Alike start.value (stop.getD start).value := by
    rcases hcurrent with heq | hmem
    · rw [heq]
      exact Alike.refl _
    · exact hstop _ hmem
  have hmem : stop.getD start ∈ start :: (stop.toList ++ b :: rest) := by
    rcases hcurrent with heq | hmem
    · rw [heq]
      exact List.mem_cons_self ..
    · exact List.mem_cons_of_mem _ (List.mem_append_left _ (Option.mem_toList.mpr hmem))
  have hcompat : TemporalValue.compatible start.value (stop.getD start).value = .ok () := by
    rcases List.mem_cons.mp hmem with heq | hmem
    · rw [heq]
      exact LawfulValue.compatible_self _
    · exact (List.rel_of_pairwise_cons hrise hmem).2
  have hsb : start.Precedes b := List.rel_of_pairwise_cons hrise (by simp)
  have hc : Checked start [⟨(stop.getD start).value, b.time⟩] lowerInc false .linear :=
    ⟨fun _ => hcont, by simpa using ⟨hsb.1, hcompat⟩, by simp, by simp⟩
  refine ⟨_, makeRun_eq_ok hc, flatCut_single hc (by simpa using hheld) (fun n hn => ?_)
    (fun i hi => ?_) rfl rfl⟩
  · rw [heldFrom_append hrise, if_neg (by omega)]
    exact alike_reached hstop n
  · rcases List.mem_cons.mp hi with rfl | hi
    · exact hamong i (List.mem_cons_self ..)
    · obtain rfl := List.mem_singleton.mp hi
      exact hamong (stop.getD start) hmem

omit [LawfulValue V] in
lemma alike_continued (hrise : (start :: (stop.toList ++ b :: rest)).Pairwise Instant.Precedes)
    (hstop : ∀ m ∈ stop, Alike start.value m.value) (n : Int) :
    Alike (heldFrom n start (b :: rest)) (heldFrom n start (stop.toList ++ b :: rest)) := by
  rw [heldFrom_append hrise, heldFrom]
  split
  · exact Alike.refl _
  · exact alike_reached hstop n

lemma FlatCut.jump (hfirst : FlatCut (fun n => heldFrom n start (stop.toList ++ b :: rest)) among
      lo (b.time.place - 1) pieces)
    (hmore : FlatCut (fun n => heldFrom n b rest) among b.time.place hi more)
    (hrise : (start :: (stop.toList ++ b :: rest)).Pairwise Instant.Precedes)
    (hlo : lo ≤ b.time.place) (hhi : b.time.place - 1 ≤ hi) :
    FlatCut (fun n => heldFrom n start (stop.toList ++ b :: rest)) among lo hi
      (pieces ++ more) := by
  have hb : b.time.place - 1 + 1 = b.time.place := by omega
  refine hfirst.append (hb.symm ▸ hmore.congr fun n hn _ => ?_) (by omega) hhi
  rw [heldFrom_append hrise, if_pos hn]
  exact Alike.refl _

/-- The linear pieces of a run of steps. The current piece has reached `stop` without a jump. -/
lemma exists_linearRuns (hcont : TemporalValue.continuous V = true) (start : Instant V)
    (stop : Option (Instant V)) (lowerInc : Bool)
    (hrise : (start :: (stop.toList ++ rest)).Pairwise Instant.Precedes)
    (hstop : ∀ m ∈ stop, Alike start.value m.value)
    (hclosed : stop = none → rest = [] → upperInc = true → lowerInc = true)
    (hamong : ∀ i ∈ start :: (stop.toList ++ rest), among i.value) :
    ∃ pieces, linearRuns upperInc start stop lowerInc rest = .ok pieces ∧
      FlatCut (fun n => heldFrom n start (stop.toList ++ rest)) among
        (start.time.place + if lowerInc then 0 else 1)
        (((stop.toList ++ rest).getLastD start).time.place - if upperInc then 0 else 1)
        pieces := by
  induction rest generalizing start stop lowerInc with
  | nil =>
    rw [List.append_nil] at hrise hamong ⊢
    cases stop with
    | none =>
      rw [linearRuns]
      cases upperInc with
      | false => exact ⟨[], rfl, flatCut_nil _ _ (by simp; split <;> omega)⟩
      | true =>
        obtain rfl := hclosed rfl rfl rfl
        have hc : Checked start [] true true .linear :=
          ⟨fun _ => hcont, by simp, fun _ => ⟨rfl, rfl⟩, by simp⟩
        exact ⟨_, (bind_of_ok (makeRun_eq_ok hc)).trans rfl,
          flatCut_single hc (by simp) (fun n _ => alike_reached hstop n) hamong rfl rfl⟩
    | some last =>
      have hc : Checked start [last] lowerInc upperInc .linear :=
        ⟨fun _ => hcont, hrise, by simp, by simp⟩
      exact ⟨_, (bind_of_ok (makeRun_eq_ok hc)).trans rfl,
        flatCut_single hc (by simpa using hstop) (fun n _ => alike_reached hstop n) hamong rfl rfl⟩
  | cons b rest ih =>
    rw [linearRuns, getLastD_append_cons]
    split
    · -- the current piece goes on
      rename_i heq
      have hb : Alike start.value b.value := by
        refine Alike.trans ?_ (Alike.of_beq heq)
        cases stop with
        | none => exact Alike.refl _
        | some m => exact hstop m rfl
      have hsub : (start :: ([b] ++ rest)).Sublist (start :: (stop.toList ++ b :: rest)) :=
        (List.sublist_append_right _ _).cons_cons start
      obtain ⟨pieces, hok, hcuts⟩ := ih start (some b) lowerInc
        (hrise.sublist hsub) (by simpa using hb) (by simp) (fun i hi => hamong i (hsub.subset hi))
      have hend : ((some b).toList ++ rest).getLastD start = rest.getLastD b := List.getLastD_cons
      rw [hend] at hcuts
      exact ⟨pieces, hok, hcuts.congr fun n _ _ => alike_continued hrise hstop n⟩
    · -- it ends before the jump, and the next one starts there
      have hsub : (b :: rest).Sublist (start :: (stop.toList ++ b :: rest)) :=
        (List.sublist_append_right _ _).cons start
      obtain ⟨piece, hpiece, hfirst⟩ := exists_piece hcont lowerInc hrise hstop hamong
      obtain ⟨more, hok, hcuts⟩ := ih b none true
        (hrise.sublist hsub) (by simp) (fun _ _ _ => rfl) (fun i hi => hamong i (hsub.subset hi))
      have hsb : start.Precedes b := List.rel_of_pairwise_cons hrise (by simp)
      have hlt := hsb.1
      have hlast : b.time.place ≤ (rest.getLastD b).time.place :=
        place_le_last (hrise.sublist hsub) b (List.mem_cons_self ..)
      exact ⟨_, (bind_of_ok hpiece).trans ((bind_of_ok hok).trans rfl),
        hfirst.jump (by simpa using hcuts) hrise (by split <;> omega) (by split <;> omega)⟩

end

lemma WellFormed.exists_linearPieces (hcont : TemporalValue.continuous V = true) {s : Sequence V}
    (h : s.WellFormed) : ∃ pieces, s.linearPieces = .ok pieces ∧
      FlatCut s.held (fun x => ∃ i ∈ s.instants, i.value = x) s.lo s.hi pieces := by
  have hc := wellFormed_iff.mp h
  rw [lo_eq, hi_eq]
  exact exists_linearRuns hcont s.first none s.lowerInc h.rising (by simp)
    (fun _ hrest _ => (hc.closed (Or.inl hrest)).1) fun i hi => ⟨i, hi, rfl⟩

omit [LawfulValue V] in
lemma isConstant_of_beq {a : Instant V} {rest : List (Instant V)}
    (h : ∀ i ∈ a :: rest, ∀ j ∈ a :: rest, (i.value == j.value) = true) :
    isConstant a rest = true := by
  induction rest generalizing a with
  | nil => rfl
  | cons b rest ih =>
    rw [isConstant, h a (by simp) b (by simp),
      ih fun i hi j hj => h i (List.mem_cons_of_mem _ hi) j (List.mem_cons_of_mem _ hj)]
    rfl

omit [LawfulValue V] in
lemma endsRepeated_of_beq {a : Instant V} {rest : List (Instant V)}
    (h : ∀ i ∈ a :: rest, ∀ j ∈ a :: rest, (i.value == j.value) = true) :
    endsRepeated a rest = true := by
  rcases List.eq_nil_or_concat' rest with rfl | ⟨xs, z, rfl⟩
  · rfl
  · rw [endsRepeated_concat]
    refine h z (by simp) _ ?_
    have hmem : xs.getLastD a ∈ a :: xs := List.getLastD_mem_cons
    exact (List.sublist_append_left xs [z]).cons_cons a |>.subset hmem

lemma Flat.exists_toSteps {s : Sequence V} (hflat : s.Flat) (h : s.WellFormed)
    (hself : ∀ i ∈ s.instants, (i.value == i.value) = true) :
    ∃ x, s.toSteps .step = .ok x ∧ x.WellFormed ∧ x.interp = .step ∧ x.lo = s.lo ∧ x.hi = s.hi ∧
      (∀ i ∈ x.instants, i ∈ s.instants) ∧ ∀ n, Alike (x.held n) (s.held n) := by
  have hc := wellFormed_iff.mp h
  have hbeq : ∀ i ∈ s.first :: s.rest, ∀ j ∈ s.first :: s.rest, (i.value == j.value) = true :=
    fun i hi j hj => ((hflat i hi).symm.trans (hflat j hj)).beq (hself i hi)
  have hchecked : Checked s.first s.rest s.lowerInc s.upperInc .step :=
    ⟨by simp, hc.rising, fun hor => hc.closed (Or.inl (hor.resolve_right (by simp))),
      fun _ _ => endsRepeated_of_beq hbeq⟩
  have hok : makeRun s.first s.rest s.lowerInc s.upperInc .step true = .ok _ :=
    makeRun_eq_ok_iff.mpr
      ⟨hchecked, fun _ => completes_normalize hchecked.rising fun hl => absurd hl (by simp), rfl⟩
  have hbuilt := builtFrom_of_makeRun hok
  refine ⟨_, check_bind_eq_ok.mpr ⟨?_, hok⟩, hbuilt.wellFormed, rfl, ?_, ?_,
    hbuilt.instants_subset, fun n => ?_⟩
  · exact require_eq_ok.mpr (isConstant_of_beq hbeq)
  · rw [hbuilt.lo_eq, lo_eq]
  · rw [hbuilt.hi_eq, hi_eq]
    rfl
  · exact alike_heldFrom_kept n hc.rising (by simp)

end

end Sequence

namespace Temporal

open Sequence

variable {V : Type} [TemporalValue V]

lemma setInterp_linear {v : Temporal V} (hs : v.interp = .step) :
    v.setInterp .linear =
      reported (do ofSequences (← v.sequences.mapM Sequence.linearPieces).flatten) := by
  cases v with
  | instant i => cases hs
  | sequence s =>
    have hs : s.interp = .step := hs
    simp [setInterp, withInterp, Temporal.interp, hs]
  | sequenceSet s =>
    have hs : s.interp = .step := hs
    simp [setInterp, withInterp, Temporal.interp, hs]

lemma setInterp_step {v : Temporal V} (hl : v.interp = .linear) :
    v.setInterp .step = reported (do ofSequences (← v.sequences.mapM fun s => s.toSteps .step)) := by
  cases v with
  | instant i => cases hl
  | sequence s =>
    have hl : s.interp = .linear := hl
    simp [setInterp, withInterp, Temporal.interp, hl]
  | sequenceSet s =>
    have hl : s.interp = .linear := hl
    simp [setInterp, withInterp, Temporal.interp, hl]

variable [LawfulValue V]

section

variable {v : Temporal V} {cut : Sequence V → List (Sequence V)}

lemma WellFormed.train_cut (h : v.WellFormed) (hcut : ∀ s ∈ v.sequences,
    FlatCut s.held (fun x => ∃ i ∈ s.instants, i.value = x) s.lo s.hi (cut s)) :
    Train .linear (v.sequences.flatMap cut) := by
  refine ⟨fun p hp => ?_, fun p hp => ?_, by simp, List.pairwise_flatMap.mpr ⟨fun s hmem =>
    (hcut s hmem).rising, h.rising.imp_of_mem fun {a b} ha hb hab p hp q hq => ?_⟩⟩
  · obtain ⟨s, hmem, hp⟩ := List.mem_flatMap.mp hp
    exact (hcut s hmem).wellFormed p hp
  · obtain ⟨s, hmem, hp⟩ := List.mem_flatMap.mp hp
    exact (hcut s hmem).interp_eq p hp
  · have := ((hcut a ha).bounds p hp).2
    have := ((hcut b hb).bounds q hq).1
    unfold Before at hab ⊢
    omega

lemma WellFormed.mirrors_cut (h : v.WellFormed) (hd : v.isDiscrete = false)
    (hcut : ∀ s ∈ v.sequences,
      FlatCut s.held (fun x => ∃ i ∈ s.instants, i.value = x) s.lo s.hi (cut s)) :
    Mirrors v.sequences (v.sequences.flatMap cut) := by
  have htrain := h.isTrain hd
  refine ⟨fun p hp _ => ?_, fun n x => ?_⟩
  · obtain ⟨s, hmem, hp⟩ := List.mem_flatMap.mp hp
    exact (hcut s hmem).flat p hp
  · simp only [List.mem_flatMap]
    constructor
    · rintro ⟨p, ⟨s, hmem, hp⟩, hpx⟩
      obtain ⟨hn, hx⟩ := ((hcut s hmem).takes_iff n x).mp ⟨p, hp, hpx⟩
      exact ⟨s, hmem, (htrain.covers_iff hmem n).mpr hn, hx⟩
    · rintro ⟨s, hmem, hn, hx⟩
      obtain ⟨p, hp, hpx⟩ := ((hcut s hmem).takes_iff n x).mpr
        ⟨(htrain.covers_iff hmem n).mp hn, hx⟩
      exact ⟨p, ⟨s, hmem, hp⟩, hpx⟩

/-- The flat pieces of a value by steps mirror it. They are what the linear form is made of. -/
lemma WellFormed.exists_flatPieces (hcont : TemporalValue.continuous V = true) (h : v.WellFormed)
    (hs : v.interp = .step) :
    ∃ pieces, v.setInterp .linear = reported (ofSequences pieces) ∧ pieces ≠ [] ∧
      Train .linear pieces ∧ Compatible v.firstInstant.value pieces ∧
      Mirrors v.sequences pieces ∧
      ∀ p ∈ pieces, ∀ i ∈ p.instants, ∃ j ∈ v.instants, j.value = i.value := by
  have hcuts : ∀ s ∈ v.sequences, ∃ pieces, s.linearPieces = .ok pieces ∧
      FlatCut s.held (fun x => ∃ i ∈ s.instants, i.value = x) s.lo s.hi pieces :=
    fun s hmem => (h.sequences s hmem).exists_linearPieces hcont
  choose! cut hok hcut using hcuts
  have hmirrors := h.mirrors_cut (by simp [isDiscrete, hs]) hcut
  have hamong : ∀ p ∈ v.sequences.flatMap cut, ∀ i ∈ p.instants,
      ∃ j ∈ v.instants, j.value = i.value := by
    intro p hp i hi
    obtain ⟨s, hmem, hp⟩ := List.mem_flatMap.mp hp
    obtain ⟨j, hj, hv⟩ := (hcut s hmem).among p hp i hi
    exact ⟨j, mem_instants_iff.mpr ⟨s, hmem, hj⟩, hv⟩
  have hne : v.sequences.flatMap cut ≠ [] := by
    obtain ⟨s, hmem⟩ := v.exists_mem_sequences
    obtain ⟨p, hp, -⟩ := (hmirrors.covers_iff s.lo).mpr
      ⟨s, hmem, (h.sequences s hmem).covers_lo⟩
    exact List.ne_nil_of_mem hp
  have hcompat : Compatible v.firstInstant.value (v.sequences.flatMap cut) := by
    intro p hp i hi
    obtain ⟨j, hj, hv⟩ := hamong p hp i hi
    rw [← hv]
    exact h.compatible_first hj
  refine ⟨_, ?_, hne, h.train_cut hcut, hcompat, hmirrors, hamong⟩
  rw [setInterp_linear hs, bind_of_ok (mapM_eq_map hok), List.flatMap_def]

/-- A value by steps can be made linear, if that ends: what comes out mirrors it. -/
lemma WellFormed.exists_linear (hcont : TemporalValue.continuous V = true) (h : v.WellFormed)
    (hs : v.interp = .step) (hdone : Completes (v.setInterp .linear)) :
    ∃ l, v.setInterp .linear = .ok l ∧ l.WellFormed ∧ l.interp = .linear ∧
      Mirrors v.sequences l.sequences ∧ ∀ i ∈ l.instants, ∃ j ∈ v.instants, j.value = i.value := by
  obtain ⟨pieces, heq, hne, htrain, hcompat, hmirrors, hamong⟩ := h.exists_flatPieces hcont hs
  rw [heq, completes_reported] at hdone
  obtain ⟨l, hl, hwf, hinterp, hg, hm⟩ :=
    exists_ofSequences_mirrors hne htrain hcompat hmirrors.slopeless hdone
  refine ⟨l, heq.trans (reported_eq_ok.mpr hl), hwf, hinterp, hmirrors.trans hm, fun i hi => ?_⟩
  obtain ⟨s, hmem, hi⟩ := mem_instants_iff.mp hi
  obtain ⟨p, hp, hi⟩ := hg.instants_subset s hmem i hi
  exact hamong p hp i hi

/-- A value is brief if the microseconds from its first to its last instant fit in 64 bits. -/
def Brief (v : Temporal V) : Prop :=
  v.lastInstant.time.micros - v.firstInstant.time.micros < 2 ^ 63

/-- Sequences that cover no more than a brief value are confined. -/
lemma WellFormed.confined_of_mirrors (h : v.WellFormed) (hbrief : v.Brief)
    {pieces : List (Sequence V)} (hwf : ∀ p ∈ pieces, p.WellFormed)
    (hm : Mirrors v.sequences pieces) : Confined pieces := by
  have hwithin : ∀ p ∈ pieces, ∀ n, p.Covers n →
      v.firstInstant.time.place ≤ n ∧ n ≤ v.lastInstant.time.place := by
    intro p hp n hn
    obtain ⟨s, hs, hn⟩ := (hm.covers_iff n).mp ⟨p, hp, hn⟩
    have hperiod := (h.sequences s hs).mem_period hn
    have hends := h.sequences_within hs
    omega
  refine fun _ => ⟨v.firstInstant.time, v.lastInstant.time, hbrief, fun p hp => ?_⟩
  exact ⟨(hwithin p hp p.lo (hwf p hp).covers_lo).1, (hwithin p hp p.hi (hwf p hp).covers_hi).2⟩

lemma WellFormed.completes_linear (hcont : TemporalValue.continuous V = true) (h : v.WellFormed)
    (hs : v.interp = .step) (hbrief : v.Brief) : Completes (v.setInterp .linear) := by
  obtain ⟨pieces, heq, -, htrain, hcompat, hmirrors, -⟩ := h.exists_flatPieces hcont hs
  rw [heq, completes_reported]
  exact completes_ofSequences htrain hcompat
    (h.confined_of_mirrors hbrief htrain.wellFormed hmirrors)

end

lemma leveled_of_flat {v l : Temporal V} (hflat : ∀ s ∈ l.sequences, s.Flat) (hp : l.Proper)
    (hvalues : ∀ i ∈ l.instants, ∃ j ∈ v.instants, j.value = i.value)
    (hlevel : ∀ i ∈ v.instants, ∀ j ∈ v.instants, (i.value == j.value) = true →
      Level i.value j.value) : l.Leveled := by
  intro s hs _ i hi j hj
  have hbeq := ((hflat s hs i hi).symm.trans (hflat s hs j hj)).beq
    (hp i (mem_instants_iff.mpr ⟨s, hs, hi⟩))
  obtain ⟨i', hi', hvi⟩ := hvalues i (mem_instants_iff.mpr ⟨s, hs, hi⟩)
  obtain ⟨j', hj', hvj⟩ := hvalues j (mem_instants_iff.mpr ⟨s, hs, hj⟩)
  rw [← hvi, ← hvj] at hbeq ⊢
  exact hlevel i' hi' j' hj' hbeq

/-- A linear value of flat sequences can be made one by steps that mirrors it. -/
lemma WellFormed.exists_steps {l : Temporal V} (h : l.WellFormed) (hl : l.interp = .linear)
    (hflat : ∀ s ∈ l.sequences, s.Flat) (hp : l.Proper) :
    ∃ s, l.setInterp .step = .ok s ∧ s.WellFormed ∧ s.interp = .step ∧
      Mirrors l.sequences s.sequences := by
  have hd : l.isDiscrete = false := by simp [isDiscrete, hl]
  have htrain := h.isTrain hd
  have hsteps := fun s hmem => (hflat s hmem).exists_toSteps (h.sequences s hmem)
    (fun i hi => hp i (mem_instants_iff.mpr ⟨s, hmem, hi⟩))
  have : Nonempty (Sequence V) := l.exists_mem_sequences.nonempty
  choose! steps hok hwf hinterp hlo hhi hsub hheld using hsteps
  have hpieces : Train .step (l.sequences.map steps) :=
    htrain.map (by simp) hwf hinterp hlo hhi
  have hmirrors : Mirrors l.sequences (l.sequences.map steps) := by
    refine ⟨fun p hmem hlin => ?_, fun n x => ?_⟩
    · rw [hpieces.interp_eq p hmem] at hlin
      cases hlin
    · simp only [List.mem_map, exists_exists_and_eq_and]
      refine exists_congr fun s => and_congr_right fun hmem => ?_
      have halike := hheld s hmem n
      unfold TakesLike
      rw [hpieces.covers_iff (List.mem_map_of_mem hmem), htrain.covers_iff hmem, hlo s hmem,
        hhi s hmem]
      exact and_congr_right fun _ => ⟨halike.symm.trans, halike.trans⟩
  have hne : l.sequences.map steps ≠ [] := by
    obtain ⟨s, hmem⟩ := l.exists_mem_sequences
    exact List.ne_nil_of_mem (List.mem_map_of_mem hmem)
  have hcompat : Compatible l.firstInstant.value (l.sequences.map steps) := by
    intro p hp i hi
    obtain ⟨s, hmem, rfl⟩ := List.mem_map.mp hp
    exact h.compatible_first (mem_instants_iff.mpr ⟨s, hmem, hsub s hmem i hi⟩)
  obtain ⟨s, hs, hwf', hinterp', -, hm⟩ :=
    exists_ofSequences_mirrors hne hpieces hcompat hmirrors.slopeless
      (completes_ofSequences hpieces hcompat
        (confined_of_ne_linear fun s hs => by simp [hpieces.interp_eq s hs]))
  refine ⟨s, ?_, hwf', hinterp', hmirrors.trans hm⟩
  rw [setInterp_step hl, reported_eq_ok, bind_of_ok (mapM_eq_map hok)]
  exact hs

omit [LawfulValue V] in
lemma usualInterp_ne_discrete : usualInterp V ≠ .discrete := by
  unfold usualInterp
  split <;> simp

/-- Any value whose sequences are single instants becomes discrete. -/
lemma setInterp_discrete {s : SequenceSet V} {d : Sequence V} (h : d.WellFormed)
    (hd : d.interp = .discrete) (hne : s.interp ≠ .discrete)
    (hs : s.sequences = d.instants.map fun i => ofInstant i (usualInterp V)) :
    (sequenceSet s).setInterp .discrete = .ok (sequence d.rebuilt) := by
  have hfirst : s.sequences.map Sequence.first = d.instants := by
    rw [hs, List.map_map]
    exact List.map_id _
  have hall : s.sequences.all Sequence.isInstantaneous = true := by
    rw [hs, List.all_map]
    exact List.all_eq_true.mpr fun _ _ => rfl
  obtain ⟨hl, hu⟩ := (wellFormed_iff.mp h).closed (Or.inr hd)
  have hmake : Sequence.make d.instants true true .discrete false = .ok d.rebuilt := by
    unfold Sequence.rebuilt
    rw [hl, hu, hd]
    exact makeRun_eq_ok (checked_discrete h.rising)
  have hinterp : (sequenceSet s).withInterp .discrete = (sequenceSet s).toDiscrete := by
    have hne' : ((sequenceSet s).interp == .discrete) = false := beq_false_of_ne hne
    unfold withInterp
    dsimp only
    rw [hne', if_neg Bool.false_ne_true]
  unfold setInterp
  rw [hinterp, reported_eq_ok]
  refine check_bind_eq_ok.mpr ⟨require_eq_ok.mpr hall, ?_⟩
  change (do return sequence (← Sequence.make (s.sequences.map Sequence.first) true true .discrete
    false)) = _
  rw [hfirst, bind_of_ok hmake]
  rfl

/-- The instants of a discrete sequence become a set of sequences, from which it can be built
again. -/
lemma exists_toSequenceSet {d : Sequence V} (h : d.WellFormed) (hd : d.interp = .discrete) :
    ∃ s, (sequence d).toSequenceSet = .ok s ∧ s.WellFormed ∧
      (sequenceSet s).setInterp .discrete = .ok (sequence d.rebuilt) := by
  have htrain : Train (usualInterp V) (d.instants.map fun i => ofInstant i (usualInterp V)) := by
    refine ⟨?_, by simp [ofInstant], usualInterp_ne_discrete, List.pairwise_map.mpr ?_⟩
    · intro s hs
      obtain ⟨i, -, rfl⟩ := List.mem_map.mp hs
      refine wellFormed_ofInstant i fun hl => ?_
      unfold usualInterp at hl
      split at hl
      · assumption
      · cases hl
    · refine h.rising.imp fun {a b} hab => ?_
      unfold Before
      rw [lo_eq, hi_eq]
      have := hab.1
      simpa [ofInstant, Sequence.last] using this
  have hcompat : Compatible d.first.value
      (d.instants.map fun i => ofInstant i (usualInterp V)) := by
    intro s hs i hi
    obtain ⟨j, hj, rfl⟩ := List.mem_map.mp hs
    obtain rfl := List.mem_singleton.mp hi
    exact h.compatible_first hj
  have hne : (SequenceSet.ofRun (ofInstant d.first (usualInterp V))
      (d.rest.map fun i => ofInstant i (usualInterp V))).interp ≠ .discrete :=
    usualInterp_ne_discrete
  refine ⟨_, ?_, SequenceSet.wellFormed_of_isTrain htrain hcompat, setInterp_discrete h hd hne rfl⟩
  unfold toSequenceSet
  dsimp only
  rw [if_pos (isDiscrete_iff.mpr hd)]
  exact reported_eq_ok.mpr (SequenceSet.make_eq_ofRun htrain hcompat)

/-- At a timestamp equal values are looked up in two values, or none in either. -/
def FindsEqual (v w : Temporal V) (t : Timestamp) : Prop :=
  ∃ found whole, v.lookup t = .ok found ∧ w.lookup t = .ok whole ∧
    Option.Rel (fun x y => (x == y) = true) found whole

lemma WellFormed.lookup_of_step {v : Temporal V} (h : v.WellFormed) (hs : v.interp = .step)
    (t : Timestamp) : v.lookup t = .ok (v.valueAt t) :=
  h.lookup_of_completes (h.completes_lookup (fun hl => by simp [hs] at hl) t)

/-- A change of interpolation keeps the function. A value by steps of a continuous type, whose
values are equal to themselves and level between equal ones, can be made linear and then one by
steps again; its time and, up to equality, its values stay. What is not brief may be given up when
it is made linear, or when the linear one is looked up. A discrete sequence is built again from the
set of its instants. -/
theorem reinterpolation_spec (V : Type) [TemporalValue V] [LawfulValue V] :
    (TemporalValue.continuous V = true → ∀ v : Temporal V, v.WellFormed → v.interp = .step →
      v.Proper → (∀ i ∈ v.instants, ∀ j ∈ v.instants, (i.value == j.value) = true →
        Level i.value j.value) →
      (v.setInterp .linear = .error .aborted ∧ ¬v.Brief) ∨
      ∃ l, v.setInterp .linear = .ok l ∧ l.WellFormed ∧ l.interp = .linear ∧ l.time = v.time ∧
        (∀ t, (l.lookup t = .error .aborted ∧ ¬v.Brief) ∨ l.FindsEqual v t) ∧
        ∃ s, l.setInterp .step = .ok s ∧ s.WellFormed ∧ s.interp = .step ∧ s.time = v.time ∧
          ∀ t, s.FindsEqual v t) ∧
    ∀ d : Sequence V, d.WellFormed → d.interp = .discrete →
      ∃ set, (sequence d).toSequenceSet = .ok set ∧ set.WellFormed ∧
        (sequenceSet set).setInterp .discrete = .ok (sequence d.rebuilt) ∧
        (d.Sound → d.rebuilt.box = d.box) ∧
        ((sequence d).Proper → (sequence d.rebuilt == sequence d) = true) := by
  refine ⟨fun hcont v h hs hp hlevel => ?_, fun d h hd => ?_⟩
  · by_cases hdone : v.setInterp .linear = .error .aborted
    · exact .inl ⟨hdone, fun hbrief => h.completes_linear hcont hs hbrief hdone⟩
    obtain ⟨l, hl, hwl, hil, hml, hvalues⟩ := h.exists_linear hcont hs hdone
    have hflat : ∀ x ∈ l.sequences, x.Flat := fun x hx =>
      hml.slopeless x hx ((hwl.interp_eq x hx).trans hil)
    have hpl : l.Proper := by
      intro i hi
      obtain ⟨j, hj, hv⟩ := hvalues i hi
      rw [← hv]
      exact hp j hj
    obtain ⟨s, hok, hws, his, hms⟩ := hwl.exists_steps hil hflat hpl
    have hdv : v.isDiscrete = false := by simp [isDiscrete, hs]
    have hdl : l.isDiscrete = false := by simp [isDiscrete, hil]
    have hds : s.isDiscrete = false := by simp [isDiscrete, his]
    have hlv := h.leveled_of_step hs
    have hll := leveled_of_flat hflat hpl hvalues hlevel
    refine .inr ⟨l, hl, hwl, hil, hwl.time_eq h hml.covers_iff, fun t => ?_,
      s, hok, hws, his, hws.time_eq h (hml.trans hms).covers_iff, fun t => ?_⟩
    · by_cases hfound : l.lookup t = .error .aborted
      · refine .inl ⟨hfound, fun hbrief => ?_⟩
        have hconfined := h.confined_of_mirrors hbrief hwl.sequences hml
        exact hwl.completes_lookup_of_confined hconfined t hfound
      · have hlookup := hwl.lookup_of_completes hfound
        exact .inr ⟨_, _, hlookup, h.lookup_of_step hs t,
          h.rel_lookup hwl hdv hdl hlv hll hp hml hlookup (h.lookup_of_step hs t)⟩
    · exact ⟨_, _, hws.lookup_of_step his t, h.lookup_of_step hs t,
        h.rel_lookup hws hdv hds hlv (hws.leveled_of_step his) hp (hml.trans hms)
          (hws.lookup_of_step his t) (h.lookup_of_step hs t)⟩
  · obtain ⟨set, hset, hwf, hback⟩ := exists_toSequenceSet h hd
    refine ⟨set, hset, hwf, hback, fun hsound => hsound.box_eq.symm, fun hproper => ?_⟩
    exact beq_of_rebuilt_eq (v := sequence d.rebuilt) rfl hproper

lemma level_of_isFinite {x y : Float} (hx : Binary64.isFinite x = true) (h : (x == y) = true) :
    Level x y := fun _ _ _ hat htb r hr => by
  obtain ⟨-, rfl⟩ := Timestamp.ratio_eq_ok.mp hr
  exact Binary64.beq_lerp (Binary64.isFinite_shape hx) h (Timestamp.isFinite_quotient hat htb)

/-- A number that jumps once and ends before a timestamp. -/
def surge : Temporal Float :=
  sequence (.ofRun ⟨1.5, .nearest 0⟩ [⟨2.5, .nearest 10⟩, ⟨2.5, .nearest 20⟩] true false .step)

def marks : Sequence Integer :=
  .ofRun ⟨.clamp 1, .nearest 0⟩ [⟨.clamp 2, .nearest 10⟩] true true .discrete

theorem surge_reinterpolated :
    TemporalValue.continuous Float = true ∧ surge.WellFormed ∧ surge.interp = .step ∧
      surge.Proper ∧ surge.Brief ∧ marks.WellFormed ∧ marks.interp = .discrete ∧
      (∃ l, surge.setInterp .linear = .ok l ∧ l.interp = .linear ∧ l.time = surge.time ∧
        (∀ t, l.FindsEqual surge t) ∧ ∃ s, l.setInterp .step = .ok s ∧ s.time = surge.time ∧
          ∀ t, s.FindsEqual surge t) ∧
      ∃ set, (sequence marks).toSequenceSet = .ok set ∧
        (sequenceSet set).setInterp .discrete = .ok (sequence marks.rebuilt) := by
  have hwf : surge.WellFormed := rfl
  have hp : surge.Proper := by
    unfold Proper
    decide +kernel
  have hlevel : ∀ i ∈ surge.instants, ∀ j ∈ surge.instants, (i.value == j.value) = true →
      Level i.value j.value := by
    have hfinite : ∀ i ∈ surge.instants, Binary64.isFinite i.value = true := by decide +kernel
    exact fun i hi j _ => level_of_isFinite (hfinite i hi)
  have hbrief : surge.Brief := by
    unfold Brief
    decide
  obtain ⟨l, hl, -, hil, htime, hfound, s, hs, -, -, htime', hback⟩ :=
    ((reinterpolation_spec Float).1 rfl surge hwf rfl hp hlevel).resolve_left
      fun hgiven => hgiven.2 hbrief
  obtain ⟨set, hset, -, hagain, -⟩ := (reinterpolation_spec Integer).2 marks rfl rfl
  exact ⟨rfl, hwf, rfl, hp, hbrief, rfl, rfl, ⟨l, hl, hil, htime,
    fun t => (hfound t).resolve_left fun hgiven => hgiven.2 hbrief, s, hs, htime', hback⟩,
    set, hset, hagain⟩

/-- A number that is the same through all of the time, in two parts that touch. -/
def calm : SequenceSet Float :=
  .ofRun (.ofRun ⟨1.0, .nearest (-8000000000000000000)⟩ [⟨1.0, .nearest 0⟩] true false .step)
    [.ofRun ⟨1.0, .nearest 0⟩ [⟨1.0, .nearest 8000000000000000000⟩] true true .step]

/-- What stays the same through all of the time is given up when it is made linear. -/
theorem calm_given_up :
    TemporalValue.continuous Float = true ∧ (sequenceSet calm).WellFormed ∧
      (sequenceSet calm).interp = .step ∧ (sequenceSet calm).Proper ∧
      (∀ i ∈ (sequenceSet calm).instants, ∀ j ∈ (sequenceSet calm).instants,
        Level i.value j.value) ∧
      (sequenceSet calm).setInterp .linear = .error .aborted := by
  have hp : (sequenceSet calm).Proper := by
    unfold Proper
    decide +kernel
  have hfinite : ∀ i ∈ (sequenceSet calm).instants, Binary64.isFinite i.value = true := by
    decide +kernel
  have hsame : ∀ i ∈ (sequenceSet calm).instants, ∀ j ∈ (sequenceSet calm).instants,
      (i.value == j.value) = true := by decide +kernel
  refine ⟨rfl, ?_, rfl, hp, fun i hi j hj => level_of_isFinite (hfinite i hi) (hsame i hi j hj),
    (map_eq_error (f := fun _ => ())).mp (by decide +kernel)⟩
  have hmake : SequenceSet.make calm.sequences false = .ok calm := rfl
  refine SequenceSet.wellFormed_of_make (fun s hs => ?_) hmake
  rcases List.mem_pair.mp hs with rfl | rfl <;> rfl

end Temporal

end TemporalAlgebra
