import TemporalAlgebra.Proofs.Temporal.Held

/-!
# Joining sequences

Sequences that touch without a jump are joined into one. The joined sequence starts with the first
and ends with the second one, and it takes the values of the first up to where the second one
starts. So a train of sequences can always be joined, and what comes out is defined at the same
places and takes the same values there.
-/
namespace TemporalAlgebra

namespace Sequence

variable {V : Type} [TemporalValue V]

lemma heldFrom_append {n : Int} {a b : Instant V} {xs ys : List (Instant V)}
    (h : (a :: (xs ++ b :: ys)).Pairwise Instant.Precedes) :
    heldFrom n a (xs ++ b :: ys) =
      if b.time.place ≤ n then heldFrom n b ys else heldFrom n a xs := by
  induction xs generalizing a with
  | nil => rfl
  | cons x xs ih =>
    have hxb : x.time.place < b.time.place := by
      have hxb : x.Precedes b := List.rel_of_pairwise_cons h.tail (by simp)
      exact hxb.1
    rw [List.cons_append, heldFrom, heldFrom, ih h.tail]
    by_cases hb : b.time.place ≤ n
    · rw [if_pos hb, if_pos hb, if_pos (show x.time.place ≤ n by omega)]
    · rw [if_neg hb, if_neg hb]

lemma alike_heldFrom {n : Int} {a b : Instant V} (h : Alike a.value b.value)
    (rest : List (Instant V)) : Alike (heldFrom n a rest) (heldFrom n b rest) := by
  cases rest with
  | nil => exact h
  | cons c rest =>
    rw [heldFrom, heldFrom]
    split
    · exact Alike.refl _
    · exact h

omit [TemporalValue V] in
lemma heldFrom_of_lt {n : Int} {a : Instant V} {rest : List (Instant V)}
    (h : ∀ i ∈ rest, n < i.time.place) : heldFrom n a rest = a.value := by
  cases rest with
  | nil => rfl
  | cons b rest =>
    have := h b (by simp)
    rw [heldFrom, if_neg (by omega)]

omit [TemporalValue V] in
lemma getLastD_append_cons (xs : List (Instant V)) (a b : Instant V) (ys : List (Instant V)) :
    (xs ++ b :: ys).getLastD a = ys.getLastD b := by
  induction xs generalizing a with
  | nil => exact List.getLastD_cons
  | cons x xs ih =>
    rw [List.cons_append, List.getLastD_cons]
    exact ih x

lemma endsRepeated_append (a : Instant V) (xs : List (Instant V)) (b z : Instant V)
    (ys : List (Instant V)) :
    endsRepeated a (xs ++ b :: (ys ++ [z])) = endsRepeated b (ys ++ [z]) := by
  have hassoc : xs ++ b :: (ys ++ [z]) = (xs ++ b :: ys) ++ [z] := by simp
  rw [hassoc, endsRepeated_concat, endsRepeated_concat, getLastD_append_cons]

lemma WellFormed.endsRepeated_append_instants [LawfulValue V] {b : Sequence V} (h : b.WellFormed)
    (hstep : b.interp = .step) (hu : b.upperInc = false) (a : Instant V) (xs : List (Instant V)) :
    endsRepeated a (xs ++ b.instants) = true := by
  obtain ⟨ys, hys⟩ := exists_rest_eq_concat (h.rest_ne_nil hu)
  have hends := (wellFormed_iff.mp h).repeated hstep hu
  unfold instants
  rw [hys] at hends ⊢
  rw [endsRepeated_append]
  exact hends

/-- A sequence ends just before another one begins if only one of them has the instant at which
they meet. -/
lemma hi_add_one_eq_lo_iff {a b : Sequence V} : a.hi + 1 = b.lo ↔
    a.last.time.place = b.first.time.place ∧ a.upperInc ≠ b.lowerInc := by
  have := a.last.time.place_emod
  have := b.first.time.place_emod
  rw [hi_eq, lo_eq]
  cases a.upperInc <;> cases b.lowerInc <;> simp <;> omega

/-- A run that goes from the start of one sequence to the end of another one. -/
structure Joins (a b : Sequence V) (run : List (Instant V)) : Prop where
  rising : (a.first :: run).Pairwise Instant.Precedes
  ne_nil : run ≠ []
  last_place : (run.getLastD a.first).time.place = b.last.time.place
  repeated : a.interp = .step → b.upperInc = false → endsRepeated a.first run = true
  instants_subset : ∀ i ∈ a.first :: run, i ∈ a.instants ∨ i ∈ b.instants
  level : a.interp = .linear → Alike a.last.value b.first.value
  held_left : ∀ n < b.lo, heldFrom n a.first run = a.held n
  held_right : ∀ n, b.lo ≤ n → Alike (heldFrom n a.first run) (b.held n)

/-- All values of one sequence go together with all of a later one if the last and the first one
do. -/
lemma precedes_of_touching [LawfulValue V] {a b : Sequence V} (ha : a.WellFormed)
    (hb : b.WellFormed) (hcompat : TemporalValue.compatible a.last.value b.first.value = .ok ())
    {i j : Instant V} (hi : i ∈ a.instants) (hj : j ∈ b.instants)
    (hlt : i.time.place < j.time.place) : i.Precedes j := by
  refine ⟨hlt, ?_⟩
  have hia : TemporalValue.compatible i.value a.last.value = .ok () :=
    LawfulValue.compatible_trans (LawfulValue.compatible_symm (ha.compatible_first hi))
      (ha.compatible_first a.last_mem)
  exact LawfulValue.compatible_trans (LawfulValue.compatible_trans hia hcompat)
    (hb.compatible_first hj)

/-- The exclusive end of steps gives way to what follows. -/
lemma joins_of_step [LawfulValue V] {a b : Sequence V} (ha : a.WellFormed) (hb : b.WellFormed)
    (hinterp : b.interp = a.interp)
    (hcompat : TemporalValue.compatible a.last.value b.first.value = .ok ())
    (htime : a.last.time.place = b.first.time.place) (hstep : a.interp = .step)
    (hu : a.upperInc = false) (hl : b.lowerInc = true) :
    Joins a b (a.rest.dropLast ++ b.instants) := by
  have hblo : b.lo = b.first.time.place := by
    rw [lo_eq, hl]
    simp
  obtain ⟨xs, hxs⟩ := exists_rest_eq_concat (ha.rest_ne_nil hu)
  have hdrop : a.rest.dropLast = xs := by rw [hxs, List.dropLast_concat]
  rw [hdrop]
  have hrise : (a.first :: xs ++ [a.last]).Pairwise Instant.Precedes := by
    rw [List.cons_append, ← hxs]
    exact ha.rising
  obtain ⟨hpre, -, hcross⟩ := List.pairwise_append.mp hrise
  have hmem : ∀ i ∈ a.first :: xs, i ∈ a.instants := by
    intro i hi
    unfold instants
    rw [hxs, ← List.cons_append]
    exact List.mem_append_left _ hi
  have hrising : (a.first :: (xs ++ b.instants)).Pairwise Instant.Precedes := by
    rw [← List.cons_append, List.pairwise_append]
    refine ⟨hpre, hb.rising, fun i hi j hj => ?_⟩
    refine precedes_of_touching ha hb hcompat (hmem i hi) hj ?_
    have h1 := (hcross i hi a.last (by simp)).1
    have h2 := first_le hb.rising hj
    omega
  refine ⟨hrising, by simp [instants], ?_, ?_, ?_, by simp [hstep], ?_, ?_⟩
  · unfold instants
    rw [getLastD_append_cons]
    rfl
  · intro hs hub
    exact hb.endsRepeated_append_instants (hinterp.trans hs) hub _ _
  · intro i hi
    rw [← List.cons_append] at hi
    rcases List.mem_append.mp hi with hi | hi
    · exact Or.inl (hmem i hi)
    · exact Or.inr hi
  · intro n hn
    unfold instants held
    rw [heldFrom_append hrising, hxs, heldFrom_append (by rw [← hxs]; exact ha.rising),
      if_neg (by omega), if_neg (by omega)]
  · intro n hn
    unfold instants
    rw [heldFrom_append hrising, if_pos (by omega)]
    exact Alike.refl _

lemma heldFrom_rest_append {a : Sequence V} {more : List (Instant V)}
    (h : (a.first :: (a.rest ++ more)).Pairwise Instant.Precedes) (n : Int) :
    heldFrom n a.first (a.rest ++ more) =
      if a.last.time.place ≤ n then heldFrom n a.last more else a.held n := by
  unfold held
  rcases List.eq_nil_or_concat' a.rest with hn | ⟨xs, z, hxs⟩
  · rw [hn, last_eq_first hn, List.nil_append]
    split
    · rfl
    · rename_i hlt
      rw [heldFrom_of_lt fun i hi => ?_]
      · rfl
      · have hai : a.first.Precedes i := List.rel_of_pairwise_cons (hn ▸ h) (by simpa using hi)
        have := hai.1
        omega
  · have hz := last_concat hxs
    have hrise : (a.first :: (xs ++ z :: more)).Pairwise Instant.Precedes := by
      rw [hxs] at h
      simpa using h
    rw [hz, hxs, List.append_assoc, List.singleton_append, heldFrom_append hrise,
      heldFrom_append (hrise.sublist (by simp))]
    split <;> rfl

lemma endsRepeated_rest_append [LawfulValue V] {a : Sequence V} {b : Instant V}
    {more : List (Instant V)} (hvalue : (a.last.value == b.value) = true) (hne : more ≠ [])
    (h : endsRepeated b more = true) : endsRepeated a.first (a.rest ++ more) = true := by
  obtain ⟨ys, y, rfl⟩ := (List.eq_nil_or_concat' more).resolve_left hne
  rw [endsRepeated_concat] at h
  rw [← List.append_assoc, endsRepeated_concat]
  cases ys with
  | nil =>
    rw [List.append_nil]
    exact LawfulValue.beq_trans h (LawfulValue.beq_symm hvalue)
  | cons y' ys =>
    rw [getLastD_append_cons]
    rw [List.getLastD_cons] at h
    exact h

/-- Sequences that meet at one value share the instant at which they touch. -/
lemma joins_of_equal [LawfulValue V] {a b : Sequence V} (ha : a.WellFormed) (hb : b.WellFormed)
    (hinterp : b.interp = a.interp)
    (hcompat : TemporalValue.compatible a.last.value b.first.value = .ok ())
    (htime : a.last.time.place = b.first.time.place) (hinc : a.upperInc ≠ b.lowerInc)
    (hvalue : (a.last.value == b.first.value) = true) : Joins a b (a.rest ++ b.rest) := by
  have hca := wellFormed_iff.mp ha
  have hcb := wellFormed_iff.mp hb
  have hrising : (a.first :: (a.rest ++ b.rest)).Pairwise Instant.Precedes := by
    rw [← List.cons_append, List.pairwise_append]
    refine ⟨hca.rising, hcb.rising.tail, fun i hi j hj => ?_⟩
    refine precedes_of_touching ha hb hcompat hi (by simp [instants, hj]) ?_
    have h1 := place_le_last hca.rising i hi
    have h2 := (List.rel_of_pairwise_cons hcb.rising hj).1
    unfold last at htime
    omega
  have hheld := heldFrom_rest_append hrising
  have hlo : b.lo = b.first.time.place + if b.lowerInc then 0 else 1 := lo_eq b
  refine ⟨hrising, ?_, ?_, ?_, ?_, fun _ => Alike.of_beq hvalue, ?_, ?_⟩
  · intro hn
    obtain ⟨hna, hnb⟩ := List.append_eq_nil_iff.mp hn
    rw [(hca.closed (Or.inl hna)).2, (hcb.closed (Or.inl hnb)).1] at hinc
    exact hinc rfl
  · unfold last
    cases hrest : b.rest with
    | nil =>
      rw [List.append_nil]
      exact htime
    | cons y ys =>
      rw [getLastD_append_cons, List.getLastD_cons]
  · intro hs hub
    exact endsRepeated_rest_append hvalue (hb.rest_ne_nil hub)
      (hcb.repeated (hinterp.trans hs) hub)
  · intro i hi
    rw [← List.cons_append] at hi
    rcases List.mem_append.mp hi with hi | hi
    · exact Or.inl hi
    · exact Or.inr (by simp [instants, hi])
  · intro n hn
    rw [hheld]
    split
    · rename_i hle
      have hbn : n = b.first.time.place := by
        split at hlo <;> omega
      have hlt : ∀ i ∈ b.rest, n < i.time.place := fun i hi => by
        have := (List.rel_of_pairwise_cons hcb.rising hi).1
        omega
      rw [heldFrom_of_lt hlt, hbn, ← htime]
      exact (held_place ha.rising a.last_mem).symm
    · rfl
  · intro n hn
    rw [hheld, if_pos (by split at hlo <;> omega)]
    exact alike_heldFrom (Alike.of_beq hvalue) b.rest

/-- All values go together with a given one. -/
def Compatible (c : V) (pieces : List (Sequence V)) : Prop :=
  ∀ s ∈ pieces, ∀ i ∈ s.instants, TemporalValue.compatible c i.value = .ok ()

/-- Sequences that are defined where given ones are, with the same values. -/
structure Gathers (pieces found : List (Sequence V)) : Prop where
  covers_iff : ∀ n, (∃ s ∈ found, s.Covers n) ↔ ∃ s ∈ pieces, s.Covers n
  takes_iff : StepValue V →
    ∀ n x, (∃ s ∈ found, s.Takes n x) ↔ ∃ s ∈ pieces, s.Takes n x
  instants_subset : ∀ s ∈ found, ∀ i ∈ s.instants, ∃ p ∈ pieces, i ∈ p.instants

lemma Gathers.refl (pieces : List (Sequence V)) : Gathers pieces pieces :=
  ⟨fun _ => Iff.rfl, fun _ _ _ => Iff.rfl, fun s hs _ hi => ⟨s, hs, hi⟩⟩

lemma Gathers.trans {a b c : List (Sequence V)} (hab : Gathers a b) (hbc : Gathers b c) :
    Gathers a c := by
  refine ⟨fun n => (hbc.covers_iff n).trans (hab.covers_iff n),
    fun hl n x => (hbc.takes_iff hl n x).trans (hab.takes_iff hl n x), fun s hs i hi => ?_⟩
  obtain ⟨p, hp, hi⟩ := hbc.instants_subset s hs i hi
  exact hab.instants_subset p hp i hi

lemma Gathers.cons {a b : List (Sequence V)} (h : Gathers a b) (s : Sequence V) :
    Gathers (s :: a) (s :: b) := by
  refine ⟨fun n => ?_, fun hl n x => ?_, fun p hp i hi => ?_⟩
  · simp only [List.mem_cons, exists_eq_or_imp, h.covers_iff n]
  · simp only [List.mem_cons, exists_eq_or_imp, h.takes_iff hl n x]
  · rcases List.mem_cons.mp hp with rfl | hp
    · exact ⟨p, by simp, hi⟩
    · obtain ⟨q, hq, hi⟩ := h.instants_subset p hp i hi
      exact ⟨q, by simp [hq], hi⟩

lemma Gathers.perm {a b : List (Sequence V)} (h : a.Perm b) : Gathers a b := by
  refine ⟨fun n => ?_, fun _ n x => ?_, fun s hs i hi => ⟨s, h.mem_iff.mpr hs, hi⟩⟩
  · simp only [h.mem_iff]
  · simp only [h.mem_iff]

lemma Compatible.gathers {c : V} {a b : List (Sequence V)} (h : Compatible c a)
    (hg : Gathers a b) : Compatible c b := by
  intro s hs i hi
  obtain ⟨p, hp, hi⟩ := hg.instants_subset s hs i hi
  exact h p hp i hi

/-- Where two sequences follow each other, their values go together. -/
lemma Compatible.meet [LawfulValue V] {c : V} {a b : Sequence V} {rest : List (Sequence V)}
    (h : Compatible c (a :: b :: rest)) :
    TemporalValue.compatible a.last.value b.first.value = .ok () :=
  LawfulValue.compatible_trans (LawfulValue.compatible_symm (h a (by simp) a.last a.last_mem))
    (h b (by simp) b.first (by simp [instants]))

end Sequence

namespace SequenceSet

open Sequence

variable {V : Type} [TemporalValue V] [LawfulValue V]

/-- What is joined goes from the start of the first to the end of the second sequence. -/
lemma joins_of_joined {a b : Sequence V} (ha : a.WellFormed) (hb : b.WellFormed)
    (hinterp : b.interp = a.interp)
    (hcompat : TemporalValue.compatible a.last.value b.first.value = .ok ())
    {first : Instant V} {run : List (Instant V)} (h : joined a b = some (first, run)) :
    a.first = first ∧ a.hi + 1 = b.lo ∧ Joins a b run := by
  unfold joined at h
  split at h
  · rename_i htouch
    rw [Bool.and_eq_true, Timestamp.beq_iff, bne_iff_ne] at htouch
    obtain ⟨htime, hinc⟩ := htouch
    have hmeet : a.hi + 1 = b.lo := hi_add_one_eq_lo_iff.mpr ⟨htime, hinc⟩
    split at h
    · rename_i hstep
      rw [Bool.and_eq_true, Bool.not_eq_true'] at hstep
      obtain ⟨rfl, rfl⟩ : a.first = first ∧ a.rest.dropLast ++ b.instants = run := by
        simpa using h
      have hl : b.lowerInc = true := by
        rw [hstep.2] at hinc
        simpa using hinc.symm
      exact ⟨rfl, hmeet,
        joins_of_step ha hb hinterp hcompat htime (by simpa using hstep.1) hstep.2 hl⟩
    · split at h
      · rename_i hvalue
        obtain ⟨rfl, rfl⟩ : a.first = first ∧ a.rest ++ b.rest = run := by
          simpa using h
        exact ⟨rfl, hmeet, joins_of_equal ha hb hinterp hcompat htime hinc hvalue⟩
      · simp at h
  · simp at h

/-- A sequence that two touching ones are joined to. Its values are alike to theirs if these change
by steps or not at all. -/
structure Fuses (a b s : Sequence V) : Prop where
  wellFormed : s.WellFormed
  interp_eq : s.interp = a.interp
  lo_eq : s.lo = a.lo
  hi_eq : s.hi = b.hi
  meet : a.hi + 1 = b.lo
  instants_subset : ∀ i ∈ s.instants, i ∈ a.instants ∨ i ∈ b.instants
  slopeless : a.Slopeless → b.Slopeless → s.Slopeless
  held_left : a.Slopeless → b.Slopeless → ∀ n < b.lo, Alike (s.held n) (a.held n)
  held_right : a.Slopeless → b.Slopeless → ∀ n, b.lo ≤ n → Alike (s.held n) (b.held n)

/-- Sequences that touch without a jump can be joined. -/
lemma joined_fuses {a b : Sequence V} (ha : a.WellFormed) (hb : b.WellFormed)
    (hinterp : b.interp = a.interp) (hd : a.isDiscrete = false)
    (hcompat : TemporalValue.compatible a.last.value b.first.value = .ok ())
    {first : Instant V} {run : List (Instant V)} (hj : joined a b = some (first, run)) :
    ∃ s, makeRun first (kept a.interp first run) a.lowerInc b.upperInc a.interp false = .ok s ∧
      Fuses a b s := by
  have hca := wellFormed_iff.mp ha
  obtain ⟨rfl, hmeet, hjoins⟩ := joins_of_joined ha hb hinterp hcompat hj
  have hchecked : Checked a.first run a.lowerInc b.upperInc a.interp := by
    refine ⟨hca.linear, hjoins.rising, ?_, hjoins.repeated⟩
    rintro (hn | hdiscrete)
    · exact absurd hn hjoins.ne_nil
    · exact absurd hdiscrete (isDiscrete_eq_false_iff.mp hd)
  have hs := makeRun_eq_ok hchecked.kept
  have hbuilt := builtFrom_of_makeRun hs
  have hsubset : ∀ i ∈ a.first :: kept a.interp a.first run,
      i ∈ a.instants ∨ i ∈ b.instants := fun i hi =>
    hjoins.instants_subset i (((kept_sublist a.interp a.first run).cons_cons _).subset hi)
  -- the values of flat sequences that meet at one value are all alike
  have hlevel : a.Slopeless → b.Slopeless → a.interp = .linear →
      ∀ i, i ∈ a.instants ∨ i ∈ b.instants → Alike a.first.value i.value := by
    intro hsa hsb hl i hi
    rcases hi with hi | hi
    · exact hsa hl i hi
    · exact ((hsa hl a.last a.last_mem).trans (hjoins.level hl)).trans
        (hsb (hinterp.trans hl) i hi)
  have hheld : a.Slopeless → b.Slopeless → ∀ n, Alike
      (heldFrom n a.first (kept a.interp a.first run)) (heldFrom n a.first run) :=
    fun hsa hsb n => alike_heldFrom_kept n hjoins.rising fun hl i hi =>
      hlevel hsa hsb hl i (hjoins.instants_subset i (List.mem_cons_of_mem _ hi))
  refine ⟨_, hs, hbuilt.wellFormed, rfl, ?_, ?_, hmeet, hsubset, fun hsa hsb hl i hi => ?_,
    fun hsa hsb n hn => ?_, fun hsa hsb n hn => ?_⟩
  · rw [hbuilt.lo_eq, ← lo_eq]
  · rw [hbuilt.hi_eq, getLastD_kept, hjoins.last_place, ← hi_eq]
  · exact hlevel hsa hsb hl i (hsubset i hi)
  · rw [← hjoins.held_left n hn]
    exact hheld hsa hsb n
  · exact (hheld hsa hsb n).trans (hjoins.held_right n hn)

lemma Fuses.covers_iff {a b s : Sequence V} (h : Fuses a b s) (ha : a.WellFormed)
    (hb : b.WellFormed) (hinterp : b.interp = a.interp) (hd : a.isDiscrete = false) (n : Int) :
    s.Covers n ↔ a.Covers n ∨ b.Covers n := by
  have hda := isDiscrete_eq_false_iff.mp hd
  have := ha.lo_le_hi
  have := hb.lo_le_hi
  have := h.meet
  rw [covers_of_continuous (isDiscrete_eq_false_iff.mpr (h.interp_eq ▸ hda)),
    covers_of_continuous hd, covers_of_continuous (isDiscrete_eq_false_iff.mpr (hinterp ▸ hda)),
    h.lo_eq, h.hi_eq]
  omega

/-- What holds of a value and those alike to it holds at a place of a joined sequence if it does of
one of the two. -/
lemma Fuses.holds_iff {a b s : Sequence V} (h : Fuses a b s) (ha : a.WellFormed)
    (hb : b.WellFormed) (hinterp : b.interp = a.interp) (hd : a.isDiscrete = false)
    (hsa : a.Slopeless) (hsb : b.Slopeless) {holds : V → Prop}
    (hlike : ∀ {x y}, Alike x y → holds x → holds y) (n : Int) :
    s.Covers n ∧ holds (s.held n) ↔
      a.Covers n ∧ holds (a.held n) ∨ b.Covers n ∧ holds (b.held n) := by
  have hdb : b.isDiscrete = false :=
    isDiscrete_eq_false_iff.mpr (hinterp ▸ isDiscrete_eq_false_iff.mp hd)
  have hmeet := h.meet
  rw [h.covers_iff ha hb hinterp hd]
  by_cases hn : n < b.lo
  · have hout : ¬b.Covers n := by
      rw [covers_of_continuous hdb]
      omega
    have hheld := h.held_left hsa hsb n hn
    simp only [hout, or_false, false_and]
    exact and_congr_right fun _ => ⟨hlike hheld, hlike hheld.symm⟩
  · have hout : ¬a.Covers n := by
      rw [covers_of_continuous hd]
      omega
    have hheld := h.held_right hsa hsb n (not_lt.mp hn)
    simp only [hout, false_or, false_and]
    exact and_congr_right fun _ => ⟨hlike hheld, hlike hheld.symm⟩

/-- A sequence that two others are joined to takes their place. -/
lemma joined_spec {a b : Sequence V} {rest : List (Sequence V)} {interp : Interpolation} {c : V}
    (h : Train interp (a :: b :: rest)) (hc : Compatible c (a :: b :: rest))
    {first : Instant V} {run : List (Instant V)} (hj : joined a b = some (first, run)) :
    ∃ s, makeRun first (kept a.interp first run) a.lowerInc b.upperInc a.interp false = .ok s ∧
      Fuses a b s ∧ Train interp (s :: rest) ∧ Gathers (a :: b :: rest) (s :: rest) := by
  have ha := h.wellFormed a (by simp)
  have hb := h.wellFormed b (by simp)
  have hinterp : b.interp = a.interp := by
    rw [h.interp_eq a (by simp), h.interp_eq b (by simp)]
  obtain ⟨s, hs, hu⟩ := joined_fuses ha hb hinterp (h.isDiscrete (by simp)) hc.meet hj
  have hcov := hu.covers_iff ha hb hinterp (h.isDiscrete (by simp))
  refine ⟨s, hs, hu, ⟨?_, ?_, h.continuous, ?_⟩, ⟨fun n => ?_, fun hl n x => ?_, ?_⟩⟩
  · intro x hx
    rcases List.mem_cons.mp hx with rfl | hx
    · exact hu.wellFormed
    · exact h.wellFormed x (by simp [hx])
  · intro x hx
    rcases List.mem_cons.mp hx with rfl | hx
    · exact hu.interp_eq.trans (h.interp_eq a (by simp))
    · exact h.interp_eq x (by simp [hx])
  · refine List.pairwise_cons.mpr ⟨fun x hx => ?_, h.tail.tail.rising⟩
    have hbx : b.Before x := List.rel_of_pairwise_cons h.tail.rising hx
    have := hu.hi_eq
    unfold Before at hbx ⊢
    omega
  · simp only [List.mem_cons, exists_eq_or_imp, hcov n, or_assoc]
  · have hsa : a.Slopeless := fun hlin => absurd hlin ha.interp_ne_linear
    have hsb : b.Slopeless := fun hlin => absurd hlin hb.interp_ne_linear
    have htakes : s.Takes n x ↔ a.Takes n x ∨ b.Takes n x :=
      hu.holds_iff ha hb hinterp (h.isDiscrete (by simp)) hsa hsb
        (fun hlike hx => hlike.eq.symm.trans hx) n
    simp only [List.mem_cons, exists_eq_or_imp, htakes, or_assoc]
  · intro x hx i hi
    rcases List.mem_cons.mp hx with rfl | hx
    · rcases hu.instants_subset i hi with hi | hi
      · exact ⟨a, by simp, hi⟩
      · exact ⟨b, by simp, hi⟩
    · exact ⟨x, by simp [hx], hi⟩

/-- A train of sequences whose values go together is joined, if that ends; what comes out takes its
place. -/
theorem join_spec {a : Sequence V} {rest : List (Sequence V)} {interp : Interpolation} {c : V}
    (h : Train interp (a :: rest)) (hc : Compatible c (a :: rest))
    (hdone : Completes (join a rest)) :
    ∃ first more, join a rest = .ok (first, more) ∧ Train interp (first :: more) ∧
      first.lo = a.lo ∧ Gathers (a :: rest) (first :: more) := by
  induction rest generalizing a with
  | nil => exact ⟨a, [], rfl, h, rfl, Gathers.refl _⟩
  | cons b rest ih =>
    cases hj : joined a b with
    | some joined =>
      obtain ⟨first, run⟩ := joined
      obtain ⟨s, hs, hu, htrain, hg⟩ := joined_spec h hc hj
      rw [join, hj] at hdone
      have hkept := normalize_eq_ok_iff.mpr hdone.left
      obtain ⟨first', more, hok, htrain', hlo', hg'⟩ :=
        ih htrain (hc.gathers hg) ((hdone.right hkept).right hs)
      exact ⟨first', more, (join_eq_ok_of_joined hj).mpr ⟨hdone.left, s, hs, hok⟩, htrain',
        hlo'.trans hu.lo_eq, hg.trans hg'⟩
    | none =>
      rw [join, hj] at hdone
      obtain ⟨next, more, hok, htrain, hlo, hg⟩ :=
        ih h.tail (fun s hs i hi => hc s (by simp [hs]) i hi) hdone.left
      refine ⟨a, next :: more, (join_eq_ok_of_not_joined hj).mpr ⟨next, more, hok, rfl⟩,
        ⟨?_, ?_, h.continuous, ?_⟩, rfl, hg.cons a⟩
      · intro x hx
        rcases List.mem_cons.mp hx with rfl | hx
        · exact h.wellFormed x (by simp)
        · exact htrain.wellFormed x hx
      · intro x hx
        rcases List.mem_cons.mp hx with rfl | hx
        · exact h.interp_eq x (by simp)
        · exact htrain.interp_eq x hx
      · refine List.pairwise_cons.mpr ⟨fun x hx => ?_, htrain.rising⟩
        have hab : a.Before b := List.rel_of_pairwise_cons h.rising (by simp)
        unfold Before at hab ⊢
        rcases List.mem_cons.mp hx with rfl | hx
        · omega
        · have hnx : next.Before x := List.rel_of_pairwise_cons htrain.rising hx
          have := (htrain.wellFormed next (by simp)).lo_le_hi
          unfold Before at hnx
          omega

/-- Confined sequences are joined without giving up. -/
theorem completes_join {a : Sequence V} {rest : List (Sequence V)} {interp : Interpolation} {c : V}
    (h : Train interp (a :: rest)) (hc : Compatible c (a :: rest))
    (hconfined : Confined (a :: rest)) :
    Completes (join a rest) := by
  induction rest generalizing a with
  | nil => exact Completes.ok _
  | cons b rest ih =>
    cases hj : joined a b with
    | none =>
      rw [join, hj]
      exact (ih h.tail (fun s hs i hi => hc s (by simp [hs]) i hi)
        (hconfined.subset fun s hs => by simp [hs])).bind fun _ _ => Completes.ok _
    | some joined =>
      obtain ⟨first, run⟩ := joined
      obtain ⟨s, hs, hu, htrain, hg⟩ := joined_spec h hc hj
      have ha := h.wellFormed a (by simp)
      have hb := h.wellFormed b (by simp)
      have hinterp : b.interp = a.interp :=
        (h.interp_eq b (by simp)).trans (h.interp_eq a (by simp)).symm
      obtain ⟨rfl, -, hjoins⟩ := joins_of_joined ha hb hinterp hc.meet hj
      have hkept := normalize_eq_ok_iff.mpr (completes_normalize hjoins.rising
        (hconfined.shortRun (by simp) (by simp) hjoins.last_place))
      rw [join, hj]
      dsimp only
      rw [bind_of_ok hkept, bind_of_ok hs]
      refine ih htrain (hc.gathers hg) (hconfined.of_within (fun x hx => ?_) fun x hx => ?_)
      · exact ⟨a, by simp, (htrain.interp_eq x hx).trans (h.interp_eq a (by simp)).symm⟩
      · rcases List.mem_cons.mp hx with rfl | hx
        · exact ⟨⟨a, by simp, hu.lo_eq.ge⟩, b, by simp, hu.hi_eq.le⟩
        · exact ⟨⟨x, by simp [hx], le_rfl⟩, x, by simp [hx], le_rfl⟩

end SequenceSet

end TemporalAlgebra
