import TemporalAlgebra.Proofs.Temporal.Assembly
import TemporalAlgebra.Temporal.Restrict

/-!
# Cutting sequences

A sequence cut to periods is defined where it was and the periods are, and keeps its values there.
A cut between two instants takes the value held there along; before an exclusive end that is the
value that the sequence approaches. Pieces cut out of different sequences, or by periods that are
apart, share no place and can be assembled again.
-/
namespace TemporalAlgebra

namespace Sequence

variable {V : Type} [TemporalValue V]

/-- Pieces that take the place of some sequences inside given places only. All values go together
with `c`. -/
structure Cuts (c : V) (whole : List (Sequence V)) (inside : Int → Prop)
    (pieces : List (Sequence V)) : Prop where
  wellFormed : ∀ x ∈ pieces, x.WellFormed
  interp_eq : ∀ x ∈ pieces, ∃ s ∈ whole, x.interp = s.interp
  compatible : Compatible c pieces
  apart : pieces.Pairwise Apart
  covers_iff : ∀ n, (∃ x ∈ pieces, x.Covers n) ↔ (∃ s ∈ whole, s.Covers n) ∧ inside n
  takes_iff : StepValue V →
    ∀ n v, (∃ x ∈ pieces, x.Takes n v) ↔ (∃ s ∈ whole, s.Takes n v) ∧ inside n

/-- A continuous sequence has no NaN where it has to repeat a value. -/
def Proper (s : Sequence V) : Prop :=
  s.interp = .step → ∀ i ∈ s.instants, (i.value == i.value) = true

lemma Takes.covers {s : Sequence V} {n : Int} {x : V} (h : s.Takes n x) : s.Covers n := h.1

namespace Cuts

variable {c : V} {whole pieces : List (Sequence V)} {inside : Int → Prop}

lemma nil_whole : Cuts c ([] : List (Sequence V)) inside [] := by
  refine ⟨by simp, by simp, ?_, by simp, by simp, by simp⟩
  intro s hs
  simp at hs

lemma of_not_covers (h : ∀ n, (∃ s ∈ whole, s.Covers n) → ¬inside n) :
    Cuts c whole inside [] := by
  refine ⟨by simp, by simp, ?_, by simp, fun n => ?_, fun _ n v => ?_⟩
  · intro s hs
    simp at hs
  · simpa using fun s hs hn => h n ⟨s, hs, hn⟩
  · simpa using fun s hs hn => h n ⟨s, hs, hn.covers⟩

lemma congr {outside : Int → Prop} (h : Cuts c whole inside pieces)
    (heq : ∀ n, (∃ s ∈ whole, s.Covers n) → (inside n ↔ outside n)) :
    Cuts c whole outside pieces := by
  refine ⟨h.wellFormed, h.interp_eq, h.compatible, h.apart, fun n => ?_, fun hl n v => ?_⟩
  · rw [h.covers_iff]
    exact and_congr_right (heq n)
  · rw [h.takes_iff hl]
    refine and_congr_right fun ⟨s, hs, hn⟩ => heq n ⟨s, hs, hn.covers⟩

lemma apart_append {a b : List (Sequence V)} (ha : a.Pairwise Apart) (hb : b.Pairwise Apart)
    (h : ∀ n, (∃ x ∈ a, x.Covers n) → ¬∃ x ∈ b, x.Covers n) : (a ++ b).Pairwise Apart :=
  List.pairwise_append.mpr ⟨ha, hb, fun x hx y hy n hn => h n ⟨x, hx, hn.1⟩ ⟨y, hy, hn.2⟩⟩

lemma append {other : Int → Prop} {more : List (Sequence V)} (ha : Cuts c whole inside pieces)
    (hb : Cuts c whole other more) (h : ∀ n, inside n → ¬other n) :
    Cuts c whole (fun n => inside n ∨ other n) (pieces ++ more) := by
  refine ⟨fun x hx => ?_, fun x hx => ?_, fun x hx => ?_, ?_, fun n => ?_, fun hl n v => ?_⟩
  · exact (List.mem_append.mp hx).elim (ha.wellFormed x) (hb.wellFormed x)
  · exact (List.mem_append.mp hx).elim (ha.interp_eq x) (hb.interp_eq x)
  · exact (List.mem_append.mp hx).elim (ha.compatible x) (hb.compatible x)
  · refine apart_append ha.apart hb.apart fun n hn hn' => ?_
    exact h n ((ha.covers_iff n).mp hn).2 ((hb.covers_iff n).mp hn').2
  · simp only [List.mem_append, or_and_right, exists_or, ha.covers_iff n, hb.covers_iff n]
    exact and_or_left.symm
  · simp only [List.mem_append, or_and_right, exists_or, ha.takes_iff hl n v,
      hb.takes_iff hl n v]
    exact and_or_left.symm

lemma append_whole {others more : List (Sequence V)} (ha : Cuts c whole inside pieces)
    (hb : Cuts c others inside more)
    (h : ∀ n, (∃ s ∈ whole, s.Covers n) → ¬∃ s ∈ others, s.Covers n) :
    Cuts c (whole ++ others) inside (pieces ++ more) := by
  refine ⟨fun x hx => ?_, fun x hx => ?_, fun x hx => ?_, ?_, fun n => ?_, fun hl n v => ?_⟩
  · exact (List.mem_append.mp hx).elim (ha.wellFormed x) (hb.wellFormed x)
  · rcases List.mem_append.mp hx with hx | hx
    · obtain ⟨s, hs, hi⟩ := ha.interp_eq x hx
      exact ⟨s, List.mem_append_left _ hs, hi⟩
    · obtain ⟨s, hs, hi⟩ := hb.interp_eq x hx
      exact ⟨s, List.mem_append_right _ hs, hi⟩
  · exact (List.mem_append.mp hx).elim (ha.compatible x) (hb.compatible x)
  · refine apart_append ha.apart hb.apart fun n hn hn' => ?_
    exact h n ((ha.covers_iff n).mp hn).1 ((hb.covers_iff n).mp hn').1
  · simp only [List.mem_append, or_and_right, exists_or, ha.covers_iff n, hb.covers_iff n]
  · simp only [List.mem_append, or_and_right, exists_or, ha.takes_iff hl n v,
      hb.takes_iff hl n v]

lemma single {x s : Sequence V} (hwf : x.WellFormed) (hi : x.interp = s.interp)
    (hc : ∀ i ∈ x.instants, TemporalValue.compatible c i.value = .ok ())
    (hcov : ∀ n, x.Covers n ↔ s.Covers n ∧ inside n)
    (hheld : StepValue V → ∀ n, x.Covers n → x.held n = s.held n) : Cuts c [s] inside [x] := by
  refine ⟨?_, ?_, ?_, by simp, fun n => ?_, fun hl n v => ?_⟩
  · simpa using hwf
  · simpa using hi
  · intro y hy
    obtain rfl := List.mem_singleton.mp hy
    exact hc
  · simpa using hcov n
  · simp only [List.mem_singleton, exists_eq_left]
    unfold Takes
    constructor
    · rintro ⟨hn, rfl⟩
      exact ⟨⟨((hcov n).mp hn).1, (hheld hl n hn).symm⟩, ((hcov n).mp hn).2⟩
    · rintro ⟨⟨hn, rfl⟩, hin⟩
      have hx := (hcov n).mpr ⟨hn, hin⟩
      exact ⟨hx, hheld hl n hx⟩

/-- Pieces cut out of confined sequences are confined. -/
lemma confined [LawfulValue V] (h : Cuts c whole inside pieces) (hwf : ∀ s ∈ whole, s.WellFormed)
    (hconfined : Confined whole) : Confined pieces := by
  refine hconfined.of_within h.interp_eq fun x hx => ⟨?_, ?_⟩
  · obtain ⟨⟨s, hs, hn⟩, -⟩ := (h.covers_iff x.lo).mp ⟨x, hx, (h.wellFormed x hx).covers_lo⟩
    exact ⟨s, hs, ((hwf s hs).mem_period hn).1⟩
  · obtain ⟨⟨s, hs, hn⟩, -⟩ := (h.covers_iff x.hi).mp ⟨x, hx, (h.wellFormed x hx).covers_hi⟩
    exact ⟨s, hs, ((hwf s hs).mem_period hn).2⟩

end Cuts

section

variable [LawfulValue V]

lemma pairwise_precedes {c : V} {instants : List (Instant V)}
    (hrise : instants.Pairwise fun a b => a.time.place < b.time.place)
    (hc : ∀ i ∈ instants, TemporalValue.compatible c i.value = .ok ()) :
    instants.Pairwise Instant.Precedes :=
  hrise.imp_of_mem fun ha hb hab => ⟨hab, LawfulValue.compatible_trans
    (LawfulValue.compatible_symm (hc _ ha)) (hc _ hb)⟩

lemma compatible_between {c : V} {a b : Instant V} (interp : Interpolation) (t : Timestamp)
    (ha : TemporalValue.compatible c a.value = .ok ())
    (hb : TemporalValue.compatible c b.value = .ok ()) :
    Returns (fun x => TemporalValue.compatible c x = .ok ()) (between interp a b t) := by
  cases interp with
  | linear =>
    refine Returns.after fun r => Returns.ok ?_
    refine LawfulValue.compatible_trans ha (LawfulValue.compatible_interpolate _ ?_)
    exact LawfulValue.compatible_trans (LawfulValue.compatible_symm ha) hb
  | discrete => exact Returns.ok ha
  | step => exact Returns.ok ha

lemma compatible_valueFrom {c : V} (interp : Interpolation) (t : Timestamp) {a : Instant V}
    {rest : List (Instant V)}
    (h : ∀ i ∈ a :: rest, TemporalValue.compatible c i.value = .ok ()) :
    Returns (fun x => TemporalValue.compatible c x = .ok ()) (valueFrom interp t a rest) := by
  fun_induction valueFrom interp t a rest with
  | case1 a => exact Returns.ok (h a (by simp))
  | case2 a b rest hb ih => exact ih fun i hi => h i (List.mem_cons_of_mem _ hi)
  | case3 a b rest => exact Returns.ok (h a (by simp))
  | case4 a b rest => exact compatible_between interp t (h a (by simp)) (h b (by simp))

lemma compatible_limitFrom {c : V} (interp : Interpolation) (t : Timestamp) {a : Instant V}
    {rest : List (Instant V)}
    (h : ∀ i ∈ a :: rest, TemporalValue.compatible c i.value = .ok ()) :
    Returns (fun x => TemporalValue.compatible c x = .ok ()) (limitFrom interp t a rest) := by
  fun_induction limitFrom interp t a rest with
  | case1 a => exact Returns.ok (h a (by simp))
  | case2 a b rest hb ih => exact ih fun i hi => h i (List.mem_cons_of_mem _ hi)
  | case3 a b rest => exact Returns.ok (h a (by simp))
  | case4 a b rest => exact Returns.ok (h b (by simp))
  | case5 a b rest => exact compatible_between interp t (h a (by simp)) (h b (by simp))

end

lemma compatible_endValue [LawfulValue V] {c : V} {s : Sequence V}
    (h : ∀ i ∈ s.instants, TemporalValue.compatible c i.value = .ok ()) (hi : Timestamp)
    (upperInc : Bool) :
    Returns (fun x => TemporalValue.compatible c x = .ok ()) (s.endValue hi upperInc) := by
  unfold endValue
  split
  · exact compatible_limitFrom s.interp hi h
  · exact compatible_valueFrom s.interp hi h

lemma unrefused_endValue (s : Sequence V) (hi : Timestamp) (upperInc : Bool) :
    Unrefused (s.endValue hi upperInc) := by
  unfold endValue
  split
  · exact unrefused_leftLimit s hi
  · exact unrefused_valueNear s hi

lemma completes_endValue {s : Sequence V} (hrising : s.instants.Pairwise Instant.Precedes)
    (hshort : ShortRun s.interp s.first s.rest) (hi : Timestamp) (upperInc : Bool) :
    Completes (s.endValue hi upperInc) := by
  unfold endValue
  split
  · exact completes_leftLimit hrising hshort hi
  · exact completes_valueNear hrising hshort hi

/-- The instants of a sequence strictly between two timestamps. -/
def within (s : Sequence V) (lo hi : Timestamp) : List (Instant V) :=
  s.instants.filter fun i => decide (lo < i.time ∧ i.time < hi)

lemma mem_within {s : Sequence V} {lo hi : Timestamp} {i : Instant V} :
    i ∈ s.within lo hi ↔
      i ∈ s.instants ∧ lo.place < i.time.place ∧ i.time.place < hi.place := by
  unfold within
  rw [List.mem_filter, decide_eq_true_eq, Timestamp.lt_iff, Timestamp.lt_iff]

/-- The instants after a cut hold the values that the sequence holds. -/
lemma heldFrom_within {s : Sequence V} (h : s.instants.Pairwise Instant.Precedes)
    {lo hi : Timestamp} {n : Int} {first : Instant V} (hfirst : s.first.time.place ≤ lo.place)
    (hlo : lo.place ≤ n) (hhi : n < hi.place) (htime : first.time = lo)
    (hvalue : first.value = s.held lo.place)
    (hrise : (first :: s.within lo hi).Pairwise Instant.Precedes) :
    heldFrom n first (s.within lo hi) = s.held n := by
  obtain ⟨i, hi', hv⟩ := exists_latest h (hfirst.trans hlo)
  have hheld : s.held n = i.value := hv
  rw [hheld]
  by_cases hle : i.time.place ≤ lo.place
  · have hlatest : Latest lo.place s.instants i :=
      ⟨hi'.mem, hle, fun j hj hjlo => hi'.le_place j hj (hjlo.trans hlo)⟩
    have hi_lo : s.held lo.place = i.value := heldFrom_of_latest h hlatest
    rw [heldFrom_of_lt fun j hj => ?_]
    · rw [hvalue, hi_lo]
    · obtain ⟨hj, hjlo, -⟩ := mem_within.mp hj
      by_contra hjn
      have := hi'.le_place j hj (by omega)
      omega
  · refine heldFrom_of_latest hrise ⟨?_, hi'.place_le, fun j hj hjn => ?_⟩
    · have := hi'.place_le
      exact List.mem_cons_of_mem _ (mem_within.mpr ⟨hi'.mem, by omega, by omega⟩)
    · rcases List.mem_cons.mp hj with rfl | hj
      · rw [htime]
        omega
      · exact hi'.le_place j (mem_within.mp hj).1 hjn

omit [TemporalValue V] in
lemma heldFrom_of_le {n : Int} {a : Instant V} {rest : List (Instant V)}
    (h : ∀ i ∈ rest, i.time.place ≤ n) : heldFrom n a rest = (rest.getLastD a).value := by
  induction rest generalizing a with
  | nil => rfl
  | cons b rest ih =>
    rw [heldFrom, if_pos (h b (by simp)), List.getLastD_cons]
    exact ih fun i hi => h i (List.mem_cons_of_mem _ hi)

section

variable [LawfulValue V]

/-- The run that a cut leaves passes the check of runs. -/
lemma checked_cut {c : V} {s : Sequence V} (h : s.WellFormed) (hd : s.isDiscrete = false)
    (hp : s.Proper) (hc : ∀ i ∈ s.instants, TemporalValue.compatible c i.value = .ok ())
    {lo hi : Timestamp} (hfirst : s.first.time.place ≤ lo.place) (hlt : lo.place < hi.place)
    (lowerInc upperInc : Bool) {start stop : V} (hstart : s.valueNear lo = .ok start)
    (hstop : s.endValue hi upperInc = .ok stop) :
    Checked ⟨start, lo⟩ (s.within lo hi ++ [⟨stop, hi⟩]) lowerInc upperInc s.interp := by
  have hrise : (⟨start, lo⟩ :: (s.within lo hi ++ [⟨stop, hi⟩])).Pairwise
      Instant.Precedes := by
    refine pairwise_precedes (c := c) ?_ fun i hi' => ?_
    · rw [← List.cons_append, List.pairwise_append, List.pairwise_cons]
      refine ⟨⟨fun i hi' => (mem_within.mp hi').2.1,
        (h.rising.imp fun hab => hab.1).sublist List.filter_sublist⟩, by simp, fun i hi' j hj => ?_⟩
      obtain rfl := List.mem_singleton.mp hj
      rcases List.mem_cons.mp hi' with rfl | hi'
      · exact hlt
      · exact (mem_within.mp hi').2.2
    · rcases List.mem_cons.mp hi' with rfl | hi'
      · exact compatible_valueFrom s.interp lo hc _ hstart
      · rcases List.mem_append.mp hi' with hi' | hi'
        · exact hc i (mem_within.mp hi').1
        · obtain rfl := List.mem_singleton.mp hi'
          exact compatible_endValue hc hi upperInc _ hstop
  refine ⟨(wellFormed_iff.mp h).linear, hrise, ?_, fun hs hu => ?_⟩
  · rintro (hn | hd')
    · simp at hn
    · exact absurd (isDiscrete_iff.mpr hd') (by rw [hd]; simp)
  · have hl : s.interp ≠ .linear := by rw [hs]; simp
    have hstart : start = s.held lo.place :=
      (Except.ok.inj ((valueNear_eq hl lo).symm.trans hstart)).symm
    have hlast : ((s.within lo hi).getLastD ⟨start, lo⟩).value = s.held (hi.place - 1) := by
      have hlow : ∀ i ∈ s.within lo hi, i.time.place ≤ hi.place - 1 := fun i hi' => by
        have := (mem_within.mp hi').2.2
        omega
      have hheld : heldFrom (hi.place - 1) ⟨start, lo⟩ (s.within lo hi) =
          s.held (hi.place - 1) :=
        heldFrom_within h.rising hfirst (by omega) (by omega) rfl hstart
          (hrise.sublist ((List.sublist_append_left _ _).cons_cons _))
      rw [← hheld, heldFrom_of_le hlow]
    have hstop : stop = s.held (hi.place - 1) := by
      have hlimit : s.endValue hi upperInc = s.leftLimit hi := by
        unfold endValue
        rw [hs, hu]
        rfl
      rw [hlimit, leftLimit_eq hl] at hstop
      exact (Except.ok.inj hstop).symm
    rw [endsRepeated_concat, hlast]
    change (stop == s.held (hi.place - 1)) = true
    rw [hstop]
    obtain ⟨i, hi', hv⟩ := heldFrom_mem (hi.place - 1) s.first s.rest
    change s.held (hi.place - 1) = i.value at hv
    rw [hv]
    exact hp hs i hi'

lemma cuts_instant {c : V} {s : Sequence V} {inside : Int → Prop} (h : s.WellFormed)
    (hc : ∀ i ∈ s.instants, TemporalValue.compatible c i.value = .ok ()) {t : Timestamp}
    (hin : ∀ n, n = t.place ↔ s.Covers n ∧ inside n) {x : V} (hx : s.valueNear t = .ok x) :
    Cuts c [s] inside [ofInstant ⟨x, t⟩ s.interp] := by
  refine Cuts.single (wellFormed_ofInstant _ (wellFormed_iff.mp h).linear) rfl ?_ (fun n => ?_)
    fun hl n hn => ?_
  · intro i hi
    obtain rfl := List.mem_singleton.mp hi
    exact compatible_valueFrom s.interp t hc x hx
  · rw [covers_ofInstant]
    exact hin n
  · rw [covers_ofInstant] at hn
    rw [valueNear_eq h.interp_ne_linear] at hx
    rw [hn]
    exact (Except.ok.inj hx).symm

/-- A run over the common part of a sequence and a period is what a cut to the period leaves. -/
lemma cuts_of_makeRun {c : V} {s x : Sequence V} {inside : Int → Prop} (h : s.WellFormed)
    (hd : s.isDiscrete = false)
    (hc : ∀ i ∈ s.instants, TemporalValue.compatible c i.value = .ok ()) {common : Period}
    (hfirst : s.first.time.place ≤ common.lower.place)
    (hin : ∀ n, common.Covers n ↔ s.Covers n ∧ inside n) {start stop : V}
    (hstart : s.valueNear common.lower = .ok start)
    (hstop : s.endValue common.upper common.upperInc = .ok stop)
    (hok : makeRun ⟨start, common.lower⟩
      (s.within common.lower common.upper ++ [⟨stop, common.upper⟩])
      common.lowerInc common.upperInc s.interp true = .ok x) : Cuts c [s] inside [x] := by
  obtain ⟨hchecked, -, -⟩ := makeRun_eq_ok_iff.mp hok
  have hbuilt := builtFrom_of_makeRun hok
  have hxd : x.isDiscrete = false := by
    rw [isDiscrete_eq_false_iff, hbuilt.interp_eq]
    exact isDiscrete_eq_false_iff.mp hd
  have hxcov : ∀ n, x.Covers n ↔ common.Covers n := by
    intro n
    rw [covers_of_continuous hxd, hbuilt.lo_eq, hbuilt.hi_eq, List.getLastD_concat]
    unfold Span.Covers
    rw [Period.lo_eq, Period.hi_eq]
  refine Cuts.single hbuilt.wellFormed hbuilt.interp_eq (fun i hi => ?_)
    (fun n => (hxcov n).trans (hin n)) fun hl n hn => ?_
  · have hvalue := compatible_valueFrom s.interp common.lower hc _ hstart
    rcases List.mem_cons.mp (hbuilt.instants_subset i hi) with rfl | hi
    · exact hvalue
    · exact LawfulValue.compatible_trans hvalue
        (List.rel_of_pairwise_cons hchecked.rising hi).2
  · have hcn := (hxcov n).mp hn
    unfold Span.Covers at hcn
    rw [Period.lo_eq, Period.hi_eq] at hcn
    have hlo : common.lower.place ≤ n := by
      split at hcn <;> omega
    have hne := h.interp_ne_linear
    rw [valueNear_eq hne] at hstart
    rw [held_of_makeRun hne hok, heldFrom_append hchecked.rising]
    dsimp only
    by_cases hn : common.upper.place ≤ n
    · have hu : common.upperInc = true := by
        by_contra hu
        rw [if_neg hu] at hcn
        omega
      rw [if_pos hn]
      rw [hu] at hcn
      have hneq : n = common.upper.place := le_antisymm (by simpa using hcn.2) hn
      have hconfined : s.endValue common.upper true = s.valueNear common.upper := by
        unfold endValue
        rw [Bool.not_true, Bool.and_false, if_neg Bool.false_ne_true]
      rw [hu, hconfined, valueNear_eq hne] at hstop
      rw [hneq]
      exact (Except.ok.inj hstop).symm
    · rw [if_neg hn]
      exact heldFrom_within h.rising hfirst hlo (by omega) rfl (Except.ok.inj hstart).symm
        (hchecked.rising.sublist ((List.sublist_append_left _ _).cons_cons _))

omit [LawfulValue V] in
/-- A cut to a period leaves nothing, the value at one timestamp, or a run over the common part. -/
lemma atPeriod_cases {s : Sequence V} (hd : s.isDiscrete = false) (p : Period) :
    (s.atPeriod p = .ok none ∧ ∀ n, s.Covers n → ¬p.Covers n) ∨
      (∃ t, s.atPeriod p = (do return some (ofInstant ⟨← s.valueNear t, t⟩ s.interp)) ∧
        ∀ n, n = t.place ↔ s.Covers n ∧ p.Covers n) ∨
      ∃ common : Period, s.first.time.place ≤ common.lower.place ∧
        common.lower.place < common.upper.place ∧
        common.upper.place ≤ s.last.time.place ∧
        (∀ n, common.Covers n ↔ s.Covers n ∧ p.Covers n) ∧
        s.atPeriod p = (do
          let start ← s.valueNear common.lower
          let stop ← s.endValue common.upper common.upperInc
          return some (← makeRun ⟨start, common.lower⟩
            (s.within common.lower common.upper ++ [⟨stop, common.upper⟩])
            common.lowerInc common.upperInc s.interp true)) := by
  have hcov := covers_of_continuous hd
  unfold atPeriod
  cases hcommon : s.period.intersection p with
  | none =>
    refine Or.inl ⟨rfl, fun n hn hpn => ?_⟩
    have hlt := Span.intersection_eq_none_iff.mp hcommon
    change min s.hi p.hi < max s.lo p.lo at hlt
    rw [hcov] at hn
    unfold Span.Covers at hpn
    omega
  | some common =>
    obtain ⟨hlo, hhi, hle⟩ := Span.intersection_eq_some_iff.mp hcommon
    change common.lo = max s.lo p.lo at hlo
    change common.hi = min s.hi p.hi at hhi
    have hin : ∀ n, common.Covers n ↔ s.Covers n ∧ p.Covers n := by
      intro n
      rw [hcov]
      unfold Span.Covers
      omega
    have hfirst : s.first.time.place ≤ common.lower.place := by
      have hslo := lo_eq s
      have hclo := Period.lo_eq common
      have := s.first.time.place_emod
      have := common.lower.place_emod
      split at hslo <;> split at hclo <;> omega
    have hlast : common.upper.place ≤ s.last.time.place := by
      have hshi := hi_eq s
      have hchi := Period.hi_eq common
      have := s.last.time.place_emod
      have := common.upper.place_emod
      split at hshi <;> split at hchi <;> omega
    dsimp only
    by_cases hinstant : common.isInstant = true
    · obtain ⟨hclo, hchi⟩ := Period.ends_of_isInstant hle hinstant
      refine Or.inr (Or.inl ⟨common.lower, ?_, fun n => ?_⟩)
      · simp only [hinstant, if_true]
      rw [← hin]
      unfold Span.Covers
      omega
    · refine Or.inr (Or.inr ⟨common, hfirst, Period.lower_lt_upper hle hinstant, hlast, hin, ?_⟩)
      simp only [hinstant, Bool.false_eq_true, if_false]
      rfl

lemma returns_cuts_atPeriod {c : V} {s : Sequence V} (h : s.WellFormed) (hd : s.isDiscrete = false)
    (hc : ∀ i ∈ s.instants, TemporalValue.compatible c i.value = .ok ()) (p : Period) :
    Returns (fun found => Cuts c [s] p.Covers found.toList) (s.atPeriod p) := by
  intro found hfound
  rcases atPeriod_cases hd p with ⟨heq, hnone⟩ | ⟨t, heq, hin⟩ | ⟨common, hfirst, -, -, hin, heq⟩
  · rw [heq] at hfound
    obtain rfl := Except.ok.inj hfound
    refine Cuts.of_not_covers ?_
    rintro n ⟨x, hx, hn⟩
    obtain rfl := List.mem_singleton.mp hx
    exact hnone n hn
  · simp only [heq, bind_eq_ok, pure_eq_ok] at hfound
    obtain ⟨x, hx, rfl⟩ := hfound
    exact cuts_instant h hc hin hx
  · simp only [heq, bind_eq_ok, pure_eq_ok] at hfound
    obtain ⟨start, hstart, stop, hstop, x, hok, rfl⟩ := hfound
    exact cuts_of_makeRun h hd hc hfirst hin hstart hstop hok

section

variable {c : V} {s : Sequence V} (h : s.WellFormed) (hd : s.isDiscrete = false)
  (hp : s.Proper) (hc : ∀ i ∈ s.instants, TemporalValue.compatible c i.value = .ok ())
include h hd hp hc

/-- A cut to a period is never refused. -/
lemma exists_atPeriod {p : Period} (hdone : Completes (s.atPeriod p)) :
    ∃ found, s.atPeriod p = .ok found := by
  rcases atPeriod_cases hd p with ⟨heq, -⟩ | ⟨t, heq, -⟩ | ⟨common, hfirst, hlt, -, -, heq⟩
  · exact ⟨_, heq⟩
  · rw [heq] at hdone ⊢
    obtain ⟨x, hx⟩ := (unrefused_valueNear s t).exists_ok hdone.left
    exact ⟨_, bind_of_ok hx⟩
  · rw [heq] at hdone ⊢
    obtain ⟨start, hstart⟩ := (unrefused_valueNear s _).exists_ok hdone.left
    have hdone := hdone.right hstart
    obtain ⟨stop, hstop⟩ := (unrefused_endValue s _ _).exists_ok hdone.left
    obtain ⟨x, hx⟩ := exists_makeRun (checked_cut h hd hp hc hfirst hlt common.lowerInc
      common.upperInc hstart hstop) (hdone.right hstop).left
    simp only [bind_of_ok hstart, bind_of_ok hstop, bind_of_ok hx]
    exact ⟨_, rfl⟩

/-- A short sequence is cut to every period without giving up. -/
lemma completes_atPeriod (hshort : ShortRun s.interp s.first s.rest) (p : Period) :
    Completes (s.atPeriod p) := by
  rcases atPeriod_cases hd p with ⟨heq, -⟩ | ⟨t, heq, -⟩ | ⟨common, hfirst, hlt, hlast, -, heq⟩
  · exact .of_eq_ok heq
  · rw [heq]
    exact (completes_valueNear h.rising hshort t).bind fun _ _ => Completes.ok _
  · rw [heq]
    refine (completes_valueNear h.rising hshort _).bind fun start hstart =>
      (completes_endValue h.rising hshort _ _).bind fun stop hstop => ?_
    have hchecked := checked_cut h hd hp hc hfirst hlt common.lowerInc common.upperInc hstart hstop
    refine (completes_makeRun hchecked fun _ => ?_).bind fun _ _ => Completes.ok _
    refine completes_normalize hchecked.rising fun hlin => ?_
    have hspan := hshort hlin
    rw [List.getLastD_concat]
    change common.upper.micros - common.lower.micros < 2 ^ 63
    change s.last.time.micros - s.first.time.micros < 2 ^ 63 at hspan
    unfold Timestamp.place at hfirst hlast
    omega

end

/-- Cuts to periods that are apart leave pieces that are apart. -/
lemma mapM_atPeriod_spec {c : V} {s : Sequence V} (h : s.WellFormed) (hd : s.isDiscrete = false)
    (hc : ∀ i ∈ s.instants, TemporalValue.compatible c i.value = .ok ())
    {periods : List Period} (hn : Span.NormalForm periods)
    (hcut : ∀ p ∈ periods, ∃ found, s.atPeriod p = .ok found) :
    ∃ found, periods.mapM s.atPeriod = .ok found ∧
      Cuts c [s] (Span.AnyCovers periods) (found.filterMap id) := by
  induction periods with
  | nil => exact ⟨[], rfl, Cuts.of_not_covers fun n _ => Span.anyCovers_nil n⟩
  | cons p rest ih =>
    obtain ⟨piece, hpiece⟩ := hcut p (by simp)
    have hcuts := returns_cuts_atPeriod h hd hc p piece hpiece
    obtain ⟨found, hfound, hrest⟩ := ih hn.tail fun q hq => hcut q (by simp [hq])
    refine ⟨piece :: found, ?_, ?_⟩
    · rw [List.mapM_cons]
      simp only [bind_eq_ok, pure_eq_ok]
      exact ⟨piece, hpiece, found, hfound, rfl⟩
    · have hsplit : (piece :: found).filterMap id = piece.toList ++ found.filterMap id := by
        cases piece <;> rfl
      rw [hsplit]
      refine (hcuts.append hrest fun n hpn hrn => ?_).congr fun n _ => Span.anyCovers_cons.symm
      have := hn.lt_of_covers hrn
      have := hpn.2
      omega

/-- A run of those instants of a discrete sequence that lie within given places is what a cut to
these places leaves. -/
lemma cuts_of_discrete {c : V} {s x : Sequence V} {inside : Int → Prop} (h : s.WellFormed)
    (hd : s.isDiscrete = true)
    (hc : ∀ i ∈ s.instants, TemporalValue.compatible c i.value = .ok ())
    (hwf : x.WellFormed) (hxd : x.isDiscrete = true)
    (hmem : ∀ i, i ∈ x.instants ↔ i ∈ s.instants ∧ inside i.time.place) :
    Cuts c [s] inside [x] := by
  refine Cuts.single hwf ?_ (fun i hi => hc i ((hmem i).mp hi).1) (fun n => ?_) fun _ n hn => ?_
  · rw [isDiscrete_iff.mp hxd, isDiscrete_iff.mp hd]
  · rw [covers_of_discrete hxd, covers_of_discrete hd]
    constructor
    · rintro ⟨i, hi, rfl⟩
      exact ⟨⟨i, ((hmem i).mp hi).1, rfl⟩, ((hmem i).mp hi).2⟩
    · rintro ⟨⟨i, hi, rfl⟩, hin⟩
      exact ⟨i, (hmem i).mpr ⟨hi, hin⟩, rfl⟩
  · obtain ⟨i, hi, rfl⟩ := (covers_of_discrete hxd n).mp hn
    rw [held_place hwf.rising hi]
    exact (held_place h.rising ((hmem i).mp hi).1).symm

/-- A discrete sequence can be cut to any periods. -/
lemma atPeriods_of_discrete {c : V} {s : Sequence V} (h : s.WellFormed)
    (hd : s.isDiscrete = true)
    (hc : ∀ i ∈ s.instants, TemporalValue.compatible c i.value = .ok ()) {times : PeriodSet}
    (ht : times.WellFormed) :
    ∃ pieces, s.atPeriods times = .ok pieces ∧ Cuts c [s] times.Covers pieces := by
  have hmem : ∀ i, i ∈ s.instants.filter (fun i => times.containsValue i.time) ↔
      i ∈ s.instants ∧ times.Covers i.time.place := by
    intro i
    rw [List.mem_filter, ht.containsValue_iff]
    rfl
  unfold atPeriods
  rw [if_pos hd]
  split
  · rename_i hnone
    refine ⟨[], rfl, Cuts.of_not_covers fun n => ?_⟩
    rintro ⟨x, hx, hn⟩ hin
    obtain rfl := List.mem_singleton.mp hx
    obtain ⟨i, hi, rfl⟩ := (covers_of_discrete hd n).mp hn
    have := (hmem i).mpr ⟨hi, hin⟩
    rw [hnone] at this
    simp at this
  · rename_i first rest hsome
    rw [hsome] at hmem
    have hrise : (first :: rest).Pairwise Instant.Precedes := by
      rw [← hsome]
      exact h.rising.sublist List.filter_sublist
    have hok := makeRun_eq_ok (checked_discrete hrise)
    have hbuilt := builtFrom_of_makeRun hok
    refine ⟨[_], ?_, cuts_of_discrete h hd hc hbuilt.wellFormed
      (isDiscrete_iff.mpr hbuilt.interp_eq) hmem⟩
    simp only [bind_eq_ok, pure_eq_ok]
    exact ⟨_, hok, rfl⟩

/-- A sequence that can be cut to each of some periods can be cut to all of them. -/
lemma atPeriods_of_atPeriod {c : V} {s : Sequence V} (h : s.WellFormed)
    (hc : ∀ i ∈ s.instants, TemporalValue.compatible c i.value = .ok ()) {times : PeriodSet}
    (ht : times.WellFormed) (hcut : s.isDiscrete = false →
      ∀ p ∈ times.spans.filter fun p => p.overlaps s.period, ∃ found, s.atPeriod p = .ok found) :
    ∃ pieces, s.atPeriods times = .ok pieces ∧ Cuts c [s] times.Covers pieces := by
  cases hd : s.isDiscrete with
  | true => exact atPeriods_of_discrete h hd hc ht
  | false =>
    unfold atPeriods
    rw [if_neg (by rw [hd]; exact Bool.false_ne_true)]
    have hmet : Span.NormalForm (times.spans.filter fun p => p.overlaps s.period) :=
      ht.normal.sublist List.filter_sublist
    obtain ⟨found, hfound, hcuts⟩ := mapM_atPeriod_spec h hd hc hmet (hcut hd)
    refine ⟨found.filterMap id, ?_, hcuts.congr fun n => ?_⟩
    · simp only [bind_eq_ok, pure_eq_ok]
      exact ⟨found, hfound, rfl⟩
    · rintro ⟨x, hx, hn⟩
      obtain rfl := List.mem_singleton.mp hx
      rw [covers_of_continuous hd] at hn
      unfold SpanSet.Covers Span.AnyCovers
      simp only [List.mem_filter, Span.overlaps_iff]
      refine exists_congr fun p => ⟨fun hpn => ⟨hpn.1.1, hpn.2⟩, fun hpn => ⟨⟨hpn.1, ?_⟩, hpn.2⟩⟩
      have := hpn.2
      unfold Span.Covers at this
      change p.lo ≤ x.hi ∧ x.lo ≤ p.hi
      omega

section

variable {c : V} {s : Sequence V} (h : s.WellFormed) (hp : s.Proper)
  (hc : ∀ i ∈ s.instants, TemporalValue.compatible c i.value = .ok ()) {times : PeriodSet}
include h hp hc

/-- A cut to any periods is never refused. -/
theorem atPeriods_spec (ht : times.WellFormed) (hdone : Completes (s.atPeriods times)) :
    ∃ pieces, s.atPeriods times = .ok pieces ∧ Cuts c [s] times.Covers pieces := by
  refine atPeriods_of_atPeriod h hc ht fun hd p hmem => ?_
  unfold atPeriods at hdone
  rw [if_neg (by rw [hd]; exact Bool.false_ne_true)] at hdone
  obtain ⟨found, hfound, -⟩ := Completes.exists_mapM (p := fun _ _ => True)
    (fun q _ hq => (exists_atPeriod h hd hp hc hq).imp fun _ h => ⟨h, trivial⟩) hdone.left
  obtain ⟨x, -, hx⟩ := mem_mapM_of_mem hfound hmem
  exact ⟨x, hx⟩

/-- A short sequence is cut to any periods without giving up. -/
lemma completes_atPeriods (ht : times.WellFormed) (hshort : ShortRun s.interp s.first s.rest) :
    Completes (s.atPeriods times) := by
  cases hd : s.isDiscrete with
  | true =>
    obtain ⟨_, hok, -⟩ := atPeriods_of_discrete h hd hc ht
    exact .of_eq_ok hok
  | false =>
    unfold atPeriods
    rw [if_neg (by rw [hd]; exact Bool.false_ne_true)]
    exact (Completes.mapM fun p _ => completes_atPeriod h hd hp hc hshort p).bind
      fun _ _ => Completes.ok _

end

lemma returns_cuts_atPeriods {c : V} {s : Sequence V} (h : s.WellFormed)
    (hc : ∀ i ∈ s.instants, TemporalValue.compatible c i.value = .ok ()) {times : PeriodSet}
    (ht : times.WellFormed) : Returns (Cuts c [s] times.Covers) (s.atPeriods times) := by
  intro pieces hok
  obtain ⟨pieces', hok', hcuts⟩ := atPeriods_of_atPeriod h hc ht fun hd p hp => by
    unfold atPeriods at hok
    rw [if_neg (by rw [hd]; exact Bool.false_ne_true)] at hok
    obtain ⟨found, hfound, -⟩ := bind_eq_ok.mp hok
    obtain ⟨x, -, hx⟩ := mem_mapM_of_mem hfound hp
    exact ⟨x, hx⟩
  obtain rfl : pieces = pieces' := Except.ok.inj (hok.symm.trans hok')
  exact hcuts

/-- Sequences that rise, each cut by itself. -/
lemma mapM_cut_spec {c : V} {whole : List (Sequence V)} {inside : Int → Prop}
    {cut : Sequence V → Result (List (Sequence V))} (hwf : ∀ s ∈ whole, s.WellFormed)
    (hrise : whole.Pairwise Before)
    (hcut : ∀ s ∈ whole, ∃ pieces, cut s = .ok pieces ∧ Cuts c [s] inside pieces) :
    ∃ found, whole.mapM cut = .ok found ∧ Cuts c whole inside found.flatten := by
  induction whole with
  | nil => exact ⟨[], rfl, Cuts.nil_whole⟩
  | cons s rest ih =>
    obtain ⟨pieces, hpieces, hcuts⟩ := hcut s (by simp)
    obtain ⟨found, hfound, hrest⟩ := ih (fun x hx => hwf x (by simp [hx])) hrise.tail
      fun x hx => hcut x (by simp [hx])
    refine ⟨pieces :: found, ?_, ?_⟩
    · rw [List.mapM_cons]
      simp only [bind_eq_ok, pure_eq_ok]
      exact ⟨pieces, hpieces, found, hfound, rfl⟩
    · rw [List.flatten_cons]
      refine hcuts.append_whole hrest ?_
      rintro n ⟨x, hx, hn⟩ ⟨y, hy, hyn⟩
      obtain rfl := List.mem_singleton.mp hx
      exact (Before.apart (hwf x (by simp)) (hwf y (by simp [hy]))
        (List.rel_of_pairwise_cons hrise hy)) n ⟨hn, hyn⟩

end

end Sequence

namespace Temporal

open Sequence

variable {V : Type} [TemporalValue V]

def SomeCovers (found : Option (Temporal V)) (n : Int) : Prop := ∃ s ∈ parts found, s.Covers n

def SomeTakes (found : Option (Temporal V)) (n : Int) (x : V) : Prop :=
  ∃ s ∈ parts found, s.Takes n x

lemma someCovers_some {v : Temporal V} {n : Int} : SomeCovers (some v) n ↔ v.Covers n := Iff.rfl

lemma not_someCovers_none (n : Int) : ¬SomeCovers (none : Option (Temporal V)) n := by
  simp [SomeCovers, parts]

lemma not_someTakes_none (n : Int) (x : V) : ¬SomeTakes none n x := by
  simp [SomeTakes, parts]

lemma someCovers_iff_exists_takes {found : Option (Temporal V)} {n : Int} :
    SomeCovers found n ↔ ∃ x, SomeTakes found n x := by
  constructor
  · rintro ⟨s, hs, hn⟩
    exact ⟨s.held n, s, hs, hn, rfl⟩
  · rintro ⟨x, s, hs, hn, -⟩
    exact ⟨s, hs, hn⟩

/-- What is left of a value inside given places. -/
structure Restricts (v : Temporal V) (inside : Int → Prop) (found : Option (Temporal V)) :
    Prop where
  wellFormed : ∀ x ∈ found, x.WellFormed
  interp_eq : ∀ x ∈ found, x.interp = v.interp
  covers_iff : ∀ n, SomeCovers found n ↔ v.Covers n ∧ inside n
  takes_iff : StepValue V → ∀ n x, SomeTakes found n x ↔ v.Takes n x ∧ inside n

variable [LawfulValue V]

omit [LawfulValue V] in
lemma interp_eq_of_cuts {v : Temporal V} (h : ∀ s ∈ v.sequences, s.interp = v.interp) {c : V}
    {inside : Int → Prop} {pieces : List (Sequence V)}
    (hcuts : Cuts c v.sequences inside pieces) : ∀ x ∈ pieces, x.interp = v.interp := by
  intro x hx
  obtain ⟨s, hs, hxs⟩ := hcuts.interp_eq x hx
  rw [hxs, h s hs]

section

variable {v : Temporal V} (h : v.WellFormed) {c : V} {inside : Int → Prop}
include h

lemma restricts_of_cuts {pieces : List (Sequence V)} (hcuts : Cuts c v.sequences inside pieces)
    (hdone : Completes (ofPieces pieces)) :
    ∃ found, ofPieces pieces = .ok found ∧ Restricts v inside found := by
  have hi := interp_eq_of_cuts h.interp_eq hcuts
  obtain ⟨found, hok, ha⟩ := ofPieces_spec hcuts.wellFormed hi hcuts.apart hcuts.compatible hdone
  refine ⟨found, hok, ha.wellFormed, fun x hx => ?_, fun n => ?_, fun hl n x => ?_⟩
  · obtain rfl : found = some x := hx
    exact ha.interp_of_pieces hi
  · exact (ha.gathers.covers_iff n).trans (hcuts.covers_iff n)
  · exact (ha.gathers.takes_iff hl n x).trans (hcuts.takes_iff hl n x)

/-- The sequences of a value, each cut by itself, are assembled to what is left of it, if that
ends. -/
lemma cut_spec {cut : Sequence V → Result (List (Sequence V))}
    (hcut : ∀ s ∈ v.sequences, Completes (cut s) →
      ∃ pieces, cut s = .ok pieces ∧ Cuts c [s] inside pieces)
    (hdone : Completes (do ofPieces (← v.sequences.mapM cut).flatten)) :
    ∃ found, (do ofPieces (← v.sequences.mapM cut).flatten) = .ok found ∧
      Restricts v inside found := by
  obtain ⟨_, hmapM, hcuts⟩ := Completes.exists_mapM hcut hdone.left
  obtain ⟨pieces, hpieces, hcuts⟩ := mapM_cut_spec h.sequences h.rising fun s hs => by
    obtain ⟨x, -, hx⟩ := mem_mapM_of_mem hmapM hs
    exact hcut s hs (.of_eq_ok hx)
  obtain ⟨found, hok, hr⟩ := restricts_of_cuts h hcuts (hdone.right hpieces)
  exact ⟨found, (bind_of_ok hpieces).trans hok, hr⟩

/-- What is cut out of a short value is assembled without giving up. -/
lemma completes_cut (hshort : v.Short) {cut : Sequence V → Result (List (Sequence V))}
    (hcut : ∀ s ∈ v.sequences, Completes (cut s) →
      ∃ pieces, cut s = .ok pieces ∧ Cuts c [s] inside pieces)
    (hdone : ∀ s ∈ v.sequences, Completes (cut s)) :
    Completes (do ofPieces (← v.sequences.mapM cut).flatten) := by
  obtain ⟨pieces, hpieces, hcuts⟩ := mapM_cut_spec h.sequences h.rising
    fun s hs => hcut s hs (hdone s hs)
  refine (Completes.of_eq_ok hpieces).bind fun found hfound => ?_
  obtain rfl := Except.ok.inj (hpieces.symm.trans hfound)
  exact completes_ofPieces hcuts.wellFormed (interp_eq_of_cuts h.interp_eq hcuts) hcuts.apart
    hcuts.compatible (hcuts.confined h.sequences (h.confined hshort))

end

end Temporal

end TemporalAlgebra
