import TemporalAlgebra.Proofs.Temporal.Appending
import TemporalAlgebra.Proofs.Temporal.InPlace
import TemporalAlgebra.Proofs.Temporal.TimeRestriction

/-!
# Values extended by an instant

A value to which an instant was appended has the values that it had, the one of the instant at its
timestamp and none after it. The open end of steps, which an instant may take the place of, has no
timestamp of its own: before it the steps go on as they did. An instant that is refused leaves the
value and its box as they were.
-/
namespace TemporalAlgebra

namespace Sequence

variable {V : Type} [TemporalValue V]

/-- A sequence that takes the values of another one and ends with an instant. -/
structure Extends (s longer : Sequence V) (i : Instant V) : Prop where
  wellFormed : longer.WellFormed
  interp_eq : longer.interp = s.interp
  lo_eq : longer.lo = s.lo
  takes : ∀ n x, s.Takes n x → longer.Takes n x
  takes_last : longer.Takes i.time.place i.value
  le_place : ∀ n, longer.Covers n → n ≤ i.time.place

lemma heldFrom_of_last_le {n : Int} {a : Instant V} {rest : List (Instant V)}
    (h : (a :: rest).Pairwise Instant.Precedes) (hle : (rest.getLastD a).time.place ≤ n) :
    heldFrom n a rest = (rest.getLastD a).value :=
  heldFrom_of_latest h ⟨List.getLastD_mem_cons, hle, fun j hj _ => place_le_last h j hj⟩

section

variable [LawfulValue V] {s : Sequence V}

lemma WellFormed.takes_last (h : s.WellFormed) (hends : s.upperInc = true ∨ s.isDiscrete = true) :
    s.Takes s.last.time.place s.last.value := by
  refine ⟨?_, held_place h.rising s.last_mem⟩
  cases hd : s.isDiscrete with
  | true => exact (covers_of_discrete hd _).mpr ⟨s.last, s.last_mem, rfl⟩
  | false =>
    have hu : s.upperInc = true := hends.resolve_right (by simp [hd])
    have hle := h.lo_le_hi
    rw [hi_eq, hu, if_pos rfl] at hle
    rw [covers_of_continuous hd, hi_eq, hu, if_pos rfl]
    omega

lemma WellFormed.takes_first (h : s.WellFormed) (hl : s.lowerInc = true) :
    s.Takes s.first.time.place s.first.value := by
  refine ⟨?_, held_place h.rising (List.mem_cons_self ..)⟩
  have hlo := h.covers_lo
  rwa [lo_eq, hl, if_pos rfl, Int.add_zero] at hlo

lemma WellFormed.le_place_last (h : s.WellFormed) {n : Int} (hn : s.Covers n) :
    n ≤ s.last.time.place := by
  have hle := (h.mem_period hn).2
  rw [hi_eq] at hle
  split at hle <;> omega

end

section

variable [StepValue V] {s longer : Sequence V} {i : Instant V}

/-- A sequence extends another one if it starts as that one did, holds what that one took and ends
inclusively. -/
lemma extends_of_held (h : s.WellFormed) (hwf : longer.WellFormed)
    (hinterp : longer.interp = s.interp) (hlo : longer.lo = s.lo)
    (hupper : longer.upperInc = true) (hlast : longer.last = i)
    (hle : s.last.time.place ≤ i.time.place)
    (hinstants : s.isDiscrete = true → s.instants ⊆ longer.instants)
    (hheld : ∀ n, s.Covers n → longer.held n = s.held n) : s.Extends longer i := by
  subst hlast
  refine ⟨hwf, hinterp, hlo, fun n x hx => ?_, hwf.takes_last (Or.inl hupper),
    fun n => hwf.le_place_last⟩
  obtain ⟨hn, rfl⟩ := hx
  refine ⟨?_, hheld n hn⟩
  cases hd : s.isDiscrete with
  | true =>
    have hd' : longer.isDiscrete = true := isDiscrete_iff.mpr (hinterp.trans (isDiscrete_iff.mp hd))
    obtain ⟨j, hj, hjn⟩ := (covers_of_discrete hd n).mp hn
    exact (covers_of_discrete hd' n).mpr ⟨j, hinstants hd hj, hjn⟩
  | false =>
    have hd' : longer.isDiscrete = false := by
      rw [isDiscrete_eq_false_iff, hinterp]
      exact isDiscrete_eq_false_iff.mp hd
    have hn' := h.le_place_last hn
    rw [covers_of_continuous hd] at hn
    rw [covers_of_continuous hd', hlo, hi_eq, hupper, if_pos rfl]
    omega

omit [StepValue V] in
lemma heldFrom_concat_of_lt {n : Int} {a : Instant V} {kept : List (Instant V)}
    (h : (a :: (kept ++ [i])).Pairwise Instant.Precedes) (hn : n < i.time.place) :
    heldFrom n a (kept ++ [i]) = heldFrom n a kept := by
  rw [heldFrom_append h, if_neg (by omega)]

lemma extends_lengthened (h : s.WellFormed) (hi : s.last.time.place < i.time.place)
    {kept : List (Instant V)} (hk : s.Keeps kept) (capacity : Nat) :
    s.Extends (s.lengthened kept i capacity) i := by
  have hwf : (s.lengthened kept i capacity).WellFormed := wellFormed_lengthened h hi hk
  refine extends_of_held h hwf rfl rfl rfl (last_lengthened s kept i capacity) hi.le (fun hd => ?_)
    fun n hn => ?_
  · have hkept : kept = s.rest := hk.resolve_right fun hstep => by
      have := isDiscrete_iff.mp hd
      simp [hstep.1] at this
    change s.first :: s.rest ⊆ s.first :: (kept ++ [i])
    rw [hkept, ← List.cons_append]
    exact List.subset_append_left _ _
  · have hlt := (h.le_place_last hn).trans_lt hi
    change heldFrom n s.first (kept ++ [i]) = heldFrom n s.first s.rest
    have hrising : (s.first :: (kept ++ [i])).Pairwise Instant.Precedes := hwf.rising
    rw [heldFrom_concat_of_lt hrising hlt]
    rcases hk with rfl | ⟨-, m, hm, hv⟩
    · rfl
    · have hrising' := h.rising
      unfold instants at hrising'
      rw [hm] at hrising' ⊢
      rw [heldFrom_append hrising']
      split
      · rename_i hle
        have hbefore := hrising'.sublist (List.sublist_append_left (s.first :: kept) [m])
        have hkm : (kept.getLastD s.first).time.place < m.time.place :=
          ((List.pairwise_append.mp hrising').2.2 _ List.getLastD_mem_cons m
            (List.mem_singleton.mpr rfl)).1
        rw [heldFrom_of_last_le hbefore (by omega)]
        exact eq_of_beq hv
      · rfl

lemma extends_closed (h : s.WellFormed) : s.Extends (rebox s.closed) s.last := by
  have hwf : (rebox s.closed).WellFormed := wellFormed_closed (s := s) h
  exact extends_of_held h hwf rfl rfl rfl rfl (le_refl _) (fun _ => List.Subset.refl _)
    fun _ _ => rfl

lemma extends_ended (h : s.WellFormed) (hstep : s.interp = .step) (hu : s.upperInc = false)
    (hi : i.time.place = s.last.time.place) : s.Extends (rebox (s.ended i)) i := by
  obtain ⟨kept, hrest, -⟩ := exists_repeated h hstep hu
  have hwf := wellFormed_ended h hstep hi hrest
  refine extends_of_held h hwf rfl rfl rfl List.getLastD_concat hi.ge (fun hd => ?_) fun n hn => ?_
  · have := isDiscrete_iff.mp hd
    simp [hstep] at this
  · have hlt : n < s.last.time.place := by
      have hle := (h.mem_period hn).2
      rw [hi_eq, hu, if_neg Bool.false_ne_true] at hle
      omega
    have hrising := h.rising
    have hrising' := hwf.rising
    unfold instants at hrising hrising'
    unfold ended at hrising'
    rw [hrest] at hrising
    rw [hrest, List.dropLast_concat] at hrising'
    change heldFrom n s.first (s.rest.dropLast ++ [i]) = heldFrom n s.first s.rest
    rw [hrest, List.dropLast_concat, heldFrom_concat_of_lt hrising' (by omega),
      heldFrom_concat_of_lt hrising hlt]

lemma Appended.extends (h : s.WellFormed) (ha : Appended s i (some longer)) :
    s.Extends longer i := by
  cases ha with
  | repeated hi hends =>
    subst hi
    exact ⟨h, rfl, rfl, fun _ _ hx => hx, h.takes_last hends, fun _ => h.le_place_last⟩
  | closed hi =>
    subst hi
    exact extends_closed h
  | ended hstep hu hi => exact extends_ended h hstep hu hi
  | pushed hi hk => exact extends_lengthened h hi hk _

end

end Sequence

namespace Temporal

open Sequence

variable {V : Type} [TemporalValue V]

structure Extends (v longer : Temporal V) (i : Instant V) : Prop where
  wellFormed : longer.WellFormed
  takes : ∀ n x, v.Takes n x → longer.Takes n x
  takes_last : longer.Takes i.time.place i.value
  le_place : ∀ n, longer.Covers n → n ≤ i.time.place

section

variable {v longer : Temporal V} {i first : Instant V}

lemma extends_of_last [LawfulValue V] {before : List (Sequence V)} {last last' : Sequence V}
    (h : v.WellFormed) (hwf : longer.WellFormed) (hv : v.sequences = before ++ [last])
    (hlonger : longer.sequences = before ++ [last']) (he : last.Extends last' i) :
    v.Extends longer i := by
  have hmem : last' ∈ longer.sequences := by simp [hlonger]
  refine ⟨hwf, fun n x hx => ?_, ⟨last', hmem, he.takes_last⟩, fun n hn => ?_⟩
  · obtain ⟨s, hs, hx⟩ := hx
    rw [hv, List.mem_append, List.mem_singleton] at hs
    rcases hs with hs | rfl
    · exact ⟨s, by simp [hlonger, hs], hx⟩
    · exact ⟨last', hmem, he.takes n x hx⟩
  · obtain ⟨s, hs, hn⟩ := hn
    rw [hlonger, List.mem_append, List.mem_singleton] at hs
    rcases hs with hs | rfl
    · have hrising := h.rising
      rw [hv, List.pairwise_append] at hrising
      have hbefore : s.Before last := hrising.2.2 s hs last (List.mem_singleton.mpr rfl)
      have hle := ((h.sequences s (by simp [hv, hs])).mem_period hn).2
      have hlo := (he.wellFormed.mem_period he.takes_last.1).1
      have := he.lo_eq
      unfold Before at hbefore
      omega
    · exact he.le_place n hn

lemma extends_of_next {interp : Interpolation} (hwf : longer.WellFormed)
    (hlonger : longer.sequences = v.sequences ++ [ofInstant i interp])
    (hlater : ∀ n, v.Covers n → n ≤ i.time.place) : v.Extends longer i := by
  refine ⟨hwf, fun n x hx => ?_, ⟨ofInstant i interp, by simp [hlonger], ?_⟩, fun n hn => ?_⟩
  · obtain ⟨s, hs, hx⟩ := hx
    exact ⟨s, by simp [hlonger, hs], hx⟩
  · exact (takes_ofInstant i interp _ _).mpr ⟨rfl, rfl⟩
  · obtain ⟨s, hs, hn⟩ := hn
    rw [hlonger, List.mem_append, List.mem_singleton] at hs
    rcases hs with hs | rfl
    · exact hlater n ⟨s, hs, hn⟩
    · exact ((covers_ofInstant i interp n).mp hn).le

lemma extends_of_first [LawfulValue V] {s : Sequence V} (hwf : s.WellFormed)
    (hlower : s.lowerInc = true) (hupper : s.upperInc = true) :
    (instant s.first).Extends (sequence s) s.last := by
  have hmem : s ∈ (sequence s).sequences := List.mem_singleton_self s
  refine ⟨hwf, fun n x hx => ?_, ⟨s, hmem, hwf.takes_last (Or.inl hupper)⟩, fun n hn => ?_⟩
  · obtain ⟨s', hs', hx⟩ := hx
    obtain rfl := List.mem_singleton.mp hs'
    obtain ⟨rfl, rfl⟩ := (takes_ofInstant s.first .discrete n x).mp hx
    exact ⟨s, hmem, hwf.takes_first hlower⟩
  · obtain ⟨s', hs', hn⟩ := hn
    obtain rfl := List.mem_singleton.mp hs'
    exact hwf.le_place_last hn

lemma Extends.refl (first : Instant V) : (instant first).Extends (instant first) first := by
  refine ⟨trivial, fun _ _ hx => hx, ⟨_, List.mem_singleton_self _, ?_⟩, fun n hn => ?_⟩
  · exact (takes_ofInstant first .discrete _ _).mpr ⟨rfl, rfl⟩
  · obtain ⟨s, hs, hn⟩ := hn
    obtain rfl := List.mem_singleton.mp hs
    exact ((covers_ofInstant first .discrete n).mp hn).le

lemma Extends.trans {middle : Temporal V} {j : Instant V} (h : v.Extends middle j)
    (h' : middle.Extends longer i) : v.Extends longer i :=
  ⟨h'.wellFormed, fun n x hx => h'.takes n x (h.takes n x hx), h'.takes_last, h'.le_place⟩

end

section

variable [StepValue V]

lemma returns_extends_pair {s : Sequence V} (h : s.WellFormed) {i : Instant V}
    (hlater : s.last.time.place < i.time.place) :
    Returns ((sequence s).Extends · i)
      (do return sequenceSet (← SequenceSet.make [s, .ofInstant i s.interp] false)) := by
  intro longer hlonger
  simp only [bind_eq_ok, pure_eq_ok] at hlonger
  obtain ⟨set, hset, rfl⟩ := hlonger
  have hi : (ofInstant i s.interp).WellFormed :=
    wellFormed_ofInstant i (wellFormed_iff.mp h).linear
  have hwf : set.WellFormed := SequenceSet.wellFormed_of_make
    (List.forall_mem_cons.mpr ⟨h, List.forall_mem_singleton.mpr hi⟩) hset
  refine extends_of_next (v := sequence s) hwf (SequenceSet.sequences_of_make hset) fun n hn => ?_
  obtain ⟨s', hs', hn⟩ := hn
  obtain rfl := List.mem_singleton.mp hs'
  exact (h.le_place_last hn).trans hlater.le

lemma returns_extends_appendToInstant (first i : Instant V) (interp : Interpolation)
    (limits : GapLimits) (config : AppendConfig) :
    Returns ((instant first).Extends · i) (appendToInstant first i interp limits config) := by
  unfold appendToInstant
  split
  · exact Returns.refuse _
  rename_i hlt
  rw [Timestamp.lt_iff] at hlt
  split
  · rename_i ht
    intro longer hlonger
    obtain ⟨hv, hlonger⟩ := check_bind_eq_ok.mp hlonger
    obtain rfl := Except.ok.inj hlonger
    have heq : i = first := calc
      i = ⟨i.value, i.time⟩ := rfl
      _ = first := by rw [eq_of_beq (require_eq_ok.mp hv), ht]
    rw [heq]
    exact Extends.refl first
  rename_i hne
  rw [Timestamp.eq_iff] at hne
  split
  · intro longer hlonger
    obtain ⟨start, hstart, hlonger⟩ := bind_eq_ok.mp hlonger
    have hb := builtFrom_of_makeRun hstart
    have hlast : start.last = first := hb.last_eq
    have hfirst := extends_of_first hb.wellFormed hb.lowerInc_eq hb.upperInc_eq
    rw [hb.first_eq, hlast] at hfirst
    rw [← hb.interp_eq] at hlonger
    exact hfirst.trans (returns_extends_pair hb.wellFormed (by rw [hlast]; omega) longer hlonger)
  · intro longer hlonger
    obtain ⟨s, hs, hlonger⟩ := bind_eq_ok.mp hlonger
    obtain rfl := Except.ok.inj hlonger
    have hb := builtFrom_of_makeRun hs
    have hfirst := extends_of_first (s := s.reserve config.initialMaxcount) hb.wellFormed
      hb.lowerInc_eq hb.upperInc_eq
    have hlast : (s.reserve config.initialMaxcount).last = i := hb.last_eq
    rwa [hlast, show (s.reserve config.initialMaxcount).first = first from hb.first_eq] at hfirst

lemma returns_extends_append {s : SequenceSet V} (h : s.WellFormed) (i : Instant V)
    (limits : GapLimits) (config : AppendConfig) :
    Returns (fun longer => (sequenceSet s).Extends (sequenceSet longer) i)
      (s.append i limits config) := by
  have hlast := h.sequences _ s.last_mem
  have hcompatible : ∀ pieces : List (Sequence V), Compatible s.first.first.value pieces :=
    fun _ _ _ _ _ => StepValue.compatible_eq_ok _ _
  refine Returns.bind (returns_append? hlast i limits config) fun found hfound => ?_
  cases found with
  | some longer =>
    have he := hfound.extends hlast
    obtain ⟨before, hbefore, hreplaced⟩ := s.sequences_replaceLast
    have htrain := SequenceSet.train_replaced h he.wellFormed he.interp_eq he.lo_eq
    have hwf := SequenceSet.wellFormed_of_isTrain htrain (hcompatible _)
    have hext : (sequenceSet s).Extends (sequenceSet (s.replaceLast longer none)) i :=
      extends_of_last h hwf hbefore (hreplaced longer none) he
    exact Returns.ok hext
  | none =>
    have hi : (ofInstant i s.last.interp).WellFormed :=
      wellFormed_ofInstant i (wellFormed_iff.mp hlast).linear
    have htrain := SequenceSet.train_continued h hi rfl hfound.before
    have hwf := SequenceSet.wellFormed_of_isTrain htrain (hcompatible _)
    have hlater : ∀ n, (sequenceSet s).Covers n → n ≤ i.time.place := by
      rintro n ⟨x, hx, hn⟩
      have hle : x.hi ≤ s.last.hi := SequenceSet.hi_le_last h.isTrain x hx
      have hhi := ((h.sequences x hx).mem_period hn).2
      have hlt : s.last.hi < (ofInstant i s.last.interp).lo := hfound.before
      change s.last.hi < i.time.place at hlt
      omega
    have hext : (sequenceSet s).Extends
        (sequenceSet (s.replaceLast s.last (some (ofInstant i s.last.interp)))) i :=
      extends_of_next hwf (s.sequences_continued _) hlater
    exact Returns.ok hext

/-- A value is extended by an instant that is appended to it. -/
theorem returns_extends_appendInstant {v : Temporal V} (h : v.WellFormed) (i : Instant V)
    (interp : Interpolation) (limits : GapLimits) (config : AppendConfig) :
    Returns (v.Extends · i) (v.appendInstant i interp limits config) := by
  refine Returns.reported (Returns.after fun _ => ?_)
  cases v with
  | instant first => exact returns_extends_appendToInstant first i interp limits config
  | sequence s =>
    have hs : s.WellFormed := h
    refine Returns.bind (returns_append? hs i limits config) fun found hfound => ?_
    cases found with
    | some longer =>
      have he := hfound.extends hs
      have hext : (sequence s).Extends (sequence longer) i :=
        extends_of_last h he.wellFormed (List.nil_append [s]).symm
          (List.nil_append [longer]).symm he
      exact Returns.ok hext
    | none => exact returns_extends_pair hs hfound.lt
  | sequenceSet s =>
    exact Returns.bind (returns_extends_append h i limits config) fun _ he => Returns.ok he

end

/-- Appending an instant to steps is not given up. -/
lemma completes_appendInstant [StepValue V] {v : Temporal V} (h : v.WellFormed) (i : Instant V)
    (interp : Interpolation) (limits : GapLimits) (config : AppendConfig) :
    Completes (v.appendInstant i interp limits config) := by
  have hrun : ∀ (first : Instant V) rest, Completes (makeRun first rest true true interp false) :=
    fun first rest => (silent_make (first :: rest) true true interp).completes
  have hset : ∀ pieces : List (Sequence V), Completes (SequenceSet.make pieces false) :=
    fun pieces => (SequenceSet.silent_make pieces).completes
  refine completes_reported.mpr
    ((Completes.of_eq_ok (StepValue.compatible_eq_ok _ _)).bind fun _ _ => ?_)
  cases v with
  | instant first =>
    change Completes (appendToInstant first i interp limits config)
    unfold appendToInstant
    split
    · exact Completes.refuse _
    split
    · exact (Completes.require _ _).bind fun _ _ => Completes.ok _
    split
    · exact (hrun _ _).bind fun _ _ => (hset _).bind fun _ _ => Completes.ok _
    · exact (hrun _ _).bind fun _ _ => Completes.ok _
  | sequence s =>
    refine (completes_append? (s := s) h i limits config).bind fun found _ => ?_
    cases found with
    | some longer => exact Completes.ok _
    | none => exact (hset _).bind fun _ _ => Completes.ok _
  | sequenceSet s =>
    have hlast := (SequenceSet.WellFormed.sequences h) _ s.last_mem
    refine Completes.bind ((completes_append? hlast i limits config).bind fun found _ => ?_)
      fun _ _ => Completes.ok _
    cases found <;> exact Completes.ok _

/-- Appending an instant is atomic and only extends a value. If it is refused, also for lack of
memory, the value, its box and its room for instants are as before. Otherwise every timestamp at
which the value was defined keeps its value, the timestamp of the instant has the appended one, and
nothing is defined after it. -/
theorem append_is_atomic_and_extends [StepValue V] {v : Temporal V} (h : v.WellFormed)
    (memory : Memory) (i : Instant V) (interp : Interpolation) (limits : GapLimits)
    (config : AppendConfig) :
    (∀ f v', Edit.outcome (appending memory i interp limits config) v = (.error f, v') →
      v' = v) ∧
    ∀ v', Edit.outcome (appending memory i interp limits config) v = (.ok (), v') →
      v'.WellFormed ∧ (∀ t x, v.valueAt t = some x → v'.valueAt t = some x) ∧
        v'.valueAt i.time = some i.value ∧ ∀ t, i.time < t → v'.valueAt t = none := by
  have hsettles := settles_appending memory i interp limits config v
  have hdone := (completes_appendInstant h i interp limits config).map fun v => ((), v)
  refine ⟨fun f v' hrun => hsettles.of_error hdone hrun, fun v' hrun => ?_⟩
  obtain ⟨longer, hlonger, heq⟩ := map_eq_ok.mp (hsettles.of_ok hrun)
  obtain rfl : longer = v' := (Prod.mk.inj heq).2
  have he := returns_extends_appendInstant h i interp limits config longer hlonger
  refine ⟨he.wellFormed, fun t x hx => ?_, ?_, fun t ht => ?_⟩
  · rw [he.wellFormed.valueAt_eq_some_iff]
    exact he.takes _ _ ((h.valueAt_eq_some_iff t x).mp hx)
  · exact (he.wellFormed.valueAt_eq_some_iff _ _).mpr he.takes_last
  · rw [he.wellFormed.valueAt_eq_none_iff]
    intro hn
    rw [Timestamp.lt_iff] at ht
    have := he.le_place _ hn
    omega

/-- Steps with an open end refuse an instant within them, and one behind them where no memory is
left. An instant takes the place of their end and keeps what is before it. -/
theorem stairs_appended : stairs.WellFormed ∧ StepValue Integer ∧
    (∃ f, Edit.outcome (appending (fun _ => .ok ()) ⟨.clamp 3, .nearest 5⟩ .step ⟨none, none⟩ {})
      stairs = (.error f, stairs)) ∧
    (∃ f, Edit.outcome (appending (fun _ => refuse (.memoryAlloc "")) ⟨.clamp 3, .nearest 30⟩ .step
      ⟨none, none⟩ {}) stairs = (.error f, stairs)) ∧
    ∃ v, Edit.outcome (appending (fun _ => .ok ()) ⟨.clamp 3, .nearest 20⟩ .step ⟨none, none⟩ {})
        stairs = (.ok (), v) ∧ v.valueAt (.nearest 15) = some (.clamp 2) ∧
      v.valueAt (.nearest 20) = some (.clamp 3) ∧ v.valueAt (.nearest 21) = none := by
  have hatomic := fun memory i =>
    append_is_atomic_and_extends stairs_wellFormed memory i .step ⟨none, none⟩ {}
  refine ⟨stairs_wellFormed, inferInstance, ?_, ?_, ?_⟩
  · obtain ⟨f, v, hrun⟩ : ∃ f v, Edit.outcome (appending (fun _ => .ok ())
        ⟨.clamp 3, .nearest 5⟩ .step ⟨none, none⟩ {}) stairs = (.error f, v) := ⟨_, _, rfl⟩
    obtain rfl := (hatomic _ _).1 f v hrun
    exact ⟨f, hrun⟩
  · obtain ⟨f, v, hrun⟩ : ∃ f v, Edit.outcome (appending (fun _ => refuse (.memoryAlloc ""))
        ⟨.clamp 3, .nearest 30⟩ .step ⟨none, none⟩ {}) stairs = (.error f, v) := ⟨_, _, rfl⟩
    obtain rfl := (hatomic _ _).1 f v hrun
    exact ⟨f, hrun⟩
  · obtain ⟨v, hrun⟩ : ∃ v, Edit.outcome (appending (fun _ => .ok ())
        ⟨.clamp 3, .nearest 20⟩ .step ⟨none, none⟩ {}) stairs = (.ok (), v) := ⟨_, rfl⟩
    obtain ⟨-, hkept, hlast, hnone⟩ := (hatomic _ _).2 v hrun
    exact ⟨v, hrun, hkept _ _ (by decide), hlast, hnone _ (by decide)⟩

end Temporal

end TemporalAlgebra
