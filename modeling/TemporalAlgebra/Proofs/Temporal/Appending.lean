import TemporalAlgebra.Proofs.Temporal.Soundness
import TemporalAlgebra.Temporal.Append

/-!
# Appending

An instant that is appended to a sequence makes it grow: it starts where it did, ends no earlier and
keeps all its values, though not all its instants. So the box of a value only has to grow with it.
-/
namespace TemporalAlgebra

open TemporalBox

variable {V : Type} [TemporalValue V]

/-- Instants with one value have one box but for their period. -/
lemma Instant.setPeriod_box [BoundedValue V] {i j : Instant V} (h : i.value = j.value)
    (p : Period) : setPeriod i.box p = setPeriod j.box p := by
  have hi : i.box = setPeriod j.box (Period.singleton i.time) := by
    unfold Instant.box
    rw [h, BoundedValue.setPeriod_instantBox]
  rw [hi, LawfulBox.setPeriod_setPeriod]

lemma Instant.within_of_values [BoundedValue V] {as bs : List (Instant V)} {p : Period}
    {c : TemporalValue.Box V} (hvalues : ∀ j ∈ bs, ∃ k ∈ as, k.value = j.value)
    (h : ∀ k ∈ as, Within (setPeriod k.box p) c) : ∀ j ∈ bs, Within (setPeriod j.box p) c := by
  intro j hj
  obtain ⟨k, hk, hkj⟩ := hvalues j hj
  rw [← Instant.setPeriod_box hkj]
  exact h k hk

namespace Sequence

section

variable [BoundedValue V]

lemma setPeriod_boxOf (first : Instant V) (rest : List (Instant V)) (lowerInc upperInc : Bool) :
    setPeriod (boxOf first rest lowerInc upperInc)
        ⟨first.time, (rest.getLastD first).time, lowerInc, upperInc⟩ =
      boxOf first rest lowerInc upperInc := LawfulBox.setPeriod_setPeriod _ _ _

lemma boxOf_within_iff {first : Instant V} {rest : List (Instant V)} {lowerInc upperInc : Bool}
    {p : Period} {c : TemporalValue.Box V} :
    Within (setPeriod (boxOf first rest lowerInc upperInc) p) c ↔
      ∀ i ∈ first :: rest, Within (setPeriod i.box p) c := by
  unfold boxOf
  rw [LawfulBox.setPeriod_setPeriod, setPeriod_foldl, foldl_within_iff, List.forall_mem_cons]

lemma Sound.box_within_iff {s : Sequence V} (h : s.Sound) {p : Period}
    {c : TemporalValue.Box V} :
    Within (setPeriod s.box p) c ↔ ∀ i ∈ s.instants, Within (setPeriod i.box p) c := by
  rw [h.box_eq]
  exact boxOf_within_iff

lemma Sound.setPeriod_box {s : Sequence V} (h : s.Sound) :
    setPeriod s.box s.period = s.box := by
  rw [h.box_eq]
  exact setPeriod_boxOf _ _ _ _

/-- A box only has to grow by that of one more instant. -/
lemma Sound.hull_box {s : Sequence V} (h : s.Sound) {i first : Instant V}
    {kept : List (Instant V)} (lowerInc upperInc : Bool)
    (hkept : (first :: kept).Sublist s.instants)
    (hvalues : ∀ j ∈ s.instants, ∃ k ∈ first :: kept, k.value = j.value) :
    setPeriod (hull s.box i.box) ⟨first.time, i.time, lowerInc, upperInc⟩ =
      boxOf first (kept ++ [i]) lowerInc upperInc := by
  have hbox := setPeriod_boxOf first (kept ++ [i]) lowerInc upperInc
  rw [List.getLastD_concat] at hbox
  refine eq_of_within_iff fun c => ?_
  rw [← hbox, boxOf_within_iff, setPeriod_hull, hull_within_iff, h.box_within_iff,
    ← List.cons_append]
  simp only [List.mem_append, List.mem_singleton, or_imp, forall_and, forall_eq]
  apply and_congr_left
  intro _
  constructor
  · intro hall j hj
    exact hall j (hkept.subset hj)
  · intro hall
    exact Instant.within_of_values hvalues hall

end

lemma sound_reserve {s : Sequence V} (h : s.Sound) (capacity : Nat) :
    (s.reserve capacity).Sound := ⟨h.wellFormed, h.box_eq⟩

/-- What a sequence grows to starts where it did, ends no earlier and has its values. -/
structure Grows (s longer : Sequence V) : Prop where
  sound : longer.Sound
  interp_eq : longer.interp = s.interp
  lo_eq : longer.lo = s.lo
  hi_le : s.hi ≤ longer.hi
  values : ∀ i ∈ s.instants, ∃ j ∈ longer.instants, j.value = i.value

lemma Grows.refl {s : Sequence V} (h : s.Sound) : s.Grows s :=
  ⟨h, rfl, rfl, le_refl _, fun i hi => ⟨i, hi, rfl⟩⟩

lemma Grows.box_within [BoundedValue V] {s longer : Sequence V} (hs : s.Sound)
    (h : s.Grows longer) : Within s.box longer.box := by
  have hperiod : s.period.hull longer.period = longer.period := by
    refine Span.eq_of_lo_hi ?_ ?_
    · rw [Span.lo_hull]
      exact min_eq_right h.lo_eq.le
    · rw [Span.hi_hull]
      exact max_eq_right h.hi_le
  have hlonger := h.sound.setPeriod_box
  have hself : Within (setPeriod longer.box longer.period) longer.box := by
    rw [hlonger]
    exact Within.refl _
  have hvalues : Within (setPeriod s.box longer.period) longer.box :=
    hs.box_within_iff.mpr (Instant.within_of_values h.values (h.sound.box_within_iff.mp hself))
  calc hull s.box longer.box
      = hull (setPeriod s.box s.period) (setPeriod longer.box longer.period) := by
        rw [hs.setPeriod_box, hlonger]
    _ = setPeriod (hull s.box longer.box) longer.period := by
        rw [LawfulBox.hull_setPeriod, hperiod]
    _ = hull (setPeriod s.box longer.period) longer.box := by
        rw [setPeriod_hull, hlonger]
    _ = longer.box := hvalues

/-- One more instant comes behind all others, but for the last one if that repeats a step. -/
lemma extend_spec {interp : Interpolation} (hl : interp ≠ .linear) (a i : Instant V)
    (rest : List (Instant V)) : ∃ kept, extend interp a i rest = .ok (kept ++ [i]) ∧
      (kept = rest ∨ interp = .step ∧
        ∃ m, rest = kept ++ [m] ∧ ((kept.getLastD a).value == m.value) = true) := by
  induction rest generalizing a with
  | nil => exact ⟨[], rfl, Or.inl rfl⟩
  | cons m rest ih =>
    cases rest with
    | nil =>
      cases interp with
      | discrete => exact ⟨[m], rfl, Or.inl rfl⟩
      | step =>
        have hextend : extend .step a i [m] = .ok (if a.value == m.value then [i] else [m, i]) :=
          rfl
        rw [hextend]
        by_cases hr : (a.value == m.value) = true
        · exact ⟨[], by rw [if_pos hr]; rfl, Or.inr ⟨rfl, m, rfl, hr⟩⟩
        · exact ⟨[m], by rw [if_neg hr]; rfl, Or.inl rfl⟩
      | linear => exact absurd rfl hl
    | cons n rest =>
      obtain ⟨kept, hkept, h⟩ := ih m
      refine ⟨m :: kept, bind_of_ok hkept, ?_⟩
      rcases h with rfl | ⟨hstep, x, hx, hv⟩
      · exact Or.inl rfl
      · exact Or.inr ⟨hstep, x, by rw [hx]; rfl, by rwa [List.getLastD_cons]⟩

/-- The same sequence that ends inclusively with an instant behind those that are kept. -/
def lengthened (s : Sequence V) (kept : List (Instant V)) (i : Instant V) (capacity : Nat) :
    Sequence V :=
  { s with
    rest := kept ++ [i]
    upperInc := true
    box := setPeriod (hull s.box i.box) ⟨s.first.time, i.time, s.lowerInc, true⟩
    capacity }

/-- All instants of a sequence are kept, or all but the last one of steps, which only repeats a
value. -/
def Keeps (s : Sequence V) (kept : List (Instant V)) : Prop :=
  kept = s.rest ∨ s.interp = .step ∧
    ∃ m, s.rest = kept ++ [m] ∧ ((kept.getLastD s.first).value == m.value) = true

lemma exists_push {s : Sequence V} (hl : s.interp ≠ .linear) (i : Instant V)
    (config : AppendConfig) :
    ∃ kept capacity, s.push i config = .ok (s.lengthened kept i capacity) ∧ s.Keeps kept := by
  obtain ⟨kept, hkept, hkeeps⟩ := extend_spec hl s.first i s.rest
  exact ⟨kept, _, bind_of_ok hkept, hkeeps⟩

section

variable [StepValue V] {s : Sequence V} {i : Instant V}

lemma rising_concat {instants kept : List (Instant V)}
    (h : instants.Pairwise Instant.Precedes) (hk : kept.Sublist instants)
    (hi : ∀ j ∈ kept, j.time.place < i.time.place) :
    (kept ++ [i]).Pairwise Instant.Precedes := by
  rw [List.pairwise_append]
  refine ⟨h.sublist hk, List.pairwise_singleton _ _, fun j hj k hkmem => ?_⟩
  obtain rfl := List.mem_singleton.mp hkmem
  exact ⟨hi j hj, StepValue.compatible_eq_ok _ _⟩

variable {kept : List (Instant V)} {capacity : Nat}

/-- What is kept of a sequence has all its values. -/
lemma Keeps.spec (hk : s.Keeps kept) : (s.first :: kept).Sublist s.instants ∧
    ∀ j ∈ s.instants, ∃ k ∈ s.first :: kept, k.value = j.value := by
  rcases hk with rfl | ⟨-, m, hm, hv⟩
  · exact ⟨List.Sublist.refl _, fun j hj => ⟨j, hj, rfl⟩⟩
  · unfold instants
    rw [hm, ← List.cons_append]
    refine ⟨List.sublist_append_left _ _, fun j hj => ?_⟩
    rcases List.mem_append.mp hj with hj | hj
    · exact ⟨j, hj, rfl⟩
    · obtain rfl := List.mem_singleton.mp hj
      exact ⟨_, List.getLastD_mem_cons, eq_of_beq hv⟩

omit [StepValue V] in
lemma last_lengthened (s : Sequence V) (kept : List (Instant V)) (i : Instant V)
    (capacity : Nat) : (s.lengthened kept i capacity).last = i := List.getLastD_concat

lemma wellFormed_lengthened (h : s.WellFormed) (hi : s.last.time.place < i.time.place)
    (hk : s.Keeps kept) : (s.lengthened kept i capacity).WellFormed := by
  have hc := wellFormed_iff.mp h
  obtain ⟨hsub, -⟩ := hk.spec
  refine wellFormed_iff.mpr ⟨hc.linear, ?_, fun hclosed => ⟨?_, rfl⟩, fun _ hu => ?_⟩
  · refine rising_concat hc.rising hsub fun j hj => ?_
    exact (place_le_last hc.rising j (hsub.subset hj)).trans_lt hi
  · rcases hclosed with hn | hd
    · simp [lengthened] at hn
    · exact (hc.closed (Or.inr hd)).1
  · exact absurd hu (by simp [lengthened])

lemma grows_lengthened [BoundedValue V] (h : s.Sound) (hi : s.last.time.place < i.time.place)
    (hk : s.Keeps kept) : s.Grows (s.lengthened kept i capacity) := by
  obtain ⟨hsub, hvalues⟩ := hk.spec
  refine ⟨⟨wellFormed_lengthened h.wellFormed hi hk, ?_⟩, rfl, ?_, ?_, fun j hj => ?_⟩
  · exact h.hull_box s.lowerInc true hsub hvalues
  · rw [lo_eq, lo_eq]
    rfl
  · rw [hi_eq, hi_eq, last_lengthened]
    change _ ≤ i.time.place - 0
    split <;> omega
  · obtain ⟨k, hk, hkj⟩ := hvalues j hj
    exact ⟨k, List.mem_append_left [i] hk, hkj⟩

def closed (s : Sequence V) : Sequence V := { s with upperInc := true }

def ended (s : Sequence V) (i : Instant V) : Sequence V :=
  { s with rest := s.rest.dropLast ++ [i], upperInc := true }

lemma wellFormed_closed (h : s.WellFormed) : s.closed.WellFormed := by
  have hc := wellFormed_iff.mp h
  exact wellFormed_iff.mpr ⟨hc.linear, hc.rising, fun hclosed => ⟨(hc.closed hclosed).1, rfl⟩,
    fun _ hu => absurd hu (by simp [closed])⟩

lemma exists_repeated (h : s.WellFormed) (hstep : s.interp = .step) (hu : s.upperInc = false) :
    ∃ kept, s.rest = kept ++ [s.last] ∧ (kept.getLastD s.first).value = s.last.value := by
  obtain ⟨kept, hrest⟩ := exists_rest_eq_concat (h.rest_ne_nil hu)
  have hrepeated := (wellFormed_iff.mp h).repeated hstep hu
  rw [hrest, endsRepeated_concat] at hrepeated
  exact ⟨kept, hrest, (eq_of_beq hrepeated).symm⟩

lemma wellFormed_ended (h : s.WellFormed) (hstep : s.interp = .step)
    (hi : i.time.place = s.last.time.place) {kept : List (Instant V)}
    (hrest : s.rest = kept ++ [s.last]) : (s.ended i).WellFormed := by
  have hc := wellFormed_iff.mp h
  have hrising := hc.rising
  rw [hrest, ← List.cons_append, List.pairwise_append] at hrising
  have hended : (s.ended i).rest = kept ++ [i] := by
    unfold ended
    rw [hrest, List.dropLast_concat]
  refine wellFormed_iff.mpr ⟨hc.linear, ?_, fun hclosed => ?_,
    fun _ hu => absurd hu (by simp [ended])⟩
  · rw [hended]
    refine rising_concat hrising.1 (List.Sublist.refl _) fun j hj => ?_
    rw [hi]
    exact (hrising.2.2 j hj s.last (List.mem_singleton.mpr rfl)).1
  · rcases hclosed with hn | hd
    · rw [hended] at hn
      simp at hn
    · exact absurd (hstep.symm.trans hd) (by simp)

lemma grows_closed (h : s.Sound) : s.Grows (rebox s.closed) := by
  refine ⟨sound_rebox (wellFormed_closed h.wellFormed), rfl, rfl, ?_, fun j hj => ⟨j, hj, rfl⟩⟩
  rw [hi_eq, hi_eq]
  change _ ≤ s.last.time.place - 0
  split <;> omega

/-- A sequence of steps that ends exclusively grows when an instant takes the place of its end,
which only repeats a value. -/
lemma grows_ended (h : s.Sound) (hstep : s.interp = .step) (hu : s.upperInc = false)
    (hi : i.time.place = s.last.time.place) : s.Grows (rebox (s.ended i)) := by
  obtain ⟨kept, hrest, hvalue⟩ := exists_repeated h.wellFormed hstep hu
  have hwf := wellFormed_ended h.wellFormed hstep hi hrest
  have hinstants : s.instants = (s.first :: kept) ++ [s.last] := congrArg (s.first :: ·) hrest
  have hended : (rebox (s.ended i)).instants = (s.first :: kept) ++ [i] := by
    change s.first :: (s.rest.dropLast ++ [i]) = _
    rw [hrest, List.dropLast_concat]
    rfl
  refine ⟨sound_rebox hwf, rfl, rfl, ?_, fun j hj => ?_⟩
  · have hlast : (rebox (s.ended i)).last = i := List.getLastD_concat
    rw [hi_eq, hi_eq, hlast, hi]
    change _ ≤ s.last.time.place - 0
    split <;> omega
  · rw [hended]
    rw [hinstants] at hj
    rcases List.mem_append.mp hj with hj | hj
    · exact ⟨j, List.mem_append_left _ hj, rfl⟩
    · obtain rfl := List.mem_singleton.mp hj
      exact ⟨_, List.mem_append_left _ List.getLastD_mem_cons, hvalue⟩

/-- What becomes of a sequence to which an instant is appended: the instant repeats its last one,
closes it, takes the place of its exclusive end or comes behind it, or nothing comes of it, since
the instant is too far away. -/
inductive Appended (s : Sequence V) (i : Instant V) : Option (Sequence V) → Prop
  | repeated : i = s.last → s.upperInc = true ∨ s.isDiscrete = true → Appended s i (some s)
  | closed : i = s.last → s.isDiscrete = false → Appended s i (some (rebox s.closed))
  | ended : s.interp = .step → s.upperInc = false → i.time.place = s.last.time.place →
      Appended s i (some (rebox (s.ended i)))
  | pushed {kept : List (Instant V)} {capacity : Nat} : s.last.time.place < i.time.place →
      s.Keeps kept → Appended s i (some (s.lengthened kept i capacity))
  | far : s.isDiscrete = false → s.last.time.place < i.time.place → Appended s i none

lemma returns_appendAtEnd (h : s.WellFormed) (ht : i.time = s.last.time) :
    Returns (Appended s i) (s.appendAtEnd i) := by
  have heq : (i.value == s.last.value) = true → i = s.last := fun hv => by
    calc i = ⟨i.value, i.time⟩ := rfl
      _ = s.last := by rw [eq_of_beq hv, ht]
  unfold appendAtEnd
  split
  · rename_i hends
    rw [Bool.or_eq_true] at hends
    intro found hfound
    obtain ⟨hv, hfound⟩ := check_bind_eq_ok.mp hfound
    obtain rfl := Except.ok.inj hfound
    exact .repeated (heq (require_eq_ok.mp hv)) hends
  · rename_i hopen
    simp only [Bool.or_eq_true, not_or, Bool.not_eq_true] at hopen
    split
    · exact Returns.ok (.closed (heq ‹_›) hopen.2)
    · have hd := isDiscrete_eq_false_iff.mp hopen.2
      have hl := h.interp_ne_linear
      have hstep : s.interp = .step := by
        cases hinterp : s.interp with
        | discrete => exact absurd hinterp hd
        | step => rfl
        | linear => exact absurd hinterp hl
      rw [if_pos (beq_iff_eq.mpr hstep)]
      exact Returns.ok (.ended hstep hopen.1 (Timestamp.eq_iff.mp ht))

/-- An appended instant belongs to a sequence, unless it lies too far behind its end. -/
theorem returns_append? (h : s.WellFormed) (i : Instant V) (limits : GapLimits)
    (config : AppendConfig) : Returns (Appended s i) (s.append? i limits config) := by
  unfold append?
  split
  · exact Returns.refuse _
  · rename_i hlt
    rw [Timestamp.lt_iff] at hlt
    split
    · exact returns_appendAtEnd h ‹_›
    · rename_i hne
      rw [Timestamp.eq_iff] at hne
      have hlater : s.last.time.place < i.time.place := by omega
      split
      · rename_i hfar
        rw [Bool.and_eq_true, Bool.not_eq_true'] at hfar
        exact Returns.ok (.far hfar.1 hlater)
      · obtain ⟨kept, capacity, hpush, hkeeps⟩ := exists_push h.interp_ne_linear i config
        rw [bind_of_ok hpush]
        exact Returns.ok (.pushed hlater hkeeps)

lemma completes_append? (h : s.WellFormed) (i : Instant V) (limits : GapLimits)
    (config : AppendConfig) : Completes (s.append? i limits config) := by
  unfold append?
  split
  · exact Completes.refuse _
  split
  · unfold appendAtEnd
    split
    · exact (Completes.require _ _).bind fun _ _ => Completes.ok _
    · split
      · exact Completes.ok _
      · split <;> exact Completes.ok _
  split
  · exact Completes.ok _
  · obtain ⟨kept, capacity, hpush, -⟩ := exists_push h.interp_ne_linear i config
    exact (Completes.of_eq_ok hpush).bind fun _ _ => Completes.ok _

omit [StepValue V] in
lemma Appended.lt (ha : Appended s i none) : s.last.time.place < i.time.place := by
  cases ha with
  | far _ hi => exact hi

omit [StepValue V] in
lemma Appended.before (ha : Appended s i none) : s.Before (ofInstant i s.interp) := by
  have hlt := ha.lt
  unfold Before
  rw [hi_eq, lo_eq]
  change _ < i.time.place + 0
  split <;> omega

lemma Appended.grows [BoundedValue V] {longer : Sequence V} (h : s.Sound)
    (ha : Appended s i (some longer)) : s.Grows longer := by
  cases ha with
  | repeated => exact Grows.refl h
  | closed => exact grows_closed h
  | ended hstep hu hi => exact grows_ended h hstep hu hi
  | pushed hi hk => exact grows_lengthened h hi hk

end

end Sequence

namespace SequenceSet

open Sequence

lemma sequences_replaceLast (s : SequenceSet V) : ∃ before, s.sequences = before ++ [s.last] ∧
    ∀ last more, (s.replaceLast last more).sequences = before ++ last :: more.toList := by
  refine ⟨s.sequences.dropLast, s.sequences_eq_concat, fun last more => ?_⟩
  obtain ⟨first, rest, box⟩ := s
  cases rest <;> rfl

lemma box_replaceLast (s : SequenceSet V) (last : Sequence V) (more : Option (Sequence V)) :
    (s.replaceLast last more).box = hull s.box (more.getD last).box := by
  obtain ⟨first, rest, box⟩ := s
  cases rest <;> rfl

lemma last_mem (s : SequenceSet V) : s.last ∈ s.sequences := List.getLastD_mem_cons

lemma sequences_continued (s : SequenceSet V) (next : Sequence V) :
    (s.replaceLast s.last (some next)).sequences = s.sequences ++ [next] := by
  obtain ⟨before, hbefore, hreplaced⟩ := s.sequences_replaceLast
  rw [hreplaced, hbefore]
  simp

lemma train_replaced [LawfulValue V] {s : SequenceSet V} (h : s.WellFormed) {longer : Sequence V}
    (hwf : longer.WellFormed) (hi : longer.interp = s.last.interp) (hlo : longer.lo = s.last.lo) :
    Train s.interp (s.replaceLast longer none).sequences := by
  obtain ⟨before, hbefore, hreplaced⟩ := s.sequences_replaceLast
  have ht := h.isTrain
  have hinterp := ht.interp_eq
  have hwfs := ht.wellFormed
  have hrising := ht.rising
  rw [hbefore] at hinterp hwfs hrising
  rw [List.pairwise_append] at hrising
  simp only [List.forall_mem_append, List.forall_mem_singleton] at hinterp hwfs
  rw [hreplaced]
  refine ⟨?_, ?_, ht.continuous, ?_⟩
  · exact List.forall_mem_append.mpr ⟨hwfs.1, List.forall_mem_singleton.mpr hwf⟩
  · exact List.forall_mem_append.mpr
      ⟨hinterp.1, List.forall_mem_singleton.mpr (hi.trans hinterp.2)⟩
  · refine List.pairwise_append.mpr ⟨hrising.1, List.pairwise_singleton _ _, fun x hx y hy => ?_⟩
    obtain rfl := List.mem_singleton.mp hy
    have hxlast := hrising.2.2 x hx s.last (List.mem_singleton.mpr rfl)
    unfold Before at *
    rwa [hlo]

lemma train_continued [LawfulValue V] {s : SequenceSet V} (h : s.WellFormed) {next : Sequence V}
    (hn : next.WellFormed) (hi : next.interp = s.last.interp) (hlater : s.last.Before next) :
    Train s.interp (s.replaceLast s.last (some next)).sequences := by
  have ht := h.isTrain
  have hlast := hi_le_last ht
  rw [sequences_continued]
  refine ⟨?_, ?_, ht.continuous, ?_⟩
  · exact List.forall_mem_append.mpr ⟨ht.wellFormed, List.forall_mem_singleton.mpr hn⟩
  · exact List.forall_mem_append.mpr ⟨ht.interp_eq,
      List.forall_mem_singleton.mpr (hi.trans (ht.interp_eq _ s.last_mem))⟩
  · refine List.pairwise_append.mpr ⟨ht.rising, List.pairwise_singleton _ _, fun x hx y hy => ?_⟩
    obtain rfl := List.mem_singleton.mp hy
    have : x.hi ≤ s.last.hi := hlast x hx
    unfold Before at *
    omega

lemma Sound.box_within_iff [BoundedValue V] {s : SequenceSet V} (h : s.Sound)
    {c : TemporalValue.Box V} : Within s.box c ↔ ∀ x ∈ s.sequences, Within x.box c := by
  unfold SequenceSet.sequences
  rw [h.box_eq, foldl_within_iff, List.forall_mem_cons]

section

variable [StepValue V] [BoundedValue V] {s : SequenceSet V}

lemma sound_of_isTrain {interp : Interpolation} (ht : Train interp s.sequences)
    (hs : ∀ x ∈ s.sequences, x.Sound)
    (hbox : ∀ c, Within s.box c ↔ ∀ x ∈ s.sequences, Within x.box c) : s.Sound := by
  have hc : Compatible s.first.first.value s.sequences :=
    fun _ _ _ _ => StepValue.compatible_eq_ok _ _
  refine ⟨wellFormed_of_isTrain ht hc, hs, eq_of_within_iff fun c => ?_⟩
  rw [hbox, foldl_within_iff]
  exact List.forall_mem_cons

lemma sound_grown (h : s.Sound) {longer : Sequence V} (hg : s.last.Grows longer) :
    (s.replaceLast longer none).Sound := by
  obtain ⟨before, hbefore, hreplaced⟩ := s.sequences_replaceLast
  have hsequences : (s.replaceLast longer none).sequences = before ++ [longer] :=
    hreplaced longer none
  have hsound := h.sequences
  have hwithin := hg.box_within (hsound _ s.last_mem)
  rw [hbefore] at hsound
  simp only [List.forall_mem_append, List.forall_mem_singleton] at hsound
  have ht := train_replaced h.wellFormed hg.sound.wellFormed hg.interp_eq hg.lo_eq
  refine sound_of_isTrain ht ?_ fun c => ?_
  · rw [hsequences, List.forall_mem_append, List.forall_mem_singleton]
    exact ⟨hsound.1, hg.sound⟩
  · rw [box_replaceLast, hull_within_iff, h.box_within_iff, hbefore, hsequences]
    simp only [List.forall_mem_append, List.forall_mem_singleton, and_assoc, Option.getD_none]
    exact and_congr_right fun _ => ⟨fun hc => hc.2, fun hc => ⟨hwithin.trans hc, hc⟩⟩

lemma sound_continued (h : s.Sound) {next : Sequence V} (hn : next.Sound)
    (hi : next.interp = s.last.interp) (hlater : s.last.Before next) :
    (s.replaceLast s.last (some next)).Sound := by
  refine sound_of_isTrain (train_continued h.wellFormed hn.wellFormed hi hlater) ?_ fun c => ?_
  · rw [sequences_continued, List.forall_mem_append, List.forall_mem_singleton]
    exact ⟨h.sequences, hn⟩
  · rw [box_replaceLast, hull_within_iff, h.box_within_iff, sequences_continued,
      List.forall_mem_append, List.forall_mem_singleton, Option.getD_some]

lemma returns_append (h : s.Sound) (i : Instant V) (limits : GapLimits) (config : AppendConfig) :
    Returns Sound (s.append i limits config) := by
  have hlast := h.sequences _ s.last_mem
  refine Returns.bind (returns_append? hlast.wellFormed i limits config) fun found hfound => ?_
  cases found with
  | some longer => exact Returns.ok (sound_grown h (hfound.grows hlast))
  | none =>
    have hl := (wellFormed_iff.mp hlast.wellFormed).linear
    exact Returns.ok (sound_continued h (sound_ofInstant i hl) rfl hfound.before)

end

end SequenceSet

namespace Temporal

open Sequence

variable [StepValue V] [BoundedValue V]

lemma returns_appendToInstant (first i : Instant V) (interp : Interpolation) (limits : GapLimits)
    (config : AppendConfig) : Returns Sound (appendToInstant first i interp limits config) := by
  unfold appendToInstant
  split
  · exact Returns.refuse _
  · split
    · exact Returns.after fun _ => Returns.ok trivial
    · split
      · intro v hv
        obtain ⟨start, hstart, hv⟩ := bind_eq_ok.mp hv
        have hs := returns_makeRun first [] true true interp false start hstart
        have hl := (wellFormed_iff.mp hs.wellFormed).linear
        rw [(builtFrom_of_makeRun hstart).interp_eq] at hl
        have hpieces : ∀ s ∈ [start, ofInstant i interp], s.Sound :=
          List.forall_mem_cons.mpr ⟨hs, List.forall_mem_singleton.mpr (sound_ofInstant i hl)⟩
        exact returns_sequenceSet (SequenceSet.returns_make hpieces false) v hv
      · refine Returns.bind (returns_makeRun first [i] true true interp false) fun s hs => ?_
        exact Returns.ok (sound_reserve hs _)

/-- An instant is appended to a sound value. -/
theorem returns_appendInstant {v : Temporal V} (h : v.Sound) (i : Instant V)
    (interp : Interpolation) (limits : GapLimits) (config : AppendConfig) :
    Returns Sound (v.appendInstant i interp limits config) := by
  refine Returns.reported (Returns.after fun _ => ?_)
  cases v with
  | instant first => exact returns_appendToInstant first i interp limits config
  | sequence s =>
    have hs : s.Sound := h
    refine Returns.bind (returns_append? hs.wellFormed i limits config) fun found hfound => ?_
    cases found with
    | some longer => exact Returns.ok (hfound.grows hs).sound
    | none =>
      have hl := (wellFormed_iff.mp hs.wellFormed).linear
      have hpieces : ∀ x ∈ [s, ofInstant i s.interp], x.Sound :=
        List.forall_mem_cons.mpr ⟨hs, List.forall_mem_singleton.mpr (sound_ofInstant i hl)⟩
      exact returns_sequenceSet (SequenceSet.returns_make hpieces false)
  | sequenceSet s =>
    have hs : s.Sound := h
    exact returns_sequenceSet (SequenceSet.returns_append hs i limits config)

end Temporal

end TemporalAlgebra
