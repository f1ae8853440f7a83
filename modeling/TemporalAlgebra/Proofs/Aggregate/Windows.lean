import TemporalAlgebra.Aggregate.Catalog
import TemporalAlgebra.Proofs.Aggregate.Pointwise
import TemporalAlgebra.Proofs.Aggregate.Stepping
import TemporalAlgebra.Proofs.Time.Shifting

/-!
# Aggregates over a trailing window

A value with steps consists of spells, over each of which it keeps one value. An aggregate over a
trailing window has, at each timestamp, the total of the values of those spells that the window
before the timestamp meets, each spell counted once.
-/
namespace TemporalAlgebra

/-- A value that is kept over a period. -/
structure Spell (V : Type) where
  value : V
  period : Period

namespace Sequence

variable {V : Type} [TemporalValue V]

/-- The spells of steps from `a` on. Each step lasts until the next instant; the last one includes
it, if it belongs to the steps and repeats their value, and is followed by it as a spell of its own,
if it has another value. -/
def spellsFrom (upperInc lowerInc : Bool) (a : Instant V) : List (Instant V) → List (Spell V)
  | [] => []
  | [b] =>
    if upperInc && a.value == b.value then [⟨a.value, ⟨a.time, b.time, lowerInc, true⟩⟩]
    else ⟨a.value, ⟨a.time, b.time, lowerInc, false⟩⟩ ::
      if upperInc then [⟨b.value, .singleton b.time⟩] else []
  | b :: c :: rest =>
    ⟨a.value, ⟨a.time, b.time, lowerInc, false⟩⟩ :: spellsFrom upperInc true b (c :: rest)

/-- The spells of a sequence: its instants, if it is discrete or has only one of them, otherwise its
steps. -/
def spells (s : Sequence V) : List (Spell V) :=
  if s.isDiscrete || s.isInstantaneous then
    s.instants.map fun i => ⟨i.value, .singleton i.time⟩
  else spellsFrom s.upperInc s.lowerInc s.first s.rest

end Sequence

def Temporal.spells {V : Type} [TemporalValue V] (v : Temporal V) : List (Spell V) :=
  v.sequences.flatMap Sequence.spells

/-- The window of `size` microseconds that ends at a timestamp. It starts with the first timestamp,
if it would start before that. -/
def trailing (size : Int) (t : Timestamp) : Period :=
  ⟨.nearest (t.micros - size), t, true, true⟩

/-- The value of a spell that the window before a timestamp meets. -/
def Spell.seen {V : Type} (size : Int) (t : Timestamp) (p : Spell V) : Option V :=
  if p.period.overlaps (trailing size t) then some p.value else none

namespace Aggregator

open Sequence

variable {V : Type} [TemporalValue V]

/-- A value that is defined where the window meets a spell of the given ones and has the total of
the values of all spells that it meets. -/
structure Trails (size : Int) (total : List V → V → Prop) (inputs : List (Temporal V))
    (found : Option (Temporal V)) : Prop where
  defined_iff : ∀ t, (∃ x, (found.bind fun r => r.valueAt t) = some x) ↔
    ∃ v ∈ inputs, ∃ p ∈ v.spells, p.period.overlaps (trailing size t) = true
  total_of_eq_some : ∀ t x, (found.bind fun r => r.valueAt t) = some x →
    total ((inputs.flatMap Temporal.spells).filterMap (Spell.seen size t)) x

/-- A step that keeps the value of a spell until the window has left the spell. -/
structure Stretched (size : Int) (p : Spell V) (q : Sequence V) : Prop where
  valid : p.period.lo ≤ p.period.hi
  wellFormed : q.WellFormed
  interp_eq : q.interp = .step
  takes_iff : ∀ n x, q.Takes n x ↔
    (p.period.lo ≤ n ∧ n ≤ p.period.hi + 3 * size) ∧ x = p.value

lemma place_of_shift {t u : Timestamp} {size : Int} (h : t.shift (.ofMicros size) = .ok u) :
    u.place = t.place + 3 * size := by
  have hshift := (Timestamp.shift_ofMicros_eq_ok.mp h).2
  unfold Timestamp.place
  omega

/-- The window before a timestamp meets a spell for as long as the spell is stretched. -/
lemma overlaps_trailing_iff {size : Int} (hsize : 0 < size) {p : Period} (hp : p.lo ≤ p.hi)
    (t : Timestamp) :
    p.overlaps (trailing size t) = true ↔ p.lo ≤ t.place ∧ t.place ≤ p.hi + 3 * size := by
  have hlower : -2 ^ 63 ≤ p.lower.micros := p.lower.ticks.lower
  have hupper : t.micros < 2 ^ 63 := t.ticks.upper
  have hlo : 3 * p.lower.micros + 1 ≤ p.lo := by
    rw [Period.lo_eq]
    unfold Timestamp.place
    split <;> omega
  rw [Span.overlaps_iff, Period.lo_eq (trailing size t), Period.hi_eq (trailing size t)]
  unfold trailing Timestamp.place
  simp only [if_true]
  rw [Timestamp.micros_nearest (by omega)]
  omega

section

variable [StepValue V]

lemma stretched_of_makeRun {size : Int} {a : Instant V} {stop u : Timestamp}
    {lowerInc upperInc : Bool} {q : Sequence V} (hu : stop.shift (.ofMicros size) = .ok u)
    (hvalid : (⟨a.time, stop, lowerInc, upperInc⟩ : Period).lo ≤
      (⟨a.time, stop, lowerInc, upperInc⟩ : Period).hi)
    (h : makeRun a [⟨a.value, u⟩] lowerInc upperInc .step false = .ok q) :
    Stretched size ⟨a.value, ⟨a.time, stop, lowerInc, upperInc⟩⟩ q := by
  have hbuilt := builtFrom_of_makeRun h
  refine ⟨hvalid, hbuilt.wellFormed, hbuilt.interp_eq, fun n x => ?_⟩
  have hcov := covers_of_continuous (isDiscrete_eq_false_iff.mpr
    (by rw [hbuilt.interp_eq]; simp)) n
  have hheld : q.held n = a.value := by
    rw [held_of_makeRun (by simp) h, heldFrom, heldFrom, ite_self]
  unfold Takes
  rw [hcov, hheld, hbuilt.lo_eq, hbuilt.hi_eq, Period.lo_eq, Period.hi_eq, List.getLastD_cons,
    List.getLastD_nil]
  dsimp only
  rw [place_of_shift hu, eq_comm (a := a.value)]
  refine and_congr_left fun _ => and_congr_right fun _ => ?_
  omega

lemma stretched_of_stretchInstant {size : Int} {i : Instant V} {interp : Interpolation}
    {q : Sequence V} (hi : interp ≠ .discrete)
    (h : stretchInstant i (.ofMicros size) interp = .ok q) :
    Stretched size ⟨i.value, .singleton i.time⟩ q := by
  unfold stretchInstant at h
  rw [bind_eq_ok] at h
  obtain ⟨u, hu, h⟩ := h
  have hbuilt := builtFrom_of_makeRun h
  have hlinear := hbuilt.wellFormed.interp_ne_linear
  rw [hbuilt.interp_eq] at hlinear
  obtain rfl : interp = .step := by cases interp <;> simp_all
  exact stretched_of_makeRun hu (Period.singleton_valid i.time).lo_le_hi h

/-- Steps are stretched spell by spell. -/
lemma stretchFrom_spec {size : Int} {stretch : Stretch} {s : Sequence V} (hs : s.interp = .step)
    {lowerInc : Bool} {a : Instant V} {rest : List (Instant V)} {pieces : List (Sequence V)}
    (hrising : (a :: rest).Pairwise Instant.Precedes)
    (h : stretchFrom s ⟨.ofMicros size, stretch⟩ lowerInc a rest = .ok pieces) :
    List.Forall₂ (Stretched size) (spellsFrom s.upperInc lowerInc a rest) pieces := by
  induction rest generalizing a lowerInc pieces with
  | nil =>
    obtain rfl := Except.ok.inj h
    exact .nil
  | cons b rest ih =>
    have hab : a.time.place < b.time.place := (List.rel_of_pairwise_cons hrising (by simp)).1
    have hvalid : ∀ upperInc, (⟨a.time, b.time, lowerInc, upperInc⟩ : Period).lo ≤
        (⟨a.time, b.time, lowerInc, upperInc⟩ : Period).hi := by
      intro upperInc
      have := a.time.place_emod
      have := b.time.place_emod
      rw [Period.lo_eq, Period.hi_eq]
      split <;> split <;> dsimp only <;> omega
    rw [stretchFrom, if_neg (by rw [hs]; decide)] at h
    simp only [bind_eq_ok, pure_eq_ok, hs] at h
    obtain ⟨u, hu, -, rfl, piece, hpiece, h⟩ := h
    cases rest with
    | nil =>
      simp only [List.isEmpty_nil, Bool.true_and, beq_self_eq_true, Bool.and_true] at hpiece h
      rw [spellsFrom]
      by_cases hcovered : (s.upperInc && a.value == b.value) = true
      · rw [hcovered] at hpiece h
        rw [if_neg (by simp), bind_eq_ok] at h
        obtain ⟨more, hmore, h⟩ := h
        obtain rfl := Except.ok.inj hmore
        obtain rfl := Except.ok.inj h
        rw [if_pos hcovered]
        exact .cons (stretched_of_makeRun hu (hvalid _) hpiece) .nil
      · rw [Bool.not_eq_true] at hcovered
        rw [hcovered] at hpiece h
        rw [if_neg (by simp [hcovered])]
        -- An end that is not covered is a spell of its own, if it belongs to the steps.
        cases hend : s.upperInc with
        | true =>
          rw [hend, if_pos (by rfl)] at h
          simp only [bind_eq_ok, pure_eq_ok] at h
          obtain ⟨last, hlast, rfl⟩ := h
          exact .cons (stretched_of_makeRun hu (hvalid _) hpiece)
            (.cons (stretched_of_stretchInstant (by simp) hlast) .nil)
        | false =>
          rw [hend, if_neg (by simp), bind_eq_ok] at h
          obtain ⟨more, hmore, h⟩ := h
          obtain rfl := Except.ok.inj hmore
          obtain rfl := Except.ok.inj h
          exact .cons (stretched_of_makeRun hu (hvalid _) hpiece) .nil
    | cons c rest =>
      have hempty : (c :: rest).isEmpty = false := rfl
      simp only [hempty, Bool.false_and, Bool.false_eq_true, if_false, bind_eq_ok,
        pure_eq_ok] at hpiece h
      obtain ⟨more, hmore, rfl⟩ := h
      exact .cons (stretched_of_makeRun hu (hvalid _) hpiece) (ih hrising.tail hmore)

lemma stretchSequence_spec {size : Int} {stretch : Stretch} {interp : Interpolation}
    {s : Sequence V} (hwf : s.WellFormed) (hi : interp ≠ .discrete) {pieces : List (Sequence V)}
    (h : stretchSequence ⟨.ofMicros size, stretch⟩ interp s = .ok pieces) :
    List.Forall₂ (Stretched size) s.spells pieces := by
  have hinstant : ∀ {i : Instant V} {interp' : Interpolation} {q : Sequence V},
      interp' ≠ .discrete → stretchInstant i (.ofMicros size) interp' = .ok q →
        Stretched size ⟨i.value, .singleton i.time⟩ q := fun h h' =>
    stretched_of_stretchInstant h h'
  unfold stretchSequence at h
  unfold spells
  split at h
  · rename_i hd
    rw [if_pos (by rw [hd]; rfl), List.forall₂_map_left_iff]
    exact (mapM_eq_ok.mp h).imp fun _ _ hiq => hinstant hi hiq
  · rename_i hd
    split at h
    · rename_i hone
      have hrest : s.rest = [] := by simpa [isInstantaneous] using hone
      rw [if_pos (by rw [hone, Bool.or_true])]
      simp only [bind_eq_ok, pure_eq_ok] at h
      obtain ⟨q, hq, rfl⟩ := h
      unfold instants
      rw [hrest]
      exact .cons (hinstant (by simpa [isDiscrete] using hd) hq) .nil
    · rename_i hone
      rw [if_neg (by simp [hd, hone])]
      rw [check_bind_eq_ok] at h
      have hstep : s.interp = .step := by
        have := hwf.interp_ne_linear
        have : s.interp ≠ .discrete := by simpa [isDiscrete] using hd
        cases hi : s.interp <;> simp_all
      exact stretchFrom_spec hstep hwf.rising h.2

lemma stretchedPieces_spec {size : Int} {stretch : Stretch} {s : Aggregator V} {v : Temporal V}
    (hwf : v.WellFormed) {pieces : List (Sequence V)}
    (h : s.stretchedPieces v ⟨.ofMicros size, stretch⟩ = .ok pieces) :
    List.Forall₂ (Stretched size) v.spells pieces := by
  unfold stretchedPieces at h
  simp only [bind_eq_ok, pure_eq_ok] at h
  obtain ⟨lists, hlists, rfl⟩ := h
  have hinterp : (if s.interp = some .linear then Interpolation.linear else .step) ≠ .discrete := by
    split <;> simp
  have hall := hwf.sequences
  unfold Temporal.spells
  rw [mapM_eq_ok] at hlists
  generalize v.sequences = sequences at hall hlists ⊢
  induction hlists with
  | nil => exact .nil
  | cons hp _ ih =>
    rw [List.flatMap_cons, List.flatten_cons]
    exact List.rel_append (stretchSequence_spec (hall _ (by simp)) hinterp hp)
      (ih fun q hq => hall q (by simp [hq]))

end

def plain (s : Aggregator V) : Aggregator V := { s with window := none }

lemma spliced_plain {s s' : Aggregator V} {interp : Interpolation} {pieces : List (Sequence V)}
    (h : s.spliced interp pieces = .ok s') : s.plain.spliced interp pieces = .ok s'.plain := by
  unfold spliced at h ⊢
  rw [check_bind_eq_ok] at h ⊢
  simp only [bind_eq_ok, pure_eq_ok] at h ⊢
  obtain ⟨hcheck, list, hlist, rfl⟩ := h
  exact ⟨hcheck, list, hlist, rfl⟩

lemma succeeds_merge_plain {s s' other : Aggregator V} (h : Succeeds (merge other) s s') :
    Succeeds (merge other.plain) s.plain s'.plain := by
  rw [succeeds_merge_iff] at h ⊢
  rcases h with ⟨hi, rfl⟩ | ⟨interp, hi, hok⟩
  · exact Or.inl ⟨hi, rfl⟩
  · exact Or.inr ⟨interp, hi, spliced_plain hok⟩

lemma window_of_merge {s s' other : Aggregator V} (h : Succeeds (merge other) s s') :
    s'.window = s.window := by
  rcases succeeds_merge_iff.mp h with ⟨-, rfl⟩ | ⟨interp, -, hok⟩
  · rfl
  · rw [spliced_frame hok]

section

variable [StepValue V] {total : List V → V → Prop}

lemma Folded.splicedEach {combine : V → V → Result V} (ht : Totals combine total)
    {s s' : Aggregator V} {given : List (Temporal V)} {steps : List (Sequence V)}
    (h : Folded combine total s.plain given) (hgiven : ∀ v ∈ given, v.WellFormed)
    (hsteps : ∀ q ∈ steps, q.WellFormed ∧ q.interp = .step)
    (hok : s.splicedEach steps = .ok s') :
    Folded combine total s'.plain (given ++ steps.map .sequence) ∧ s'.window = s.window := by
  induction steps generalizing s given with
  | nil =>
    obtain rfl := Except.ok.inj hok
    rw [List.map_nil, List.append_nil]
    exact ⟨h, rfl⟩
  | cons q rest ih =>
    have hfold : s.splicedEach (q :: rest) =
        s.spliced q.interp [q] >>= fun next => next.splicedEach rest := List.foldlM_cons
    rw [hfold, bind_eq_ok] at hok
    obtain ⟨next, hnext, hok⟩ := hok
    obtain ⟨hq, hstep⟩ := hsteps q (by simp)
    have hv : (Temporal.sequence q).WellFormed := hq
    have hwf : ∀ v ∈ given ++ [.sequence q], v.WellFormed := fun v hv' => by
      rcases List.mem_append.mp hv' with hv' | hv'
      · exact hgiven v hv'
      · obtain rfl := List.mem_singleton.mp hv'
        exact hv
    have hown : ownPieces (.sequence q) = [q] := by
      unfold ownPieces
      rw [if_neg (by rw [Temporal.isDiscrete, Temporal.interp, hstep]; decide)]
      rfl
    have hadded := h.spliced ht (hown ▸ kept_ownPieces hv) (hown ▸ tallies_ownPieces ht hv) hwf
      (spliced_plain hnext)
    obtain ⟨hrest, hwindow⟩ := ih hadded hwf (fun p hp => hsteps p (by simp [hp])) hok
    rw [List.map_cons, List.append_cons]
    exact ⟨hrest, hwindow.trans (by rw [spliced_frame hnext])⟩

/-- A state that has the totals of the stretched spells of all values that went into it. -/
structure Windowed (start : Aggregator V) (size : Int) (total : List V → V → Prop)
    (s : Aggregator V) (given : List (Temporal V)) : Prop where
  window_eq : s.window = start.window
  folded : ∃ steps, List.Forall₂ (Stretched size) (given.flatMap Temporal.spells) steps ∧
    Folded start.combine total s.plain (steps.map .sequence)

omit [StepValue V] in
lemma step_of_stretched {size : Int} {spells : List (Spell V)} {steps : List (Sequence V)}
    (h : List.Forall₂ (Stretched size) spells steps) :
    ∀ q ∈ steps, q.WellFormed ∧ q.interp = .step := by
  induction h with
  | nil => simp
  | cons hp _ ih => exact List.forall_mem_cons.mpr ⟨⟨hp.wellFormed, hp.interp_eq⟩, ih⟩

omit [StepValue V] in
lemma wellFormed_of_stretched {size : Int} {spells : List (Spell V)} {steps : List (Sequence V)}
    (h : List.Forall₂ (Stretched size) spells steps) :
    ∀ v ∈ steps.map Temporal.sequence, v.WellFormed := by
  intro v hv
  obtain ⟨q, hq, rfl⟩ := List.mem_map.mp hv
  exact (step_of_stretched h q hq).1

theorem Reached.windowed {start s : Aggregator V} {size : Int} {stretch : Stretch}
    {given : List (Temporal V)} (ht : Totals start.combine total)
    (hw : start.window = some ⟨.ofMicros size, stretch⟩) (h : Reached start add s given)
    (hwf : ∀ v ∈ given, v.WellFormed) : Windowed start size total s given := by
  induction h with
  | empty maxLevel heights =>
    exact ⟨rfl, [], .nil, Folded.empty (show start.plain.window = none from rfl) maxLevel heights⟩
  | @offer s s' given v _ hs ih =>
    obtain ⟨hwindow, steps, hsteps, hfolded⟩ := ih fun v hv => hwf v (by simp [hv])
    have hok := settle_eq_ok_iff.mp ((outcome_add v s).symm.trans hs)
    rw [reported_eq_ok, added, hwindow, hw] at hok
    simp only [bind_eq_ok] at hok
    obtain ⟨more, hmore, hok⟩ := hok
    have hstretched := stretchedPieces_spec (hwf v (by simp)) hmore
    obtain ⟨hnext, hwindow'⟩ := hfolded.splicedEach ht (wellFormed_of_stretched hsteps)
      (step_of_stretched hstretched) hok
    refine ⟨hwindow'.trans hwindow, steps ++ more, ?_, ?_⟩
    · rw [List.flatMap_append, List.flatMap_singleton]
      exact List.rel_append hsteps hstretched
    · rwa [List.map_append]
  | merge _ _ hs ih ih' =>
    obtain ⟨hwindow, steps, hsteps, hfolded⟩ := ih fun v hv => hwf v (by simp [hv])
    obtain ⟨-, more, hmore, hfolded'⟩ := ih' fun v hv => hwf v (by simp [hv])
    refine ⟨(window_of_merge hs).trans hwindow, steps ++ more, ?_, ?_⟩
    · rw [List.flatMap_append]
      exact List.rel_append hsteps hmore
    · rw [List.map_append]
      refine hfolded.merge ht hfolded' (fun v hv => ?_) (succeeds_merge_plain hs)
      exact (List.mem_append.mp hv).elim (wellFormed_of_stretched hsteps v)
        (wellFormed_of_stretched hmore v)

lemma Stretched.valueAt_eq {size : Int} (hsize : 0 < size) {p : Spell V} {q : Sequence V}
    (h : Stretched size p q) (t : Timestamp) :
    (Temporal.sequence q).valueAt t = p.seen size t := by
  ext x
  change q.valueAt t = some x ↔ p.seen size t = some x
  rw [h.wellFormed.valueAt_eq_some_iff, h.takes_iff, ← overlaps_trailing_iff hsize h.valid]
  unfold Spell.seen
  split
  · rename_i hseen
    simp [hseen, eq_comm]
  · rename_i hunseen
    simp [hunseen]

lemma seen_of_stretched {size : Int} (hsize : 0 < size) {spells : List (Spell V)}
    {steps : List (Sequence V)} (h : List.Forall₂ (Stretched size) spells steps) (t : Timestamp) :
    ((steps.map Temporal.sequence).filterMap fun v => v.valueAt t) =
      spells.filterMap (Spell.seen size t) := by
  induction h with
  | nil => rfl
  | cons hp _ ih =>
    rw [List.map_cons, List.filterMap_cons, List.filterMap_cons, hp.valueAt_eq hsize, ih]

omit [StepValue V] in
lemma exists_overlaps_iff {size : Int} {t : Timestamp} {inputs : List (Temporal V)} :
    (∃ v ∈ inputs, ∃ p ∈ v.spells, p.period.overlaps (trailing size t) = true) ↔
      (inputs.flatMap Temporal.spells).filterMap (Spell.seen size t) ≠ [] := by
  have hseen : ∀ p : Spell V, p.period.overlaps (trailing size t) = true ↔
      ∃ x, p.seen size t = some x := by
    intro p
    unfold Spell.seen
    split <;> simp_all
  rw [← exists_lookup_iff]
  simp only [List.mem_flatMap, hseen]
  constructor
  · rintro ⟨v, hv, p, hp, hx⟩
    exact ⟨p, ⟨v, hv, hp⟩, hx⟩
  · rintro ⟨p, ⟨v, hv, hp⟩, hx⟩
    exact ⟨v, hv, p, hp, hx⟩

theorem Reached.trails {start s : Aggregator V} {size : Int} {stretch : Stretch} (hsize : 0 < size)
    {given inputs : List (Temporal V)} (ht : Totals start.combine total)
    (hw : start.window = some ⟨.ofMicros size, stretch⟩) (h : Reached start add s given)
    (hperm : given.Perm inputs) (hwf : ∀ v ∈ inputs, v.WellFormed) :
    ∃ found, s.finish = .ok found ∧ Trails size total inputs found := by
  obtain ⟨-, steps, hsteps, hfolded⟩ :=
    h.windowed ht hw fun v hv => hwf v (hperm.mem_iff.mp hv)
  obtain ⟨found, hfinish, ha⟩ := hfolded.finish_spec (wellFormed_of_stretched hsteps)
  have hspells : ∀ t, ((steps.map Temporal.sequence).filterMap fun v => v.valueAt t).Perm
      ((inputs.flatMap Temporal.spells).filterMap (Spell.seen size t)) := fun t => by
    rw [seen_of_stretched hsize hsteps]
    exact (hperm.flatMap_right _).filterMap _
  refine ⟨found, hfinish, fun t => ?_, fun t x hx => ?_⟩
  · rw [ha.defined_iff, exists_lookup_iff, exists_overlaps_iff]
    rw [ne_eq, ne_eq, ← List.length_eq_zero_iff, (hspells t).length_eq, List.length_eq_zero_iff]
  · exact ht.perm (hspells t) (ha.total_of_eq_some t x hx)

end

lemma gather_eq_ok_iff {aggregate : Result (Aggregator V)} {s s' : Aggregator V}
    {inputs : List (Temporal V)} :
    (Aggregate.ofValues aggregate).gather s inputs = .ok s' ↔
      Succeeds (inputs.forM add) s s' := by
  rcases hout : outcome (inputs.forM add) s with ⟨r, t⟩
  have hstate : (inputs.forM (Aggregate.ofValues aggregate).add).run.run s = (r, t) := hout
  unfold Aggregate.gather Succeeds
  rw [hstate, hout]
  cases r with
  | error f => simp
  | ok u => exact ⟨fun h => by rw [Except.ok.inj h], fun h => by rw [(Prod.mk.inj h).2]⟩

lemma Reached.gather {start s s' : Aggregator V} {given inputs : List (Temporal V)}
    (h : Reached start add s given) (hs : Succeeds (inputs.forM add) s s') :
    Reached start add s' (given ++ inputs) := by
  induction inputs generalizing s given with
  | nil =>
    obtain rfl : s = s' := congrArg Prod.snd hs
    rwa [List.append_nil]
  | cons v rest ih =>
    have hcons : outcome ((v :: rest).forM add) s =
        outcome (add v >>= fun _ => rest.forM add) s := rfl
    unfold Succeeds at hs
    rw [hcons, outcome_bind] at hs
    rcases hv : outcome (add v) s with ⟨f | u, next⟩
    · rw [hv] at hs
      cases hs
    · rw [hv] at hs
      rw [List.append_cons]
      exact ih (h.offer hv) hs

/-- An aggregate that ends with the totals over a trailing window, whether the values are added to
one state or distributed over states that are merged. -/
structure Slides (aggregate : Result (Aggregator V)) (size : Int) (total : List V → V → Prop)
    (inputs : List (Temporal V)) : Prop where
  ofList : ∀ found, (Aggregate.ofValues aggregate).ofList inputs = .ok found →
    Trails size total inputs found
  reached : ∃ start, aggregate = .ok start ∧ ∀ s given, given.Perm inputs →
    Reached start add s given → ∃ found, s.finish = .ok found ∧ Trails size total inputs found

lemma slides_of_windowed [StepValue V] {combine : V → V → Result V} {crossings : Bool}
    {total : List V → V → Prop} (ht : Totals combine total) {size : Int} (hsize : 0 < size)
    {stretch : Stretch} {inputs : List (Temporal V)} (hwf : ∀ v ∈ inputs, v.WellFormed) :
    Slides ((ofCombine combine crossings).windowed (.ofMicros size) stretch) size total inputs := by
  have hstart : (ofCombine combine crossings).windowed (.ofMicros size) stretch =
      .ok { ofCombine combine crossings with window := some ⟨.ofMicros size, stretch⟩ } := by
    have hpositive : Interval.zero < .ofMicros size := by
      change (0 : Int) < size * 1000
      omega
    unfold windowed
    rw [decide_eq_true hpositive]
    rfl
  rw [hstart]
  have hreached : ∀ s given, given.Perm inputs →
      Reached { ofCombine combine crossings with window := some ⟨.ofMicros size, stretch⟩ } add s
        given → ∃ found, s.finish = .ok found ∧ Trails size total inputs found :=
    fun s given hperm h => h.trails hsize ht rfl hperm hwf
  refine ⟨fun found hfound => ?_, _, rfl, hreached⟩
  unfold Aggregate.ofList at hfound
  simp only [bind_eq_ok] at hfound
  obtain ⟨start, hstart', s, hs, hfinish⟩ := hfound
  obtain rfl := Except.ok.inj hstart'
  obtain ⟨found', hfinish', htrails⟩ := hreached s inputs (.refl _)
    ((Reached.empty _ _).gather (gather_eq_ok_iff.mp hs))
  obtain rfl := Except.ok.inj (hfinish'.symm.trans hfinish)
  exact htrails

/-- Aggregates of integers over a trailing window are pointwise: at each timestamp they have the
least value, the greatest value or the sum of the values of exactly those spells that the window
meets, and they are defined where it meets any. -/
theorem window_aggregation_pointwise {size : Int} (hsize : 0 < size)
    {inputs : List (Temporal Integer)} (hwf : ∀ v ∈ inputs, v.WellFormed) :
    Slides (windowMinimum (.ofMicros size)) size (fun xs x => x ∈ xs ∧ ∀ y ∈ xs, x.val ≤ y.val)
        inputs ∧
      Slides (windowMaximum (.ofMicros size)) size (fun xs x => x ∈ xs ∧ ∀ y ∈ xs, y.val ≤ x.val)
        inputs ∧
      Slides (windowSum (.ofMicros size)) size (fun xs x => x.val = (xs.map Signed.val).sum)
        inputs :=
  ⟨slides_of_windowed totals_minimum hsize hwf, slides_of_windowed totals_maximum hsize hwf,
    slides_of_windowed totals_sum hsize hwf⟩

lemma exists_added_piece [StepValue V] {s : Aggregator V} {v : Temporal V} {w : Window}
    {q : Sequence V} (hrow : Row q.interp s.list) (hempty : s.pieces = []) (hi : s.interp = none)
    (hw : s.window = some w) (hq : s.stretchedPieces v w = .ok [q]) (hwf : q.WellFormed) :
    ∃ s', Succeeds (add v) s s' := by
  obtain ⟨list, hlist⟩ : ∃ list, s.list.splice [q] (if q.interp == .discrete then
      mergeInstants s.combine else mergeSequences s.combine s.crossings) = .ok list :=
    SkipList.exists_splice (hrow.searchable hwf) fun run hrun hsub =>
      absurd (List.sublist_nil.mp (hempty ▸ hsub : run.Sublist [])) hrun
  have hspliced : s.spliced q.interp [q] = .ok { s with list, interp := some q.interp } :=
    check_bind_eq_ok.mpr ⟨checkInterp_eq_ok_iff.mpr (by simp [hi]),
      bind_eq_ok.mpr ⟨list, hlist, rfl⟩⟩
  have hadded : s.added v = s.stretchedPieces v w >>= s.splicedEach := by
    unfold added
    rw [hw]
  have hnext : s.added v = .ok { s with list, interp := some q.interp } :=
    hadded.trans (bind_eq_ok.mpr ⟨[q], hq, bind_eq_ok.mpr ⟨_, hspliced, rfl⟩⟩)
  refine ⟨{ s with list, interp := some q.interp }, (outcome_add v s).trans ?_⟩
  rw [hnext]
  rfl

/-- A step that keeps the number seven for ten microseconds. -/
def sevens : Temporal Integer :=
  .sequence (.ofRun ⟨.clamp 7, .nearest 0⟩ [⟨.clamp 7, .nearest 10⟩] true true .step)

example : sevens.spells = [⟨.clamp 7, ⟨.nearest 0, .nearest 10, true, true⟩⟩] := rfl

lemma sevens_wellFormed : sevens.WellFormed := by
  change Sequence.check _ _ _ _ _ = _
  rfl

def shortSum : Aggregator Integer := { sum with window := some ⟨.ofMicros 5, .steps⟩ }

lemma exists_added_sevens : ∃ s, Succeeds (add sevens) shortSum s := by
  have hempty : Folded NumericValue.add (fun _ _ => True) (sum : Aggregator Integer) [] :=
    Folded.empty (show (sum : Aggregator Integer).window = none from rfl) _ _
  exact exists_added_piece (s := shortSum) (v := sevens) (w := ⟨.ofMicros 5, .steps⟩)
    (q := .ofRun ⟨.clamp 7, .nearest 0⟩ [⟨.clamp 7, .nearest 15⟩] true true .step)
    (hempty.row .step (by simp [sum, ofCombine])) rfl rfl rfl rfl rfl

/-- The window sees the sevens until five microseconds after they end. -/
theorem sevens_trail : ∃ found : Option (Temporal Integer),
    (Aggregate.ofValues (windowSum (.ofMicros 5))).ofList [sevens] = .ok found ∧
      (found.bind fun r => r.valueAt (.nearest 15)) = some (.clamp 7 : Integer) ∧
      (found.bind fun r => r.valueAt (.nearest 16)) = none := by
  obtain ⟨htrails, start, hstart, hreached⟩ := (window_aggregation_pointwise
    (show (0 : Int) < 5 by decide) (List.forall_mem_singleton.mpr sevens_wellFormed)).2.2
  obtain rfl : shortSum = start := Except.ok.inj hstart
  obtain ⟨s, hadd⟩ := exists_added_sevens
  obtain ⟨found, hfinish, -⟩ := hreached s [sevens] (.refl _) ((Reached.empty _ _).offer hadd)
  have hgather : Succeeds ([sevens].forM add) shortSum s :=
    (outcome_bind (add sevens) _ _).trans (by rw [hadd]; rfl)
  have hfound : (Aggregate.ofValues (windowSum (.ofMicros 5))).ofList [sevens] = .ok found :=
    bind_eq_ok.mpr ⟨_, hstart, bind_eq_ok.mpr ⟨s, gather_eq_ok_iff.mpr hgather, hfinish⟩⟩
  refine ⟨found, hfound, ?_, ?_⟩
  · obtain ⟨x, hx⟩ := ((htrails found hfound).defined_iff (.nearest 15)).mpr
      ⟨sevens, by simp, _, List.mem_singleton.mpr rfl, by decide⟩
    have hsum : x.val = 7 := (htrails found hfound).total_of_eq_some _ x hx
    rw [hx, ← Signed.clamp_val x, hsum]
  · refine Option.eq_none_iff_forall_ne_some.mpr fun x hx => ?_
    obtain ⟨v, hv, p, hp, hover⟩ :=
      ((htrails found hfound).defined_iff (.nearest 16)).mp ⟨x, hx⟩
    obtain rfl := List.mem_singleton.mp hv
    obtain rfl := List.mem_singleton.mp hp
    exact absurd hover (by decide)

end Aggregator

end TemporalAlgebra
