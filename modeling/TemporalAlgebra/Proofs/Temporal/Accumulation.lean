import Mathlib.Data.List.SplitBy
import TemporalAlgebra.Proofs.Temporal.Appending
import TemporalAlgebra.Proofs.Temporal.Rebuilding

/-!
# Values accumulated instant by instant

Instants that arrive one by one end up in the value that is built from all of them at once.
Appending looks at the last three instants only, building leaves out what adds nothing from the
first instant on: both keep the same ones of a run, both start a new run at the same gaps, and both
are given up where a run has instants on a line that are too far apart to be compared.
-/
namespace TemporalAlgebra

section

variable {α : Type} {joins : α → α → Bool}

lemma splitBy_concat_of_joins {as : List α} {runs : List (List α)} {run : List α} {a b : α}
    (hsplit : as.splitBy joins = runs ++ [run]) (ha : run.getLast? = some a)
    (h : joins a b = true) : (as ++ [b]).splitBy joins = runs ++ [run ++ [b]] := by
  obtain ⟨rfl, hne, hchain, hbreaks⟩ := List.splitBy_eq_iff.mp hsplit
  have hrun : run ≠ [] := by
    rintro rfl
    simp at ha
  rw [List.splitBy_eq_iff]
  refine ⟨by simp, ?_, ?_, ?_⟩
  · simp only [List.mem_append, List.mem_singleton, not_or] at hne ⊢
    exact ⟨hne.1, (List.append_ne_nil_of_right_ne_nil _ (by simp)).symm⟩
  · intro r hr
    rcases List.mem_append.mp hr with hr | hr
    · exact hchain r (List.mem_append_left _ hr)
    · obtain rfl := List.mem_singleton.mp hr
      refine (hchain run (by simp)).append (List.isChain_singleton _) fun x hx y hy => ?_
      obtain rfl : a = x := Option.mem_unique ha hx
      obtain rfl : b = y := by simpa using hy
      exact h
  · rw [List.isChain_append] at hbreaks ⊢
    refine ⟨hbreaks.1, List.isChain_singleton _, fun x hx y hy => ?_⟩
    obtain ⟨hx', _, hbreak⟩ := hbreaks.2.2 x hx run (by simp)
    obtain rfl : run ++ [b] = y := by simpa using hy
    exact ⟨hx', by simp, by rwa [List.head_append_of_ne_nil hrun]⟩

lemma splitBy_concat_of_not_joins {as : List α} {runs : List (List α)} {run : List α} {a b : α}
    (hsplit : as.splitBy joins = runs ++ [run]) (ha : run.getLast? = some a)
    (h : joins a b = false) : (as ++ [b]).splitBy joins = runs ++ [run, [b]] := by
  have hlast : as.getLast? = some a := by
    rw [(List.splitBy_eq_iff.mp hsplit).1, List.flatten_append, List.flatten_singleton,
      List.getLast?_append, ha]
    rfl
  rw [List.splitBy_append_cons [] fun x hx => ?_, hsplit,
    List.splitBy_of_isChain (by simp) (List.isChain_singleton _), List.append_assoc]
  · rfl
  · obtain rfl : a = x := Option.mem_unique hlast hx
    exact h

lemma splitBy_concat {as : List α} {runs : List (List α)} {run : List α} {a b : α}
    (hsplit : as.splitBy joins = runs ++ [run]) (ha : run.getLast? = some a) :
    (as ++ [b]).splitBy joins =
      if joins a b then runs ++ [run ++ [b]] else runs ++ [run, [b]] := by
  cases h : joins a b with
  | true => rw [splitBy_concat_of_joins hsplit ha h, if_pos rfl]
  | false => rw [splitBy_concat_of_not_joins hsplit ha h, if_neg Bool.false_ne_true]

lemma exists_last_run (joins : α → α → Bool) {as : List α} (h : as ≠ []) :
    ∃ runs run a, as.splitBy joins = runs ++ [run] ∧ run.getLast? = some a := by
  obtain ⟨runs, run, hruns⟩ :=
    (List.eq_nil_or_concat' _).resolve_left (List.splitBy_ne_nil.mpr h)
  have hrun : run ≠ [] := List.ne_nil_of_mem_splitBy (by rw [hruns]; simp)
  obtain ⟨a, ha⟩ := Option.ne_none_iff_exists'.mp (mt List.getLast?_eq_none_iff.mp hrun)
  exact ⟨runs, run, a, hruns, ha⟩

lemma forall₂_concat_left {β : Type} {related : α → β → Prop} {as : List α} {a : α} {bs : List β}
    (h : List.Forall₂ related (as ++ [a]) bs) :
    ∃ front b, bs = front ++ [b] ∧ List.Forall₂ related as front ∧ related a b := by
  rw [← List.forall₂_reverse_iff, List.reverse_append, List.reverse_singleton,
    List.singleton_append, List.forall₂_cons_left_iff] at h
  obtain ⟨b, back, hab, hback, hbs⟩ := h
  refine ⟨back.reverse, b, ?_, ?_, hab⟩
  · rw [← List.reverse_reverse bs, hbs, List.reverse_cons]
  · rw [← List.forall₂_reverse_iff, List.reverse_reverse]
    exact hback

end

variable {V : Type} [TemporalValue V]

/-- Whether an instant goes into the sequence that ends with another one. -/
def GapLimits.joins (limits : GapLimits) (interp : Interpolation) (a b : Instant V) : Bool :=
  interp == .discrete || !limits.exceeded a b

namespace Sequence

lemma normalize_cons_cons (interp : Interpolation) (a m b : Instant V)
    (rest : List (Instant V)) : normalize interp a (m :: b :: rest) = (do
      if ← redundant interp a m b then normalize interp a (b :: rest)
      else return m :: (← normalize interp m (b :: rest))) := by
  rw [normalize]

/-- What is left of a run with one more instant only depends on what was left of the run. -/
lemma normalize_concat (interp : Interpolation) (a i : Instant V) (rest : List (Instant V)) :
    normalize interp a (rest ++ [i]) = normalize interp a rest >>= extend interp a i := by
  induction rest generalizing a with
  | nil => rfl
  | cons m rest ih =>
    cases rest with
    | nil =>
      change (do if ← redundant interp a m i then return [i] else return [m, i]) =
        (do return if ← redundant interp a m i then [i] else [m, i])
      cases redundant interp a m i with
      | error f => rfl
      | ok drop => cases drop <;> rfl
    | cons b rest =>
      rw [List.cons_append, List.cons_append, normalize_cons_cons, normalize_cons_cons,
        ← List.cons_append]
      cases redundant interp a m b with
      | error f => rfl
      | ok drop =>
        cases drop with
        | true => exact ih a
        | false =>
          change (normalize interp m (b :: rest ++ [i]) >>= fun found => .ok (m :: found)) =
            (normalize interp m (b :: rest) >>= fun found => .ok (m :: found)) >>= extend interp a i
          rw [ih m, bind_assoc, bind_assoc]
          cases hfound : normalize interp m (b :: rest) with
          | error f => rfl
          | ok found =>
            -- something is kept, so that the new instant is compared with what is kept
            have hne : found ≠ [] := by
              rw [eq_kept_of_normalize hfound]
              exact kept_ne_nil interp m (List.cons_ne_nil b rest)
            obtain ⟨n, more, rfl⟩ := List.exists_cons_of_ne_nil hne
            rfl

/-- A sequence of those instants of a run that add something. -/
def Condenses (interp : Interpolation) (run : List (Instant V)) (s : Sequence V) : Prop :=
  ∃ a rest found, run = a :: rest ∧ normalize interp a rest = .ok found ∧
    s.rebuilt = ofRun a found true true interp

/-- It cannot be told which instants of a run add something. -/
def GivenUp (interp : Interpolation) (run : List (Instant V)) : Prop :=
  ∃ a rest, run = a :: rest ∧ normalize interp a rest = .error .aborted

lemma GivenUp.concat {interp : Interpolation} {run : List (Instant V)} (h : GivenUp interp run)
    (i : Instant V) : GivenUp interp (run ++ [i]) := by
  obtain ⟨a, rest, rfl, h⟩ := h
  exact ⟨a, rest ++ [i], rfl, (normalize_concat interp a i rest).trans (bind_of_error h)⟩

/-- A short run is not given up. -/
lemma not_givenUp {interp : Interpolation} {a : Instant V} {rest : List (Instant V)}
    (hrising : (a :: rest).Pairwise Instant.Precedes) (h : ShortRun interp a rest) :
    ¬GivenUp interp (a :: rest) := by
  rintro ⟨b, more, heq, hup⟩
  obtain ⟨rfl, rfl⟩ := List.cons.inj heq
  exact completes_normalize hrising h hup

namespace Condenses

variable {interp : Interpolation} {run : List (Instant V)} {s t : Sequence V}

lemma rebuilt_eq (hs : Condenses interp run s) (ht : Condenses interp run t) :
    s.rebuilt = t.rebuilt := by
  obtain ⟨a, rest, found, rfl, hfound, hs⟩ := hs
  obtain ⟨b, others, more, heq, hmore, ht⟩ := ht
  obtain ⟨rfl, rfl⟩ := List.cons.inj heq
  rw [hs, ht, Except.ok.inj (hfound.symm.trans hmore)]

lemma not_givenUp (h : Condenses interp run s) : ¬GivenUp interp run := by
  rintro ⟨b, others, rfl, hup⟩
  obtain ⟨a, rest, found, heq, hfound, -⟩ := h
  obtain ⟨rfl, rfl⟩ := List.cons.inj heq
  rw [hup] at hfound
  cases hfound

lemma interp_eq (h : Condenses interp run s) : s.interp = interp := by
  obtain ⟨a, rest, found, rfl, -, h⟩ := h
  exact congrArg Sequence.interp h

lemma upperInc (h : Condenses interp run s) : s.upperInc = true := by
  obtain ⟨a, rest, found, rfl, -, h⟩ := h
  exact congrArg Sequence.upperInc h

lemma lowerInc (h : Condenses interp run s) : s.lowerInc = true := by
  obtain ⟨a, rest, found, rfl, -, h⟩ := h
  exact congrArg Sequence.lowerInc h

lemma head?_eq (h : Condenses interp run s) : run.head? = some s.first := by
  obtain ⟨a, rest, found, rfl, -, h⟩ := h
  exact congrArg some (congrArg Sequence.first h).symm

lemma instants_subset (h : Condenses interp run s) : ∀ i ∈ s.instants, i ∈ run := by
  obtain ⟨a, rest, found, rfl, hfound, h⟩ := h
  have hinstants : s.instants = a :: found := congrArg Sequence.instants h
  rw [hinstants, eq_kept_of_normalize hfound]
  exact ((kept_sublist interp a rest).cons_cons a).subset

lemma ofInstant (interp : Interpolation) (i : Instant V) :
    Condenses interp [i] (ofInstant i interp) := ⟨i, [], [], rfl, rfl, rfl⟩

lemma reserve (h : Condenses interp run s) (capacity : Nat) :
    Condenses interp run (s.reserve capacity) := h

/-- One more instant is pushed, or given up with the run that it makes. -/
lemma push (h : Condenses interp run s) (i : Instant V) (config : AppendConfig) :
    (∃ t, s.push i config = .ok t ∧ Condenses interp (run ++ [i]) t) ∨
      s.push i config = .error .aborted ∧ GivenUp interp (run ++ [i]) := by
  obtain ⟨a, rest, found, rfl, hfound, h⟩ := h
  obtain ⟨hfirst, hrest, hlower, -, hinterp, -⟩ := Sequence.mk.inj h
  have hextend : normalize interp a (rest ++ [i]) = extend s.interp s.first i s.rest := by
    rw [normalize_concat, bind_of_ok hfound, hfirst, hrest, hinterp]
  unfold Sequence.push
  cases hlonger : extend s.interp s.first i s.rest with
  | ok longer =>
    refine Or.inl ⟨_, rfl, a, rest ++ [i], longer, rfl, hextend.trans hlonger, ?_⟩
    change ofRun s.first longer s.lowerInc true s.interp = _
    rw [hfirst, hlower, hinterp]
  | error f =>
    obtain rfl := unrefused_normalize interp a (rest ++ [i]) f (hextend.trans hlonger)
    exact Or.inr ⟨rfl, a, rest ++ [i], rfl, hextend.trans hlonger⟩

lemma getLast?_eq [LawfulValue V] (h : Condenses interp run s) :
    run.getLast? = some s.last := by
  obtain ⟨a, rest, found, rfl, hfound, h⟩ := h
  have hlast : s.last = found.getLastD a := congrArg Sequence.last h
  rw [hlast, eq_kept_of_normalize hfound, getLastD_kept, List.getLast?_cons,
    List.getLastD_eq_getLast?]

end Condenses

/-- A run is made into a sequence, or given up. -/
lemma make_ends [LawfulValue V] {interp : Interpolation} {run : List (Instant V)} (hne : run ≠ [])
    (hlinear : interp = .linear → TemporalValue.continuous V = true)
    (hrising : run.Pairwise Instant.Precedes) :
    (∃ s, make run true true interp true = .ok s ∧ Condenses interp run s) ∨
      make run true true interp true = .error .aborted ∧ GivenUp interp run := by
  obtain ⟨a, rest, rfl⟩ := List.exists_cons_of_ne_nil hne
  have hcheck : check a rest true true interp = .ok () := check_eq_ok_iff.mpr
    ⟨hlinear, hrising, fun _ => ⟨rfl, rfl⟩, fun _ hu => absurd hu (by simp)⟩
  change (∃ s, makeRun a rest true true interp true = .ok s ∧ _) ∨
    makeRun a rest true true interp true = .error .aborted ∧ _
  unfold makeRun
  rw [bind_of_ok hcheck, if_pos rfl]
  cases hfound : normalize interp a rest with
  | ok found => exact Or.inl ⟨_, rfl, a, rest, found, rfl, hfound, rfl⟩
  | error f =>
    obtain rfl := unrefused_normalize interp a rest f hfound
    exact Or.inr ⟨rfl, a, rest, rfl, hfound⟩

lemma mapM_make_ends [LawfulValue V] {interp : Interpolation} {runs : List (List (Instant V))}
    (hne : ∀ run ∈ runs, run ≠ []) (hlinear : interp = .linear → TemporalValue.continuous V = true)
    (hrising : ∀ run ∈ runs, run.Pairwise Instant.Precedes) :
    (∃ pieces, runs.mapM (fun run => make run true true interp true) = .ok pieces ∧
      List.Forall₂ (Condenses interp) runs pieces) ∨
      runs.mapM (fun run => make run true true interp true) = .error .aborted ∧
        ∃ run ∈ runs, GivenUp interp run := by
  induction runs with
  | nil => exact Or.inl ⟨[], rfl, .nil⟩
  | cons run runs ih =>
    rw [List.forall_mem_cons] at hne hrising
    rw [List.mapM_cons]
    rcases make_ends hne.1 hlinear hrising.1 with ⟨s, hs, hcondenses⟩ | ⟨hs, hup⟩
    · rw [bind_of_ok hs]
      rcases ih hne.2 hrising.2 with ⟨pieces, hpieces, hmore⟩ | ⟨hpieces, run', hrun', hup⟩
      · exact Or.inl ⟨s :: pieces, bind_of_ok hpieces, .cons hcondenses hmore⟩
      · exact Or.inr ⟨bind_of_error hpieces, run', List.mem_cons_of_mem _ hrun', hup⟩
    · exact Or.inr ⟨bind_of_error hs, run, List.mem_cons_self .., hup⟩

lemma exists_run_of_mem {interp : Interpolation} {runs : List (List (Instant V))}
    {pieces : List (Sequence V)} (h : List.Forall₂ (Condenses interp) runs pieces)
    {s : Sequence V} (hs : s ∈ pieces) : ∃ run ∈ runs, Condenses interp run s := by
  induction h with
  | nil => simp at hs
  | cons hrun _ ih =>
    rcases List.mem_cons.mp hs with rfl | hs
    · exact ⟨_, by simp, hrun⟩
    · obtain ⟨run, hmem, hrun⟩ := ih hs
      exact ⟨run, by simp [hmem], hrun⟩

lemma map_rebuilt_eq {interp : Interpolation} {runs : List (List (Instant V))}
    {pieces others : List (Sequence V)} (h : List.Forall₂ (Condenses interp) runs pieces)
    (h' : List.Forall₂ (Condenses interp) runs others) :
    pieces.map rebuilt = others.map rebuilt := by
  induction h generalizing others with
  | nil =>
    rw [List.forall₂_nil_left_iff.mp h']
  | cons hs _ ih =>
    obtain ⟨t, others, ht, hmore, rfl⟩ := List.forall₂_cons_left_iff.mp h'
    rw [List.map_cons, List.map_cons, hs.rebuilt_eq ht, ih hmore]

lemma append?_eq {s : Sequence V} {i : Instant V} (h : s.last.Precedes i) (limits : GapLimits)
    (config : AppendConfig) : s.append? i limits config =
      if limits.joins s.interp s.last i then some <$> s.push i config else .ok none := by
  unfold append? GapLimits.joins
  rw [if_neg (by rw [Timestamp.lt_iff]; exact h.1.le.not_gt),
    if_neg (by rw [Timestamp.eq_iff]; exact h.1.ne')]
  change (if (!(s.interp == .discrete) && limits.exceeded s.last i) then _ else _) = _
  rw [map_eq_pure_bind]
  cases s.interp == .discrete <;> cases limits.exceeded s.last i <;> rfl

/-- An instant after the end of a sequence goes into its run, unless that is given up with it, or
starts a new run. -/
lemma Condenses.append_ends {interp : Interpolation} {s : Sequence V} {run : List (Instant V)}
    {i : Instant V} (h : Condenses interp run s) (hi : s.last.Precedes i) (limits : GapLimits)
    (config : AppendConfig) :
    (∃ t, s.append? i limits config = .ok (some t) ∧ limits.joins interp s.last i = true ∧
      Condenses interp (run ++ [i]) t) ∨
    (s.append? i limits config = .error .aborted ∧ limits.joins interp s.last i = true ∧
      GivenUp interp (run ++ [i])) ∨
    s.append? i limits config = .ok none ∧ limits.joins interp s.last i = false := by
  rw [append?_eq hi, h.interp_eq]
  cases limits.joins interp s.last i with
  | true =>
    rw [if_pos rfl]
    rcases h.push i config with ⟨t, ht, hcondenses⟩ | ⟨ht, hup⟩
    · exact .inl ⟨t, by rw [ht]; rfl, rfl, hcondenses⟩
    · exact .inr (.inl ⟨by rw [ht]; rfl, rfl, hup⟩)
  | false => exact .inr (.inr ⟨rfl, rfl⟩)

lemma Condenses.last_eq [LawfulValue V] {interp : Interpolation} {s : Sequence V}
    {run : List (Instant V)} {last : Instant V} (h : Condenses interp run s) (hlast : run.getLast? = some last) : s.last = last := by
  rw [h.getLast?_eq] at hlast
  exact Option.some.inj hlast

end Sequence

namespace SequenceSet

open Sequence

variable {interp : Interpolation}

lemma isChain_of_closed {pieces : List (Sequence V)}
    (hclosed : ∀ s ∈ pieces, s.lowerInc = true ∧ s.upperInc = true) :
    pieces.IsChain fun x y => joined x y = none := by
  have hpair : pieces.Pairwise fun x y => joined x y = none := by
    refine List.pairwise_of_forall_mem_list fun x hx y hy => ?_
    unfold joined
    rw [(hclosed x hx).2, (hclosed y hy).1]
    simp
  exact hpair.isChain

lemma make_eq_ofRun_of_closed {a : Sequence V} {rest : List (Sequence V)} (interp : Interpolation)
    (hinterp : ∀ s ∈ a :: rest, s.interp = interp) (hcontinuous : interp ≠ .discrete)
    (hclosed : ∀ s ∈ a :: rest, s.lowerInc = true ∧ s.upperInc = true)
    (hrising : (a :: rest).IsChain Follows) (normalizing : Bool) :
    make (a :: rest) normalizing = .ok (ofRun a rest) := by
  refine make_cons_eq_ok_iff.mpr ⟨checkKinds_eq_ok_iff.mpr fun s hs => ⟨?_, ?_⟩,
    checkRising_eq_ok_iff.mpr hrising, (a, rest), ?_, rfl⟩
  · rw [hinterp s hs, hinterp a (by simp)]
  · rw [isDiscrete_eq_false_iff, hinterp s hs]
    exact hcontinuous
  · cases normalizing with
    | false => rfl
    | true => exact join_eq_self (isChain_of_closed hclosed)

/-- An instant after the end of a set goes into its last run, or starts a new run, unless the last
run is given up with it. -/
lemma append_ends [LawfulValue V] {s : SequenceSet V} {runs : List (List (Instant V))}
    {run : List (Instant V)} {last i : Instant V}
    (h : List.Forall₂ (Condenses interp) (runs ++ [run]) s.sequences)
    (hlast : run.getLast? = some last) (hi : last.Precedes i) (limits : GapLimits)
    (config : AppendConfig) :
    (∃ longer, s.append i limits config = .ok longer ∧ List.Forall₂ (Condenses interp)
      (if limits.joins interp last i then runs ++ [run ++ [i]] else runs ++ [run, [i]])
      longer.sequences) ∨
    s.append i limits config = .error .aborted ∧ limits.joins interp last i = true ∧
      GivenUp interp (run ++ [i]) := by
  obtain ⟨before, hbefore, hreplaced⟩ := s.sequences_replaceLast
  rw [hbefore] at h
  obtain ⟨front, x, hfront, hruns, hx⟩ := forall₂_concat_left h
  obtain ⟨rfl, hlastx⟩ := List.append_inj' hfront rfl
  obtain rfl := List.singleton_inj.mp hlastx
  obtain rfl : s.last.last = last := hx.last_eq hlast
  unfold append
  rcases hx.append_ends hi limits config with ⟨t, ht, hjoins, hcondenses⟩ | ⟨ht, hjoins, hup⟩ |
    ⟨ht, hjoins⟩
  · rw [bind_of_ok ht, hjoins, if_pos rfl]
    refine Or.inl ⟨_, rfl, ?_⟩
    rw [hreplaced]
    exact List.rel_append hruns (.cons hcondenses .nil)
  · rw [bind_of_error ht]
    exact Or.inr ⟨rfl, hjoins, hup⟩
  · rw [bind_of_ok ht, hjoins, if_neg Bool.false_ne_true]
    refine Or.inl ⟨_, rfl, ?_⟩
    rw [hreplaced, hx.interp_eq]
    exact List.rel_append hruns (.cons hx (.cons (Condenses.ofInstant interp i) .nil))

end SequenceSet

namespace Temporal

open Sequence SequenceSet

def appendAll (v : Temporal V) (instants : List (Instant V)) (interp : Interpolation)
    (limits : GapLimits) (config : AppendConfig) : Result (Temporal V) :=
  instants.foldlM (fun v i => v.appendInstant i interp limits config) v

lemma appendAll_concat (v : Temporal V) (instants : List (Instant V)) (i : Instant V)
    (interp : Interpolation) (limits : GapLimits) (config : AppendConfig) :
    appendAll v (instants ++ [i]) interp limits config = (do
      (← appendAll v instants interp limits config).appendInstant i interp limits config) := by
  unfold appendAll
  rw [List.foldlM_append]
  simp only [List.foldlM_cons, List.foldlM_nil, bind_pure]

/-- A value of runs of instants: each run is a sequence without the instants that add nothing. A
single instant may stand alone. -/
inductive Comprises (interp : Interpolation) : List (List (Instant V)) → Temporal V → Prop
  | instant (i : Instant V) : Comprises interp [[i]] (instant i)
  | sequence {run : List (Instant V)} {s : Sequence V} (h : Condenses interp run s) :
    Comprises interp [run] (sequence s)
  | sequenceSet {runs : List (List (Instant V))} {s : SequenceSet V}
    (h : List.Forall₂ (Condenses interp) runs s.sequences) (hmany : 1 < runs.length) :
    Comprises interp runs (sequenceSet s)

/-- How a value of runs of instants is built: it comprises the runs, or one of them is given up. -/
inductive Accumulates (interp : Interpolation) (runs : List (List (Instant V))) :
    Result (Temporal V) → Prop
  | comprised {v : Temporal V} (h : Comprises interp runs v) : Accumulates interp runs (.ok v)
  | givenUp {run : List (Instant V)} (hmem : run ∈ runs) (h : GivenUp interp run) :
    Accumulates interp runs (.error .aborted)

variable {interp : Interpolation} {limits : GapLimits} {config : AppendConfig}

lemma Accumulates.reported {runs : List (List (Instant V))} {r : Result (Temporal V)}
    (h : Accumulates interp runs r) : Accumulates interp runs (reported r) := by
  cases h with
  | comprised h => exact .comprised h
  | givenUp hmem h => exact .givenUp hmem h

lemma Comprises.not_givenUp {runs : List (List (Instant V))} {v : Temporal V}
    (h : Comprises interp runs v) : ∀ run ∈ runs, ¬GivenUp interp run := by
  intro run hrun
  cases h with
  | instant i =>
    rw [List.mem_singleton.mp hrun]
    exact (Condenses.ofInstant interp i).not_givenUp
  | sequence h =>
    rw [List.mem_singleton.mp hrun]
    exact h.not_givenUp
  | sequenceSet h _ =>
    obtain ⟨s, -, hs⟩ := exists_of_mem_left h hrun
    exact hs.not_givenUp

/-- Two values of the same runs are both built or both given up. -/
lemma Accumulates.ends {runs : List (List (Instant V))} {r r' : Result (Temporal V)}
    (h : Accumulates interp runs r) (h' : Accumulates interp runs r') :
    (r = .error .aborted ∧ r' = .error .aborted ∧ ∃ run ∈ runs, GivenUp interp run) ∨
      ∃ v w, r = .ok v ∧ r' = .ok w ∧ Comprises interp runs v ∧ Comprises interp runs w := by
  cases h with
  | comprised h =>
    cases h' with
    | comprised h' => exact Or.inr ⟨_, _, rfl, rfl, h, h'⟩
    | givenUp hmem hup => exact absurd hup (h.not_givenUp _ hmem)
  | givenUp hmem hup =>
    cases h' with
    | comprised h' => exact absurd hup (h'.not_givenUp _ hmem)
    | givenUp _ _ => exact Or.inl ⟨rfl, rfl, _, hmem, hup⟩

lemma Comprises.instants_subset {runs : List (List (Instant V))} {v : Temporal V}
    (h : Comprises interp runs v) : ∀ i ∈ v.instants, i ∈ runs.flatten := by
  intro i hi
  cases h with
  | instant j => exact hi
  | sequence h =>
    rw [List.flatten_singleton]
    exact h.instants_subset i hi
  | sequenceSet h _ =>
    obtain ⟨s, hs, hi⟩ := mem_instants_iff.mp hi
    obtain ⟨run, hrun, hs⟩ := exists_run_of_mem h hs
    exact List.mem_flatten.mpr ⟨run, hrun, hs.instants_subset i hi⟩

lemma Comprises.exists_sequence {run : List (Instant V)} {v : Temporal V}
    (h : Comprises interp [run] v) (hmany : 1 < run.length) :
    ∃ s, v = Temporal.sequence s ∧ Condenses interp run s := by
  cases h with
  | instant i => exact absurd hmany (by simp)
  | sequence h => exact ⟨_, rfl, h⟩
  | sequenceSet _ h => exact absurd h (by simp)

lemma Comprises.rebuilt_eq {runs : List (List (Instant V))} {v w : Temporal V}
    (hv : Comprises interp runs v) (hw : Comprises interp runs w)
    (hmany : 1 < runs.flatten.length) : v.rebuilt = w.rebuilt := by
  cases hv with
  | instant i => exact absurd hmany (by simp)
  | @sequence run s hs =>
    cases hw with
    | instant i => exact absurd hmany (by simp)
    | sequence ht => exact congrArg Temporal.sequence (hs.rebuilt_eq ht)
    | sequenceSet _ h => exact absurd h (by simp)
  | sequenceSet hs h =>
    cases hw with
    | instant i => exact absurd hmany (by simp)
    | sequence _ => exact absurd h (by simp)
    | sequenceSet ht _ =>
      exact congrArg Temporal.sequenceSet (SequenceSet.rebuilt_eq_iff.mpr (map_rebuilt_eq hs ht))

lemma exists_make_pair {run : List (Instant V)} {s : Sequence V} {i : Instant V}
    (hs : Condenses interp run s) (hi : s.last.Precedes i) (hcontinuous : interp ≠ .discrete) :
    ∃ set, SequenceSet.make [s, .ofInstant i interp] false = .ok set ∧
      Comprises interp [run, [i]] (Temporal.sequenceSet set) := by
  have hi' := Condenses.ofInstant interp i
  refine ⟨_, make_eq_ofRun_of_closed interp ?_ hcontinuous ?_ ?_ false,
    .sequenceSet (.cons hs (.cons hi' .nil)) Nat.one_lt_two⟩
  · simp [hs.interp_eq, hi'.interp_eq]
  · simp [hs.lowerInc, hs.upperInc, hi'.lowerInc, hi'.upperInc]
  · refine List.isChain_cons_cons.mpr ⟨⟨?_, hi.2⟩, List.isChain_singleton _⟩
    unfold Before
    rw [hi_eq, lo_eq, hs.upperInc, hi'.lowerInc]
    have hfirst : (Sequence.ofInstant i interp).first = i := rfl
    simpa [hfirst] using hi.1

section

variable [LawfulValue V]

/-- A single instant followed by another one. -/
lemma appendToInstant_spec (limits : GapLimits) (config : AppendConfig) {first i : Instant V}
    (hi : first.Precedes i) (hlinear : interp = .linear → TemporalValue.continuous V = true) :
    ∃ v, appendToInstant first i interp limits config = .ok v ∧
      Comprises interp
        (if limits.joins interp first i then [[first, i]] else [[first], [i]]) v := by
  have hstart : makeRun first [] true true interp false = .ok (ofRun first [] true true interp) :=
    makeRun_eq_ok (wellFormed_iff.mp (wellFormed_ofInstant first hlinear))
  have hboth :
      makeRun first [i] true true interp false = .ok (ofRun first [i] true true interp) :=
    makeRun_eq_ok ⟨hlinear, by simpa using hi, fun _ => ⟨rfl, rfl⟩, fun _ hu => absurd hu (by simp)⟩
  have hjoins : limits.joins interp first i =
      !(interp != .discrete && limits.exceeded first i) := by
    unfold GapLimits.joins bne
    cases interp == .discrete <;> rfl
  unfold appendToInstant
  rw [if_neg (by rw [Timestamp.lt_iff]; exact hi.1.le.not_gt),
    if_neg (by rw [Timestamp.eq_iff]; exact hi.1.ne'), hjoins]
  cases hgap : interp != .discrete && limits.exceeded first i with
  | true =>
    have hcontinuous : interp ≠ .discrete := by
      rw [Bool.and_eq_true, bne_iff_ne] at hgap
      exact hgap.1
    have hrun : Condenses interp [first] (ofRun first [] true true interp) :=
      Condenses.ofInstant interp first
    obtain ⟨set, hset, hcomprises⟩ := exists_make_pair hrun hi hcontinuous
    refine ⟨_, ?_, hcomprises⟩
    rw [if_pos rfl, hstart]
    change (do return Temporal.sequenceSet (← SequenceSet.make _ false)) = _
    rw [hset]
    rfl
  | false =>
    have hrun : Condenses interp [first, i] (ofRun first [i] true true interp) :=
      ⟨first, [i], [i], rfl, rfl, rfl⟩
    refine ⟨_, ?_, .sequence (hrun.reserve config.initialMaxcount)⟩
    rw [if_neg Bool.false_ne_true, hboth]
    rfl

/-- An instant after all others goes into the last run of a value, or starts a new run, unless the
last run is given up with it. -/
theorem Comprises.appendInstant {runs : List (List (Instant V))} {run : List (Instant V)}
    {v : Temporal V} {last i : Instant V} (h : Comprises interp (runs ++ [run]) v)
    (limits : GapLimits) (config : AppendConfig) (hlast : run.getLast? = some last)
    (hi : ∀ j ∈ (runs ++ [run]).flatten, j.Precedes i)
    (hlinear : interp = .linear → TemporalValue.continuous V = true) :
    Accumulates interp
      (if limits.joins interp last i then runs ++ [run ++ [i]] else runs ++ [run, [i]])
      (v.appendInstant i interp limits config) := by
  have hcompat : TemporalValue.compatible v.firstInstant.value i.value = .ok () :=
    (hi _ (h.instants_subset _ (firstInstant_mem v))).2
  have hlasti : last.Precedes i :=
    hi last (List.mem_flatten.mpr ⟨run, by simp, List.mem_of_getLast? hlast⟩)
  refine Accumulates.reported ?_
  rw [bind_of_ok hcompat]
  generalize hruns : runs ++ [run] = all at h
  cases h with
  | instant first =>
    obtain ⟨rfl, rfl⟩ : runs = [] ∧ run = [first] := by
      simpa [List.append_eq_cons_iff] using hruns
    obtain rfl : first = last := by simpa using hlast
    obtain ⟨v, hv, hcomprises⟩ := appendToInstant_spec limits config hlasti hlinear
    dsimp only
    rw [hv]
    exact .comprised hcomprises
  | @sequence run' s hs =>
    obtain ⟨rfl, rfl⟩ : runs = [] ∧ run = run' := by
      simpa [List.append_eq_cons_iff] using hruns
    obtain rfl : s.last = last := hs.last_eq hlast
    dsimp only
    rcases hs.append_ends hlasti limits config with ⟨t, ht, hjoins, hcondenses⟩ |
      ⟨ht, hjoins, hup⟩ | ⟨ht, hjoins⟩
    · rw [bind_of_ok ht, hjoins, if_pos rfl]
      exact .comprised (.sequence hcondenses)
    · rw [bind_of_error ht, hjoins, if_pos rfl]
      exact .givenUp (List.mem_singleton_self _) hup
    · have hcontinuous : interp ≠ .discrete := by
        rintro rfl
        simp [GapLimits.joins] at hjoins
      obtain ⟨set, hset, hcomprises⟩ := exists_make_pair hs hlasti hcontinuous
      rw [bind_of_ok ht, hjoins, if_neg Bool.false_ne_true, hs.interp_eq]
      dsimp only
      rw [bind_of_ok hset]
      exact .comprised hcomprises
  | sequenceSet hset hmany =>
    subst hruns
    rcases append_ends hset hlast hlasti limits config with ⟨longer, hlonger, hruns⟩ |
      ⟨hlonger, hjoins, hup⟩
    · dsimp only
      rw [bind_of_ok hlonger]
      refine .comprised (.sequenceSet hruns ?_)
      rw [List.length_append, List.length_singleton] at hmany
      split <;> rw [List.length_append] <;> simp only [List.length_cons, List.length_nil] <;> omega
    · dsimp only
      rw [bind_of_error hlonger, if_pos hjoins]
      exact .givenUp (by simp) hup

/-- A run that is given up stays so, with the new instant or without it. -/
theorem Accumulates.appendInstant {runs : List (List (Instant V))} {run : List (Instant V)}
    {r : Result (Temporal V)} {last i : Instant V} (h : Accumulates interp (runs ++ [run]) r)
    (limits : GapLimits) (config : AppendConfig) (hlast : run.getLast? = some last)
    (hi : ∀ j ∈ (runs ++ [run]).flatten, j.Precedes i)
    (hlinear : interp = .linear → TemporalValue.continuous V = true) :
    Accumulates interp
      (if limits.joins interp last i then runs ++ [run ++ [i]] else runs ++ [run, [i]])
      (do (← r).appendInstant i interp limits config) := by
  cases h with
  | comprised h => exact h.appendInstant limits config hlast hi hlinear
  | givenUp hmem hup =>
    rcases List.mem_append.mp hmem with hmem | hmem
    · exact .givenUp (by split <;> simp [hmem]) hup
    · obtain rfl := List.mem_singleton.mp hmem
      split
      · exact .givenUp (by simp) (hup.concat i)
      · exact .givenUp (by simp) hup

/-- Instants appended one by one make up the runs between the gaps. -/
theorem accumulates_appendAll {first : Instant V} {rest : List (Instant V)}
    (hrising : (first :: rest).Pairwise Instant.Precedes)
    (hlinear : interp = .linear → TemporalValue.continuous V = true) (limits : GapLimits)
    (config : AppendConfig) :
    Accumulates interp ((first :: rest).splitBy (limits.joins interp))
      (appendAll (instant first) rest interp limits config) := by
  induction rest using List.reverseRecOn with
  | nil => exact .comprised (.instant first)
  | append_singleton rest i ih =>
    rw [← List.cons_append] at hrising ⊢
    obtain ⟨hbefore, -, hi⟩ := List.pairwise_append.mp hrising
    obtain ⟨runs, run, last, hruns, hlast⟩ :=
      exists_last_run (limits.joins interp) (List.cons_ne_nil first rest)
    have hall : ∀ j ∈ (runs ++ [run]).flatten, j.Precedes i := by
      rw [← hruns, List.flatten_splitBy]
      exact fun j hj => hi j hj i (List.mem_singleton_self i)
    have hprefix := ih hbefore
    rw [hruns] at hprefix
    rw [appendAll_concat, splitBy_concat hruns hlast]
    exact hprefix.appendInstant limits config hlast hall hlinear

lemma isChain_follows {runs : List (List (Instant V))} {pieces : List (Sequence V)}
    (h : List.Forall₂ (Condenses interp) runs pieces)
    (hrising : runs.flatten.Pairwise Instant.Precedes) : pieces.IsChain Follows := by
  refine List.Pairwise.isChain ?_
  induction h with
  | nil => exact .nil
  | @cons run s runs pieces hs h ih =>
    rw [List.flatten_cons, List.pairwise_append] at hrising
    refine .cons (fun t ht => ?_) (ih hrising.2.1)
    have hflatten : t.first ∈ runs.flatten := by
      obtain ⟨run', hrun', ht'⟩ := exists_run_of_mem h ht
      exact List.mem_flatten.mpr ⟨run', hrun', List.mem_of_head? ht'.head?_eq⟩
    have hlast := hrising.2.2 s.last (List.mem_of_getLast? hs.getLast?_eq) t.first hflatten
    refine ⟨?_, hlast.2⟩
    unfold Before
    have htime := hlast.1
    rw [hi_eq, lo_eq, hs.upperInc, if_pos rfl]
    split <;> omega

lemma exists_ofSequences {runs : List (List (Instant V))} {pieces : List (Sequence V)}
    (h : List.Forall₂ (Condenses interp) runs pieces) (hne : runs ≠ [])
    (hcontinuous : interp ≠ .discrete) (hrising : runs.flatten.Pairwise Instant.Precedes) :
    ∃ w, ofSequences pieces = .ok w ∧ Comprises interp runs w := by
  cases h with
  | nil => exact absurd rfl hne
  | @cons run s runs pieces hs hmore =>
    cases hmore with
    | nil => exact ⟨sequence s, rfl, .sequence hs⟩
    | @cons run' t runs pieces ht hmore =>
      have hall : List.Forall₂ (Condenses interp) (run :: run' :: runs) (s :: t :: pieces) :=
        .cons hs (.cons ht hmore)
      have hset :
          SequenceSet.make (s :: t :: pieces) true = .ok (SequenceSet.ofRun s (t :: pieces)) := by
        refine make_eq_ofRun_of_closed interp (fun x hx => ?_) hcontinuous (fun x hx => ?_)
          (isChain_follows hall hrising) true
        · obtain ⟨_, -, hx⟩ := exists_run_of_mem hall hx
          exact hx.interp_eq
        · obtain ⟨_, -, hx⟩ := exists_run_of_mem hall hx
          exact ⟨hx.lowerInc, hx.upperInc⟩
      refine ⟨sequenceSet (SequenceSet.ofRun s (t :: pieces)), ?_, .sequenceSet hall (by simp)⟩
      unfold ofSequences
      exact bind_eq_ok.mpr ⟨_, hset, rfl⟩

/-- Instants that build a value at once make up the runs between the gaps. -/
theorem accumulates_ofInstants {first : Instant V} {rest : List (Instant V)} (hne : rest ≠ [])
    (hrising : (first :: rest).Pairwise Instant.Precedes)
    (hlinear : interp = .linear → TemporalValue.continuous V = true) (limits : GapLimits) :
    Accumulates interp ((first :: rest).splitBy (limits.joins interp))
      (ofInstants (first :: rest) interp limits) := by
  have hcount : ¬(first :: rest).length < 2 := by
    have := List.length_pos_iff.mpr hne
    rw [List.length_cons]
    omega
  refine Accumulates.reported ?_
  simp only [hcount, decide_false, Bool.or_false, beq_iff_eq]
  by_cases hdiscrete : interp = .discrete
  · have hone : (first :: rest).splitBy (limits.joins interp) = [first :: rest] := by
      refine List.splitBy_of_isChain (List.cons_ne_nil _ _) (hrising.isChain.imp fun a b _ => ?_)
      simp [GapLimits.joins, hdiscrete]
    rw [if_pos hdiscrete, hone]
    rcases make_ends (List.cons_ne_nil first rest) hlinear hrising with
      ⟨s, hs, hcondenses⟩ | ⟨hs, hup⟩
    · rw [bind_of_ok hs]
      exact .comprised (.sequence hcondenses)
    · rw [bind_of_error hs]
      exact .givenUp (List.mem_singleton_self _) hup
  · have hjoins : (fun a b : Instant V => !limits.exceeded a b) = limits.joins interp := by
      funext a b
      simp [GapLimits.joins, hdiscrete]
    rw [if_neg hdiscrete, hjoins]
    generalize hruns : (first :: rest).splitBy (limits.joins interp) = runs
    have hflatten : runs.flatten.Pairwise Instant.Precedes := by
      rwa [← hruns, List.flatten_splitBy]
    have hfull : ∀ run ∈ runs, run ≠ [] := by
      rw [← hruns]
      exact fun run hrun => List.ne_nil_of_mem_splitBy hrun
    have hsome : runs ≠ [] := by
      rw [← hruns]
      exact List.splitBy_ne_nil.mpr (List.cons_ne_nil _ _)
    rcases mapM_make_ends hfull hlinear (List.pairwise_flatten.mp hflatten).1 with
      ⟨pieces, hpieces, hcondenses⟩ | ⟨hpieces, run, hrun, hup⟩
    · obtain ⟨w, hw, hcomprises⟩ := exists_ofSequences hcondenses hsome hdiscrete hflatten
      rw [bind_of_ok hpieces, hw]
      exact .comprised hcomprises
    · rw [bind_of_error hpieces]
      exact .givenUp hrun hup

omit [LawfulValue V] in
lemma not_givenUp_of_short {first : Instant V} {rest : List (Instant V)}
    {joins : Instant V → Instant V → Bool} (hrising : (first :: rest).Pairwise Instant.Precedes)
    (hshort : ShortRun interp first rest) :
    ∀ run ∈ (first :: rest).splitBy joins, ¬GivenUp interp run := by
  intro run hrun
  have hflatten : ((first :: rest).splitBy joins).flatten = first :: rest := List.flatten_splitBy _ _
  have hsub : run.Sublist (first :: rest) := by
    rw [← hflatten]
    exact List.sublist_flatten_of_mem hrun
  obtain ⟨a, more, rfl⟩ := List.exists_cons_of_ne_nil (List.ne_nil_of_mem_splitBy hrun)
  refine Sequence.not_givenUp (hrising.sublist hsub) fun hl => ?_
  have hfirst := Sequence.first_le hrising (hsub.subset (List.mem_cons_self ..))
  have hlast := Sequence.place_le_last hrising _
    (hsub.subset (List.getLastD_mem_cons (a := a) (l := more)))
  have hwidth := hshort hl
  unfold Timestamp.place at hfirst hlast
  omega

/-- Instants that are appended one by one give the value that is built from all of them at once,
whatever gaps are to split it; both are given up if one is, which happens to no short run. Where no
gaps split it, it is the sequence of the instants. -/
theorem accumulation_builds {first : Instant V} {rest : List (Instant V)} (hne : rest ≠ [])
    (hrising : (first :: rest).Pairwise Instant.Precedes)
    (hlinear : interp = .linear → TemporalValue.continuous V = true) (limits : GapLimits)
    (config : AppendConfig) :
    (appendAll (instant first) rest interp limits config = .error .aborted ∧
        ofInstants (first :: rest) interp limits = .error .aborted ∧
        ¬ShortRun interp first rest) ∨
    ∃ v w, appendAll (instant first) rest interp limits config = .ok v ∧
      ofInstants (first :: rest) interp limits = .ok w ∧
      v.rebuilt = w.rebuilt ∧
      ((∀ i ∈ first :: rest, (i.value == i.value) = true) → (v == w) = true) ∧
      (limits.distance = none → limits.time = none → ∃ s t, v = sequence s ∧
        Sequence.new (first :: rest) true true interp true = .ok t ∧ s.rebuilt = t ∧
        ((∀ i ∈ first :: rest, (i.value == i.value) = true) → (s == t) = true)) := by
  rcases (accumulates_appendAll hrising hlinear limits config).ends
      (accumulates_ofInstants hne hrising hlinear limits) with
    ⟨hv, hw, run, hrun, hup⟩ | ⟨v, w, hv, hw, hvruns, hwruns⟩
  · exact Or.inl ⟨hv, hw, fun hshort => not_givenUp_of_short hrising hshort run hrun hup⟩
  have hmany : 1 < ((first :: rest).splitBy (limits.joins interp)).flatten.length := by
    rw [List.flatten_splitBy, List.length_cons]
    have := List.length_pos_iff.mpr hne
    omega
  have hsame : v.rebuilt = w.rebuilt := hvruns.rebuilt_eq hwruns hmany
  refine Or.inr ⟨v, w, hv, hw, hsame, fun hself => beq_of_rebuilt_eq hsame fun i hi => ?_, ?_⟩
  · have := hvruns.instants_subset i hi
    rw [List.flatten_splitBy] at this
    exact hself i this
  · intro hdistance htime
    have hone : (first :: rest).splitBy (limits.joins interp) = [first :: rest] := by
      refine List.splitBy_of_isChain (List.cons_ne_nil _ _) (hrising.isChain.imp fun a b _ => ?_)
      simp [GapLimits.joins, GapLimits.exceeded, hdistance, htime]
    rw [hone] at hvruns hmany
    have hnot := hvruns.not_givenUp _ (List.mem_singleton_self _)
    obtain ⟨t, ht, hcondenses⟩ :=
      (make_ends (List.cons_ne_nil first rest) hlinear hrising).resolve_right fun hup => hnot hup.2
    have htwice : t.rebuilt = t := rebuilt_of_makeRun ht
    obtain ⟨s, rfl, hs⟩ := hvruns.exists_sequence (by simpa using hmany)
    have hst : s.rebuilt = t := (hs.rebuilt_eq hcondenses).trans htwice
    refine ⟨s, t, rfl, reported_eq_ok.mpr ht, hst, fun hself => ?_⟩
    exact Sequence.beq_of_rebuilt_eq (hst.trans htwice.symm)
      fun i hi => hself i (hs.instants_subset i hi)

end

def laterCounts : List (Instant Integer) :=
  [⟨.clamp 1, .nearest 10⟩, ⟨.clamp 2, .nearest 20⟩, ⟨.clamp 2, .nearest 90⟩]

lemma laterCounts_rising :
    (⟨.clamp 1, .nearest 0⟩ :: laterCounts).Pairwise Instant.Precedes := by
  have hplaces : (⟨.clamp 1, .nearest 0⟩ :: laterCounts).Pairwise fun a b =>
      a.time.place < b.time.place := by decide
  exact hplaces.imp fun h => ⟨h, rfl⟩

/-- Counts by steps of which the second one repeats the first one and the last one is late: they
are two sequences. -/
theorem laterCounts_accumulated :
    laterCounts ≠ [] ∧ (⟨.clamp 1, .nearest 0⟩ :: laterCounts).Pairwise Instant.Precedes ∧
      ∃ v w, appendAll (instant ⟨.clamp 1, .nearest 0⟩) laterCounts .step
          ⟨none, some (.ofMicros 50)⟩ {} = .ok v ∧
        ofInstants (⟨.clamp 1, .nearest 0⟩ :: laterCounts) .step ⟨none, some (.ofMicros 50)⟩ =
          .ok w ∧ (v == w) = true ∧ v.sequences.map (fun s => s.instants.length) = [2, 1] := by
  have hlinear : Interpolation.step = .linear → TemporalValue.continuous Integer = true := by simp
  obtain ⟨v, w, hv, hw, -, heq, -⟩ := (accumulation_builds
    (List.cons_ne_nil _ _ : laterCounts ≠ []) laterCounts_rising hlinear
    ⟨none, some (.ofMicros 50)⟩ {}).resolve_left fun hup => hup.2.2 nofun
  have hcounts : (fun u : Temporal Integer => u.sequences.map fun s => s.instants.length) <$>
      appendAll (instant ⟨.clamp 1, .nearest 0⟩) laterCounts .step ⟨none, some (.ofMicros 50)⟩ {} =
        .ok [2, 1] := rfl
  obtain ⟨u, hu, hlengths⟩ := map_eq_ok.mp hcounts
  obtain rfl : v = u := Except.ok.inj (hv.symm.trans hu)
  exact ⟨List.cons_ne_nil _ _, laterCounts_rising, v, w, hv, hw, heq fun i _ => BEq.rfl, hlengths⟩

/-- Marks on a line through all of the time, of which the last two are close to each other. -/
def lateMarks : List (Instant Float) :=
  [⟨10.0, .nearest 8000000000000000000⟩, ⟨20.0, .nearest 8100000000000000000⟩]

/-- Whether the second mark adds something cannot be told. -/
theorem lateMarks_given_up :
    lateMarks ≠ [] ∧
      (⟨0.0, .nearest (-8000000000000000000)⟩ :: lateMarks).Pairwise Instant.Precedes ∧
      appendAll (instant ⟨0.0, .nearest (-8000000000000000000)⟩) lateMarks .linear
        ⟨none, none⟩ {} = .error .aborted ∧
      ofInstants (⟨0.0, .nearest (-8000000000000000000)⟩ :: lateMarks) .linear ⟨none, none⟩ =
        .error .aborted := by
  have hplaces : (⟨0.0, .nearest (-8000000000000000000)⟩ :: lateMarks).Pairwise fun a b =>
      a.time.place < b.time.place := by decide
  exact ⟨List.cons_ne_nil _ _, hplaces.imp fun h => ⟨h, rfl⟩, rfl, rfl⟩

end Temporal

end TemporalAlgebra
