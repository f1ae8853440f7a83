import TemporalAlgebra.Proofs.Temporal.Assembly
import TemporalAlgebra.Proofs.Temporal.Rebuilding
import TemporalAlgebra.Temporal.Merge

/-!
# Settling sequences

Sequences in order of their periods can be settled if each leads the next one: it ends before the
next one starts, or at its start with the same value. Then it leads all that follow. Whether any two
of some sequences go together so does not depend on the order in which they come, and two that are
sorted to the same place are equal.
-/
namespace TemporalAlgebra

namespace Sequence

variable {V : Type} [TemporalValue V]

/-- One sequence ends before another one starts, or at its start with the same value. -/
def Leads (a b : Sequence V) : Prop :=
  a.hi ≤ b.lo ∧ (a.hi = b.lo → a.last.value = b.first.value)

def Agree (a b : Sequence V) : Prop := a.Leads b ∨ b.Leads a

lemma Agree.symm {a b : Sequence V} (h : a.Agree b) : b.Agree a := Or.symm h

/-- A well-formed sequence with step interpolation. -/
structure Stepped (s : Sequence V) : Prop where
  wellFormed : s.WellFormed
  interp_eq : s.interp = .step

lemma Stepped.isDiscrete {s : Sequence V} (h : s.Stepped) : s.isDiscrete = false := by
  rw [isDiscrete_eq_false_iff, h.interp_eq]
  simp

/-- A sequence without its first place. -/
def opened (s : Sequence V) : Sequence V := rebox { s with lowerInc := false }

lemma Train.cons {interp : Interpolation} {a : Sequence V} {more : List (Sequence V)}
    (h : Train interp more) (ha : a.WellFormed) (hi : a.interp = interp)
    (hlater : ∀ s ∈ more, a.hi < s.lo) : Train interp (a :: more) :=
  ⟨List.forall_mem_cons.mpr ⟨ha, h.wellFormed⟩, List.forall_mem_cons.mpr ⟨hi, h.interp_eq⟩,
    h.continuous, List.pairwise_cons.mpr ⟨hlater, h.rising⟩⟩

lemma pairwise_leads_opened {s : Sequence V} {rest : List (Sequence V)} :
    (s.opened :: rest).Pairwise Leads ↔ (s :: rest).Pairwise Leads := by
  rw [List.pairwise_cons, List.pairwise_cons]
  rfl

lemma hi_eq_lo_iff {a b : Sequence V} : a.hi = b.lo ↔
    a.last.time.place = b.first.time.place ∧ a.upperInc = true ∧ b.lowerInc = true := by
  have := a.last.time.place_emod
  have := b.first.time.place_emod
  rw [hi_eq, lo_eq]
  cases a.upperInc <;> cases b.lowerInc <;> simp <;> omega

lemma hi_le_lo_iff {a b : Sequence V} :
    a.hi ≤ b.lo ↔ a.last.time.place ≤ b.first.time.place := by
  have := a.last.time.place_emod
  have := b.first.time.place_emod
  rw [hi_eq, lo_eq]
  cases a.upperInc <;> cases b.lowerInc <;> simp <;> omega

lemma lo_opened {s : Sequence V} (h : s.lowerInc = true) : s.opened.lo = s.lo + 1 := by
  rw [lo_eq, lo_eq, h]
  simp [Sequence.opened, rebox]

lemma hi_opened (s : Sequence V) : s.opened.hi = s.hi := rfl

section

variable [LawfulValue V]

/-- A sequence with one place only is a single instant. -/
lemma WellFormed.rest_eq_nil_iff {s : Sequence V} (h : s.WellFormed) :
    s.rest = [] ↔ s.lo = s.hi := by
  constructor
  · intro hn
    obtain ⟨hlo, hhi⟩ := h.ends_of_rest_eq_nil hn
    rw [hlo, hhi]
  · intro heq
    by_contra hn
    have hlt := h.first_lt_last hn
    have hfirst := s.first.time.place_emod
    have hlast := s.last.time.place_emod
    rw [lo_eq, hi_eq] at heq
    split at heq <;> split at heq <;> omega

lemma WellFormed.rebuilt_eq_of_instant {a b : Sequence V} (ha : a.WellFormed) (hb : b.WellFormed)
    (hinterp : a.interp = b.interp) (hna : a.rest = []) (hnb : b.rest = [])
    (htime : a.first.time.place = b.first.time.place) (hvalue : a.first.value = b.first.value) :
    a.rebuilt = b.rebuilt := by
  have hfirst : a.first = b.first := by
    rw [Instant.mk.injEq]
    exact ⟨hvalue, Timestamp.eq_iff.mpr htime⟩
  obtain ⟨hla, hua⟩ := (wellFormed_iff.mp ha).closed (Or.inl hna)
  obtain ⟨hlb, hub⟩ := (wellFormed_iff.mp hb).closed (Or.inl hnb)
  unfold rebuilt
  rw [hfirst, hna, hnb, hla, hlb, hua, hub, hinterp]

lemma Leads.trans {a b c : Sequence V} (hb : b.WellFormed) (hab : a.Leads b) (hbc : b.Leads c) :
    a.Leads c := by
  have hle := hb.lo_le_hi
  refine ⟨hab.1.trans (hle.trans hbc.1), fun heq => ?_⟩
  have h1 := hab.1
  have h2 := hbc.1
  have hone : b.lo = b.hi := by omega
  rw [hab.2 (by omega), ← last_eq_first (hb.rest_eq_nil_iff.mpr hone), hbc.2 (by omega)]

lemma Agree.leads {a b : Sequence V} (ha : a.WellFormed) (hb : b.WellFormed) (h : a.Agree b)
    (hle : a.lo < b.lo ∨ a.lo = b.lo ∧ a.hi ≤ b.hi) : a.Leads b := by
  rcases h with h | h
  · exact h
  · have hla := ha.lo_le_hi
    have hlb := hb.lo_le_hi
    have hlead := h.1
    have hna := ha.rest_eq_nil_iff.mpr (by omega)
    have hnb := hb.rest_eq_nil_iff.mpr (by omega)
    refine ⟨by omega, fun _ => ?_⟩
    rw [last_eq_first hna, ← last_eq_first hnb]
    exact (h.2 (by omega)).symm

lemma Agree.rebuilt_eq {a b : Sequence V} (ha : a.Stepped) (hb : b.Stepped) (h : a.Agree b)
    (hlo : a.lo = b.lo) (hhi : a.hi = b.hi) : a.rebuilt = b.rebuilt := by
  have hlead := h.leads ha.wellFormed hb.wellFormed (Or.inr ⟨hlo, hhi.le⟩)
  have hla := ha.wellFormed.lo_le_hi
  have hle := hlead.1
  have hna := ha.wellFormed.rest_eq_nil_iff.mpr (by omega)
  have hnb := hb.wellFormed.rest_eq_nil_iff.mpr (by omega)
  refine ha.wellFormed.rebuilt_eq_of_instant hb.wellFormed (ha.interp_eq.trans hb.interp_eq.symm)
    hna hnb ?_ ?_
  · rw [← last_eq_first hna]
    exact (hi_eq_lo_iff.mp (by omega)).1
  · rw [← last_eq_first hna]
    exact hlead.2 (by omega)

lemma Stepped.opened {s : Sequence V} (h : s.Stepped) (hn : s.rest ≠ []) : s.opened.Stepped := by
  have hc := wellFormed_iff.mp h.wellFormed
  refine ⟨wellFormed_iff.mpr ⟨hc.linear, hc.rising, ?_, hc.repeated⟩, h.interp_eq⟩
  rintro (hnil | hd)
  · exact absurd hnil hn
  · exact absurd (h.interp_eq.symm.trans hd) (by simp)

lemma Leads.takes_start {a b : Sequence V} (ha : a.Stepped) (hb : b.Stepped) (h : a.Leads b)
    (hmeet : a.hi = b.lo) {x : V} (hx : b.Takes b.lo x) : a.Takes b.lo x := by
  obtain ⟨htime, -, hl⟩ := hi_eq_lo_iff.mp hmeet
  have hlo : b.lo = b.first.time.place := by
    rw [lo_eq, hl]
    simp
  have hbx : b.first.value = x := by
    rw [← hx.2, hlo]
    exact (held_place hb.wellFormed.rising (List.mem_cons_self ..)).symm
  refine ⟨(covers_of_continuous ha.isDiscrete _).mpr ⟨?_, hmeet.ge⟩, ?_⟩
  · rw [← hmeet]
    exact ha.wellFormed.lo_le_hi
  · rw [hlo, ← htime, held_place ha.wellFormed.rising a.last_mem, h.2 hmeet, hbx]

omit [LawfulValue V] in
lemma Gathers.append {a b c d : List (Sequence V)} (h : Gathers a b) (h' : Gathers c d) :
    Gathers (a ++ c) (b ++ d) := by
  refine ⟨fun n => ?_, fun hl n x => ?_, fun s hs i hi => ?_⟩
  · simp only [List.mem_append, or_and_right, exists_or, h.covers_iff n, h'.covers_iff n]
  · simp only [List.mem_append, or_and_right, exists_or, h.takes_iff hl n x, h'.takes_iff hl n x]
  · rcases List.mem_append.mp hs with hs | hs
    · obtain ⟨p, hp, hi⟩ := h.instants_subset s hs i hi
      exact ⟨p, List.mem_append_left _ hp, hi⟩
    · obtain ⟨p, hp, hi⟩ := h'.instants_subset s hs i hi
      exact ⟨p, List.mem_append_right _ hp, hi⟩

/-- A sequence may give its first place to one that leads it and ends there. -/
lemma gathers_of_leads {a b : Sequence V} {more : List (Sequence V)} (ha : a.Stepped)
    (hb : b.Stepped) (h : a.Leads b) (hmeet : a.hi = b.lo)
    (hcov : ∀ n, (∃ s ∈ more, s.Covers n) ↔ b.lo < n ∧ b.Covers n)
    (htakes : ∀ n x, (∃ s ∈ more, s.Takes n x) ↔ b.lo < n ∧ b.Takes n x)
    (hinst : ∀ s ∈ more, ∀ i ∈ s.instants, i ∈ b.instants) : Gathers [a, b] (a :: more) := by
  have hbc := covers_of_continuous hb.isDiscrete
  have hac : a.Covers b.lo := by
    rw [covers_of_continuous ha.isDiscrete, ← hmeet]
    exact ⟨ha.wellFormed.lo_le_hi, le_refl _⟩
  refine ⟨fun n => ?_, fun _ n x => ?_, fun s hs i hi => ?_⟩
  · simp only [List.mem_cons, List.not_mem_nil, or_false, exists_eq_or_imp, exists_eq_left, hcov]
    by_cases heq : n = b.lo
    · subst heq
      exact iff_of_true (Or.inl hac) (Or.inl hac)
    · refine or_congr_right (and_iff_right_of_imp fun hn => ?_)
      have := ((hbc n).mp hn).1
      omega
  · simp only [List.mem_cons, List.not_mem_nil, or_false, exists_eq_or_imp, exists_eq_left, htakes]
    by_cases heq : n = b.lo
    · subst heq
      simp only [lt_irrefl, false_and, or_false]
      exact (or_iff_left_of_imp fun hn => h.takes_start ha hb hmeet hn).symm
    · refine or_congr_right (and_iff_right_of_imp fun hn => ?_)
      have := ((hbc n).mp hn.1).1
      omega
  · rcases List.mem_cons.mp hs with rfl | hs
    · exact ⟨s, by simp, hi⟩
    · exact ⟨b, by simp, hinst s hs i hi⟩

/-- A single instant adds nothing to a sequence that leads it and ends there. -/
lemma gathers_absorbed {a b : Sequence V} {rest : List (Sequence V)} (ha : a.Stepped)
    (hb : b.Stepped) (h : a.Leads b) (hmeet : a.hi = b.lo) (hn : b.rest = []) :
    Gathers (a :: b :: rest) (a :: rest) := by
  have hbc := covers_of_continuous hb.isDiscrete
  have hone := hb.wellFormed.rest_eq_nil_iff.mp hn
  refine Gathers.append (a := [a, b]) (b := [a]) ?_ (Gathers.refl rest)
  refine gathers_of_leads ha hb h hmeet (fun n => ?_) (fun n x => ?_) (by simp)
  · simp only [List.not_mem_nil, false_and, exists_false, false_iff, hbc]
    omega
  · simp only [List.not_mem_nil, false_and, exists_false, false_iff, Takes, hbc]
    omega

/-- What is left of a sequence without its first place is enough behind one that leads it and ends
there. -/
lemma gathers_opened {a b : Sequence V} {rest : List (Sequence V)} (ha : a.Stepped)
    (hb : b.Stepped) (h : a.Leads b) (hmeet : a.hi = b.lo) :
    Gathers (a :: b :: rest) (a :: b.opened :: rest) := by
  have hbc := covers_of_continuous hb.isDiscrete
  have hoc : ∀ n, b.opened.Covers n ↔ b.lo < n ∧ b.Covers n := by
    intro n
    have hlo := lo_opened (hi_eq_lo_iff.mp hmeet).2.2
    have hhi := hi_opened b
    rw [hbc, covers_of_continuous (s := b.opened) hb.isDiscrete]
    omega
  refine Gathers.append (a := [a, b]) (b := [a, b.opened]) ?_ (Gathers.refl rest)
  refine gathers_of_leads ha hb h hmeet (fun n => ?_) (fun n x => ?_) fun s hs i hi => ?_
  · simpa using hoc n
  · simp only [List.mem_singleton, exists_eq_left, Takes, hoc, and_assoc]
    rfl
  · obtain rfl := List.mem_singleton.mp hs
    exact hi

end

/-- What settling does with the next sequence. -/
lemma settle_cons_eq_ok [LawfulBEq V] {a b : Sequence V} {rest found : List (Sequence V)} :
    settle a (b :: rest) = .ok found ↔ a.Leads b ∧
      if a.hi = b.lo then
        if b.rest = [] then settle a rest = .ok found
        else ∃ more, settle b.opened rest = .ok more ∧ a :: more = found
      else ∃ more, settle b rest = .ok more ∧ a :: more = found := by
  have hmeet : (a.last.time == b.first.time && a.upperInc && b.lowerInc) = true ↔ a.hi = b.lo := by
    rw [hi_eq_lo_iff, Bool.and_eq_true, Bool.and_eq_true, Timestamp.beq_iff, and_assoc]
  have hbefore : (!decide (b.first.time < a.last.time)) = true ↔ a.hi ≤ b.lo := by
    rw [hi_le_lo_iff, Bool.not_eq_true', decide_eq_false_iff_not, Timestamp.lt_iff, not_lt]
  rw [settle, check_bind_eq_ok, require_eq_ok, hbefore]
  unfold Leads
  by_cases hm : a.hi = b.lo
  · rw [if_pos (hmeet.mpr hm), if_pos hm, check_bind_eq_ok, require_eq_ok, beq_iff_eq]
    unfold isInstantaneous
    by_cases hn : b.rest = []
    · rw [if_pos (List.isEmpty_iff.mpr hn), if_pos hn]
      tauto
    · rw [if_neg (mt List.isEmpty_iff.mp hn), if_neg hn]
      simp only [bind_eq_ok, pure_eq_ok]
      unfold opened
      tauto
  · rw [if_neg (mt hmeet.mp hm), if_neg hm]
    simp only [bind_eq_ok, pure_eq_ok]
    tauto

lemma settle_rebuilt [LawfulBEq V] {a : Sequence V} {rest found : List (Sequence V)}
    (h : settle a rest = .ok found) :
    settle a.rebuilt (rest.map rebuilt) = .ok (found.map rebuilt) := by
  induction rest generalizing a found with
  | nil =>
    obtain rfl := Except.ok.inj h
    rfl
  | cons b rest ih =>
    obtain ⟨hlead, h⟩ := settle_cons_eq_ok.mp h
    rw [List.map_cons]
    refine settle_cons_eq_ok.mpr ⟨hlead, ?_⟩
    change if a.hi = b.lo then if b.rest = [] then _ else _ else _
    by_cases hmeet : a.hi = b.lo
    · rw [if_pos hmeet] at h ⊢
      by_cases hn : b.rest = []
      · rw [if_pos hn] at h ⊢
        exact ih h
      · rw [if_neg hn] at h ⊢
        obtain ⟨more, hok, rfl⟩ := h
        exact ⟨_, ih (a := b.opened) hok, rfl⟩
    · rw [if_neg hmeet] at h ⊢
      obtain ⟨more, hok, rfl⟩ := h
      exact ⟨_, ih hok, rfl⟩

section

variable [StepValue V]

/-- Sequences that lead all later ones can be settled. -/
lemma exists_settle {a : Sequence V} {rest : List (Sequence V)} (hs : ∀ s ∈ a :: rest, s.Stepped)
    (h : (a :: rest).Pairwise Leads) :
    ∃ found, settle a rest = .ok found ∧ Train .step found ∧ Gathers (a :: rest) found ∧
      found ≠ [] ∧ ∀ s ∈ found, a.lo ≤ s.lo := by
  have ha := hs a (by simp)
  have hle := ha.wellFormed.lo_le_hi
  induction rest generalizing a with
  | nil =>
    exact ⟨[a], rfl, ⟨fun s h => (hs s h).wellFormed, fun s h => (hs s h).interp_eq, by simp,
      by simp⟩, Gathers.refl _, by simp, by simp⟩
  | cons b rest ih =>
    have hb := hs b (by simp)
    have hrest : ∀ s ∈ rest, s.Stepped := fun s h => hs s (by simp [h])
    have hlead : a.Leads b := List.rel_of_pairwise_cons h (by simp)
    -- what is found behind `a` starts later
    have hbehind : ∀ {more : List (Sequence V)}, Train .step more → (∀ s ∈ more, a.hi < s.lo) →
        Train .step (a :: more) ∧ ∀ s ∈ a :: more, a.lo ≤ s.lo := fun htrain hlater =>
      ⟨htrain.cons ha.wellFormed ha.interp_eq hlater,
        List.forall_mem_cons.mpr ⟨le_refl _, fun s h => hle.trans (hlater s h).le⟩⟩
    by_cases hmeet : a.hi = b.lo
    · by_cases hn : b.rest = []
      · obtain ⟨found, hok, htrain, hg, hne, hstart⟩ := ih
          (List.forall_mem_cons.mpr ⟨ha, hrest⟩)
          (h.sublist ((List.sublist_cons_self b rest).cons_cons a)) ha hle
        refine ⟨found, settle_cons_eq_ok.mpr ⟨hlead, ?_⟩, htrain,
          (gathers_absorbed ha hb hlead hmeet hn).trans hg, hne, hstart⟩
        rw [if_pos hmeet, if_pos hn]
        exact hok
      · have hlo := lo_opened (hi_eq_lo_iff.mp hmeet).2.2
        have ho := hb.opened hn
        obtain ⟨more, hok, htrain, hg, -, hstart⟩ := ih (List.forall_mem_cons.mpr ⟨ho, hrest⟩)
          (pairwise_leads_opened.mpr h.tail) ho ho.wellFormed.lo_le_hi
        obtain ⟨htrain, hstart⟩ := hbehind htrain fun s h => by
          have := hstart s h
          omega
        refine ⟨a :: more, settle_cons_eq_ok.mpr ⟨hlead, ?_⟩, htrain,
          (gathers_opened ha hb hlead hmeet).trans (hg.cons a), by simp, hstart⟩
        rw [if_pos hmeet, if_neg hn]
        exact ⟨more, hok, rfl⟩
    · obtain ⟨more, hok, htrain, hg, -, hstart⟩ := ih (List.forall_mem_cons.mpr ⟨hb, hrest⟩) h.tail
        hb hb.wellFormed.lo_le_hi
      obtain ⟨htrain, hstart⟩ := hbehind htrain fun s h =>
        lt_of_lt_of_le (lt_of_le_of_ne hlead.1 hmeet) (hstart s h)
      refine ⟨a :: more, settle_cons_eq_ok.mpr ⟨hlead, ?_⟩, htrain, hg.cons a, by simp, hstart⟩
      rw [if_neg hmeet]
      exact ⟨more, hok, rfl⟩

/-- Sequences that could be settled lead all later ones. -/
lemma leads_of_settle {a : Sequence V} {rest found : List (Sequence V)}
    (hs : ∀ s ∈ a :: rest, s.Stepped) (h : settle a rest = .ok found) :
    (a :: rest).Pairwise Leads := by
  induction rest generalizing a found with
  | nil => simp
  | cons b rest ih =>
    have hb := hs b (by simp)
    have hrest : ∀ s ∈ rest, s.Stepped := fun s h => hs s (by simp [h])
    obtain ⟨hlead, h⟩ := settle_cons_eq_ok.mp h
    have hpair : (b :: rest).Pairwise Leads := by
      by_cases hmeet : a.hi = b.lo
      · rw [if_pos hmeet] at h
        by_cases hn : b.rest = []
        · rw [if_pos hn] at h
          have hpair := ih (List.forall_mem_cons.mpr ⟨hs a (by simp), hrest⟩) h
          have hone := hb.wellFormed.rest_eq_nil_iff.mp hn
          refine List.pairwise_cons.mpr ⟨fun c hc => ?_, hpair.tail⟩
          obtain ⟨hle, hvalue⟩ := List.rel_of_pairwise_cons hpair hc
          refine ⟨by omega, fun heq => ?_⟩
          rw [last_eq_first hn, ← hlead.2 hmeet]
          exact hvalue (by omega)
        · rw [if_neg hn] at h
          obtain ⟨more, hok, -⟩ := h
          exact pairwise_leads_opened.mp
            (ih (List.forall_mem_cons.mpr ⟨hb.opened hn, hrest⟩) hok)
      · rw [if_neg hmeet] at h
        obtain ⟨more, hok, -⟩ := h
        exact ih (List.forall_mem_cons.mpr ⟨hb, hrest⟩) hok
    refine List.pairwise_cons.mpr ⟨fun c hc => ?_, hpair⟩
    rcases List.mem_cons.mp hc with rfl | hc
    · exact hlead
    · exact hlead.trans hb.wellFormed (List.rel_of_pairwise_cons hpair hc)

omit [StepValue V] in
lemma sort_perm (pieces : List (Sequence V)) : (sort pieces).Perm pieces := List.mergeSort_perm _ _

lemma pairwise_leads_sort {pieces : List (Sequence V)} (hs : ∀ s ∈ pieces, s.Stepped) :
    (sort pieces).Pairwise Leads ↔ pieces.Pairwise Agree := by
  have hperm := sort_perm pieces
  rw [← hperm.pairwise_iff Agree.symm]
  constructor
  · exact fun h => h.imp Or.inl
  · intro h
    refine ((pairwise_sort_periods id pieces).and h).imp_of_mem fun {a b} ha hb hab => ?_
    have ha := hs a (hperm.mem_iff.mp ha)
    have hb := hs b (hperm.mem_iff.mp hb)
    exact hab.2.leads ha.wellFormed hb.wellFormed hab.1

/-- Sequences that agree are sorted to the same ones in whatever order they come. -/
lemma map_rebuilt_sort {pieces others : List (Sequence V)} (hperm : pieces.Perm others)
    (hs : ∀ s ∈ pieces, s.Stepped) (h : pieces.Pairwise Agree) :
    (sort pieces).map rebuilt = (sort others).map rebuilt := by
  have hsorted : ∀ l : List (Sequence V), ((sort l).map rebuilt).Pairwise fun a b =>
      a.lo < b.lo ∨ a.lo = b.lo ∧ a.hi ≤ b.hi := fun l =>
    List.pairwise_map.mpr (pairwise_sort_periods id l)
  refine List.Perm.eq_of_pairwise ?_ (hsorted pieces) (hsorted others)
    (((sort_perm pieces).trans (hperm.trans (sort_perm others).symm)).map rebuilt)
  intro a b ha hb hab hba
  obtain ⟨s, hsmem, rfl⟩ := List.mem_map.mp ha
  obtain ⟨t, htmem, rfl⟩ := List.mem_map.mp hb
  have hsp := (sort_perm pieces).mem_iff.mp hsmem
  have htp := hperm.mem_iff.mpr ((sort_perm others).mem_iff.mp htmem)
  change s.lo < t.lo ∨ s.lo = t.lo ∧ s.hi ≤ t.hi at hab
  change t.lo < s.lo ∨ t.lo = s.lo ∧ t.hi ≤ s.hi at hba
  by_cases hst : s = t
  · rw [hst]
  · have hsymm : Std.Symm (Agree (V := V)) := ⟨fun _ _ => Agree.symm⟩
    exact (h.forall hsp htp hst).rebuilt_eq (hs s hsp) (hs t htp) (by omega) (by omega)

end

end Sequence

end TemporalAlgebra
