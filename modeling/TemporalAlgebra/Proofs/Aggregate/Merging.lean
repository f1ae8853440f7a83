import TemporalAlgebra.Aggregate.Functions
import TemporalAlgebra.Proofs.Temporal.Lifting

/-!
# Merging pieces

The state of an aggregate is a row of pieces. Merged with others they are kept where only one side
is defined and combined where both are: instants are merged by their timestamps, continuous pieces
by what is left of either side outside of the other one and what is lifted over the common time.
-/
namespace TemporalAlgebra

namespace Sequence

variable {V : Type} [TemporalValue V]

/-- Pieces of one interpolation in order of time. Discrete ones are single instants. -/
structure Kept (interp : Interpolation) (pieces : List (Sequence V)) : Prop where
  wellFormed : ∀ p ∈ pieces, p.WellFormed
  interp_eq : ∀ p ∈ pieces, p.interp = interp
  rising : pieces.Pairwise Before
  single : interp = .discrete → ∀ p ∈ pieces, p.rest = []

def Occupies (pieces : List (Sequence V)) (n : Int) : Prop := ∃ p ∈ pieces, p.Covers n

def Yields (pieces : List (Sequence V)) (n : Int) (x : V) : Prop := ∃ p ∈ pieces, p.Takes n x

section

variable {pieces more : List (Sequence V)} {p : Sequence V} {n : Int} {x : V}

lemma not_occupies_nil : ¬Occupies ([] : List (Sequence V)) n := by
  simp [Occupies]

lemma not_yields_nil : ¬Yields ([] : List (Sequence V)) n x := by
  simp [Yields]

lemma occupies_cons : Occupies (p :: pieces) n ↔ p.Covers n ∨ Occupies pieces n := by
  simp [Occupies]

lemma yields_cons : Yields (p :: pieces) n x ↔ p.Takes n x ∨ Yields pieces n x := by
  simp [Yields]

lemma occupies_append : Occupies (pieces ++ more) n ↔ Occupies pieces n ∨ Occupies more n := by
  simp only [Occupies, List.mem_append, or_and_right, exists_or]

lemma yields_append : Yields (pieces ++ more) n x ↔ Yields pieces n x ∨ Yields more n x := by
  simp only [Yields, List.mem_append, or_and_right, exists_or]

lemma yields_perm (h : pieces.Perm more) : Yields pieces n x ↔ Yields more n x := by
  simp only [Yields, h.mem_iff]

lemma Yields.occupies (h : Yields pieces n x) : Occupies pieces n := by
  obtain ⟨p, hp, hn, -⟩ := h
  exact ⟨p, hp, hn⟩

lemma occupies_iff_exists_yields : Occupies pieces n ↔ ∃ x, Yields pieces n x := by
  constructor
  · rintro ⟨p, hp, hn⟩
    exact ⟨p.held n, p, hp, hn, rfl⟩
  · rintro ⟨x, hx⟩
    exact hx.occupies

end

/-- Pieces that are those of one side where the other one is not defined, and that have what is made
of both values where both are. -/
structure Combines (combine : V → V → Result V) (old new found : List (Sequence V)) : Prop where
  occupies_iff : ∀ n, Occupies found n ↔ Occupies old n ∨ Occupies new n
  old_only : ∀ n x, Yields old n x → ¬Occupies new n → Yields found n x
  new_only : ∀ n x, Yields new n x → ¬Occupies old n → Yields found n x
  both : ∀ n x y, Yields old n x → Yields new n y → ∃ z, combine x y = .ok z ∧ Yields found n z

namespace Combines

variable {combine : V → V → Result V} {old new found : List (Sequence V)}

lemma symm (h : Combines combine old new found) :
    Combines (fun y x => combine x y) new old found :=
  ⟨fun n => (h.occupies_iff n).trans or_comm, h.new_only, h.old_only,
    fun n y x hy hx => h.both n x y hx hy⟩

lemma nil_left : Combines combine [] new new :=
  ⟨fun _ => (or_iff_right not_occupies_nil).symm, fun _ _ h => absurd h not_yields_nil,
    fun _ _ h _ => h, fun _ _ _ h => absurd h not_yields_nil⟩

lemma nil_right : Combines combine old [] old :=
  ⟨fun _ => (or_iff_left not_occupies_nil).symm, fun _ _ h _ => h,
    fun _ _ h => absurd h not_yields_nil, fun _ _ _ _ h => absurd h not_yields_nil⟩

lemma cons_left (h : Combines combine old new found) {p : Sequence V}
    (hp : ∀ n, p.Covers n → ¬Occupies new n) :
    Combines combine (p :: old) new (p :: found) := by
  refine ⟨fun n => ?_, fun n x hx hn => ?_, fun n x hx hn => ?_, fun n x y hx hy => ?_⟩
  · rw [occupies_cons, occupies_cons, h.occupies_iff, or_assoc]
  · rw [yields_cons] at hx ⊢
    exact hx.imp_right fun hx => h.old_only n x hx hn
  · rw [occupies_cons, not_or] at hn
    exact yields_cons.mpr (Or.inr (h.new_only n x hx hn.2))
  · rcases yields_cons.mp hx with hx | hx
    · exact absurd hy.occupies (hp n hx.covers)
    · obtain ⟨z, hz, hfound⟩ := h.both n x y hx hy
      exact ⟨z, hz, yields_cons.mpr (Or.inr hfound)⟩

/-- Pieces at one place of either side and what is made of them. -/
lemma cons_both (h : Combines combine old new found) {p q r : Sequence V} {m : Int} {a b z : V}
    (hp : ∀ n x, p.Takes n x ↔ n = m ∧ x = a) (hq : ∀ n x, q.Takes n x ↔ n = m ∧ x = b)
    (hr : ∀ n x, r.Takes n x ↔ n = m ∧ x = z) (hz : combine a b = .ok z)
    (hold : ¬Occupies old m) (hnew : ¬Occupies new m) :
    Combines combine (p :: old) (q :: new) (r :: found) := by
  have hcovers : ∀ {s : Sequence V} {c : V}, (∀ n x, s.Takes n x ↔ n = m ∧ x = c) →
      ∀ n, s.Covers n ↔ n = m := by
    intro s c hs n
    constructor
    · exact fun hn => ((hs n (s.held n)).mp ⟨hn, rfl⟩).1
    · rintro rfl
      exact ((hs n c).mpr ⟨rfl, rfl⟩).covers
  refine ⟨fun n => ?_, fun n x hx hn => ?_, fun n x hx hn => ?_, fun n x y hx hy => ?_⟩
  · rw [occupies_cons, occupies_cons, occupies_cons, h.occupies_iff, hcovers hp, hcovers hq,
      hcovers hr]
    tauto
  · rw [occupies_cons, not_or, hcovers hq] at hn
    rcases yields_cons.mp hx with hx | hx
    · exact absurd ((hp n x).mp hx).1 hn.1
    · exact yields_cons.mpr (Or.inr (h.old_only n x hx hn.2))
  · rw [occupies_cons, not_or, hcovers hp] at hn
    rcases yields_cons.mp hx with hx | hx
    · exact absurd ((hq n x).mp hx).1 hn.1
    · exact yields_cons.mpr (Or.inr (h.new_only n x hx hn.2))
  · rcases yields_cons.mp hx with hx | hx
    · obtain ⟨rfl, rfl⟩ := (hp n x).mp hx
      rcases yields_cons.mp hy with hy | hy
      · obtain ⟨-, rfl⟩ := (hq n y).mp hy
        exact ⟨z, hz, yields_cons.mpr (Or.inl ((hr n z).mpr ⟨rfl, rfl⟩))⟩
      · exact absurd hy.occupies hnew
    · rcases yields_cons.mp hy with hy | hy
      · obtain ⟨rfl, rfl⟩ := (hq n y).mp hy
        exact absurd hx.occupies hold
      · obtain ⟨w, hw, hfound⟩ := h.both n x y hx hy
        exact ⟨w, hw, yields_cons.mpr (Or.inr hfound)⟩

/-- What is made of pieces only depends on the values that they take. -/
lemma congr (h : Combines combine old new found) {old' new' found' : List (Sequence V)}
    (ho : ∀ n x, Yields old' n x ↔ Yields old n x) (hn : ∀ n x, Yields new' n x ↔ Yields new n x)
    (hf : ∀ n x, Yields found' n x ↔ Yields found n x) : Combines combine old' new' found' := by
  have hoccupies : ∀ {pieces more : List (Sequence V)},
      (∀ n x, Yields pieces n x ↔ Yields more n x) → ∀ n, Occupies pieces n ↔ Occupies more n := by
    intro pieces more hy n
    simp only [occupies_iff_exists_yields, hy]
  refine ⟨fun n => ?_, fun n x hx hout => ?_, fun n x hx hout => ?_, fun n x y hx hy => ?_⟩
  · rw [hoccupies hf, hoccupies ho, hoccupies hn, h.occupies_iff]
  · rw [hoccupies hn] at hout
    exact (hf n x).mpr (h.old_only n x ((ho n x).mp hx) hout)
  · rw [hoccupies ho] at hout
    exact (hf n x).mpr (h.new_only n x ((hn n x).mp hx) hout)
  · obtain ⟨z, hz, hfound⟩ := h.both n x y ((ho n x).mp hx) ((hn n y).mp hy)
    exact ⟨z, hz, (hf n z).mpr hfound⟩

lemma frame (h : Combines combine old new found) {others : List (Sequence V)}
    (hapart : ∀ n, Occupies others n → ¬Occupies new n) :
    Combines combine (others ++ old) new (others ++ found) := by
  refine ⟨fun n => ?_, fun n x hx hn => ?_, fun n x hx hn => ?_, fun n x y hx hy => ?_⟩
  · rw [occupies_append, occupies_append, h.occupies_iff, or_assoc]
  · rw [yields_append] at hx ⊢
    exact hx.imp_right fun hx => h.old_only n x hx hn
  · rw [occupies_append, not_or] at hn
    exact yields_append.mpr (Or.inr (h.new_only n x hx hn.2))
  · rcases yields_append.mp hx with hx | hx
    · exact absurd hy.occupies (hapart n hx.occupies)
    · obtain ⟨z, hz, hfound⟩ := h.both n x y hx hy
      exact ⟨z, hz, yields_append.mpr (Or.inr hfound)⟩

end Combines

namespace Kept

variable {interp : Interpolation} {pieces : List (Sequence V)}

lemma nil : Kept interp ([] : List (Sequence V)) :=
  ⟨by simp, by simp, List.Pairwise.nil, by simp⟩

lemma tail {p : Sequence V} (h : Kept interp (p :: pieces)) : Kept interp pieces :=
  ⟨fun q hq => h.wellFormed q (by simp [hq]), fun q hq => h.interp_eq q (by simp [hq]),
    h.rising.tail, fun hd q hq => h.single hd q (by simp [hq])⟩

lemma sublist {part : List (Sequence V)} (h : Kept interp pieces) (hs : part.Sublist pieces) :
    Kept interp part :=
  ⟨fun q hq => h.wellFormed q (hs.subset hq), fun q hq => h.interp_eq q (hs.subset hq),
    h.rising.sublist hs, fun hd q hq => h.single hd q (hs.subset hq)⟩

variable [LawfulValue V]

lemma covers_iff (h : Kept interp pieces) {p : Sequence V} (hp : p ∈ pieces) (n : Int) :
    p.Covers n ↔ p.lo ≤ n ∧ n ≤ p.hi := by
  cases hd : p.isDiscrete with
  | false => exact covers_of_continuous hd n
  | true =>
    have hnil : p.rest = [] :=
      h.single ((h.interp_eq p hp).symm.trans (isDiscrete_iff.mp hd)) p hp
    obtain ⟨hlo, hhi⟩ := (h.wellFormed p hp).ends_of_rest_eq_nil hnil
    rw [covers_of_discrete hd, hlo, hhi]
    unfold instants
    rw [hnil]
    simp only [List.mem_singleton, exists_eq_left]
    omega

omit [LawfulValue V] in
lemma train (h : Kept interp pieces) (hd : interp ≠ .discrete) : Train interp pieces :=
  ⟨h.wellFormed, h.interp_eq, hd, h.rising⟩

lemma apart (h : Kept interp pieces) : pieces.Pairwise Apart :=
  h.rising.imp_of_mem fun {a b} ha hb hab =>
    Before.apart (h.wellFormed a ha) (h.wellFormed b hb) hab

lemma lt_of_occupies {p : Sequence V} (h : Kept interp (p :: pieces)) {n : Int}
    (hn : Occupies pieces n) : p.hi < n := by
  obtain ⟨q, hq, hqn⟩ := hn
  have hpq : p.Before q := List.rel_of_pairwise_cons h.rising hq
  have := (h.wellFormed q (by simp [hq])).mem_period hqn
  unfold Before at hpq
  omega

lemma cons {p : Sequence V} (h : Kept interp pieces) (hp : p.WellFormed) (hi : p.interp = interp)
    (hs : interp = .discrete → p.rest = []) (hlt : ∀ n, Occupies pieces n → p.hi < n) :
    Kept interp (p :: pieces) := by
  refine ⟨fun q hq => ?_, fun q hq => ?_, List.pairwise_cons.mpr ⟨fun q hq => ?_, h.rising⟩,
    fun hd q hq => ?_⟩
  · exact (List.mem_cons.mp hq).elim (fun heq => heq ▸ hp) (h.wellFormed q)
  · exact (List.mem_cons.mp hq).elim (fun heq => heq ▸ hi) (h.interp_eq q)
  · exact hlt q.lo ⟨q, hq, (h.wellFormed q hq).covers_lo⟩
  · exact (List.mem_cons.mp hq).elim (fun heq => heq ▸ hs hd) (h.single hd q)

end Kept

/-- The first piece of one side stays in front of what is made of the others if the other side comes
after it. -/
lemma Kept.combine_front [LawfulValue V] {interp : Interpolation} {combine : V → V → Result V}
    {p : Sequence V} {old new found : List (Sequence V)} (ho : Kept interp (p :: old))
    (hnew : ∀ n, Occupies new n → p.hi < n) (hk : Kept interp found)
    (hc : Combines combine old new found) :
    Kept interp (p :: found) ∧ Combines combine (p :: old) new (p :: found) := by
  refine ⟨hk.cons (ho.wellFormed p (by simp)) (ho.interp_eq p (by simp))
    (fun hd => ho.single hd p (by simp)) fun n hn => ?_, hc.cons_left fun n hpn hn => ?_⟩
  · exact ((hc.occupies_iff n).mp hn).elim ho.lt_of_occupies (hnew n)
  · have hlt := hnew n hn
    have hle := ((ho.covers_iff (by simp) n).mp hpn).2
    omega

lemma Kept.takes_iff [LawfulValue V] {pieces : List (Sequence V)} (h : Kept .discrete pieces)
    {p : Sequence V} (hp : p ∈ pieces) (n : Int) (x : V) :
    p.Takes n x ↔ n = p.first.time.place ∧ x = p.first.value := by
  have hd : p.isDiscrete = true := isDiscrete_iff.mpr (h.interp_eq p hp)
  rw [(h.wellFormed p hp).takes_of_discrete hd]
  unfold instants
  rw [h.single rfl p hp]
  simp only [List.mem_singleton, exists_eq_left]
  exact and_congr eq_comm eq_comm

lemma Kept.hi_of_discrete [LawfulValue V] {pieces : List (Sequence V)} (h : Kept .discrete pieces)
    {p : Sequence V} (hp : p ∈ pieces) : p.hi = p.first.time.place := by
  have hcov := (h.takes_iff hp p.hi (p.held p.hi)).mp
    ⟨(h.covers_iff hp _).mpr ⟨(h.wellFormed p hp).lo_le_hi, le_refl _⟩, rfl⟩
  exact hcov.1

lemma Kept.first_le_of_occupies [LawfulValue V] {pieces : List (Sequence V)} {p : Sequence V}
    (h : Kept .discrete (p :: pieces)) {n : Int} (hn : Occupies (p :: pieces) n) :
    p.first.time.place ≤ n := by
  have hhi := h.hi_of_discrete (List.mem_cons_self ..)
  rcases occupies_cons.mp hn with hn | hn
  · exact ((h.takes_iff (List.mem_cons_self ..) n (p.held n)).mp ⟨hn, rfl⟩).1.ge
  · exact hhi ▸ (h.lt_of_occupies hn).le

lemma kept_parts [LawfulValue V] {interp : Interpolation} (hd : interp ≠ .discrete)
    {found : Option (Temporal V)}
    (h : ∀ v ∈ found, v.WellFormed ∧ v.interp = interp) :
    Kept interp (Temporal.parts found) := by
  cases found with
  | none => exact Kept.nil
  | some v =>
    obtain ⟨hwf, rfl⟩ := h v rfl
    exact ⟨hwf.sequences, hwf.interp_eq, hwf.rising, fun hi => absurd hi hd⟩

end Sequence

namespace Aggregator

open Sequence

variable {V : Type} [TemporalValue V]

/-- Instants are merged by their timestamps. -/
theorem mergeInstants_spec [LawfulValue V] {combine : V → V → Result V}
    {old new found : List (Sequence V)} (ho : Kept .discrete old) (hn : Kept .discrete new)
    (h : mergeInstants combine old new = .ok found) :
    Kept .discrete found ∧ Combines combine old new found := by
  fun_induction mergeInstants combine old new generalizing found with
  | case1 new =>
    obtain rfl := Except.ok.inj h
    exact ⟨hn, Combines.nil_left⟩
  | case2 a old =>
    obtain rfl := Except.ok.inj h
    exact ⟨ho, Combines.nil_right⟩
  | case3 a old b new hlt ih =>
    simp only [bind_eq_ok, pure_eq_ok] at h
    obtain ⟨rest, hrest, rfl⟩ := h
    obtain ⟨hkept, hcombines⟩ := ih ho.tail hn hrest
    rw [Timestamp.compare_eq, compare_lt_iff_lt] at hlt
    have hfirst : ∀ n, Occupies (b :: new) n → a.hi < n := by
      intro n hnew
      have ha := ho.hi_of_discrete (List.mem_cons_self ..)
      have hb := hn.first_le_of_occupies hnew
      omega
    exact ho.combine_front hfirst hkept hcombines
  | case4 a old b new hgt ih =>
    simp only [bind_eq_ok, pure_eq_ok] at h
    obtain ⟨rest, hrest, rfl⟩ := h
    obtain ⟨hkept, hcombines⟩ := ih ho hn.tail hrest
    rw [Timestamp.compare_eq, compare_gt_iff_gt] at hgt
    have hfirst : ∀ n, Occupies (a :: old) n → b.hi < n := by
      intro n hold
      have hb := hn.hi_of_discrete (List.mem_cons_self ..)
      have ha := ho.first_le_of_occupies hold
      omega
    exact (hn.combine_front hfirst hkept hcombines.symm).imp_right Combines.symm
  | case5 a old b new heq ih =>
    simp only [bind_eq_ok, pure_eq_ok] at h
    obtain ⟨x, hx, rest, hrest, rfl⟩ := h
    obtain ⟨hkept, hcombines⟩ := ih ho.tail hn.tail hrest
    rw [Timestamp.compare_eq, compare_eq_iff_eq] at heq
    have ha := ho.hi_of_discrete (List.mem_cons_self ..)
    have hb := hn.hi_of_discrete (List.mem_cons_self ..)
    have hold : ∀ n, Occupies old n → a.first.time.place < n := fun n h =>
      ha ▸ ho.lt_of_occupies h
    have hnew : ∀ n, Occupies new n → a.first.time.place < n := fun n h =>
      heq ▸ hb ▸ hn.lt_of_occupies h
    have htakes : ∀ n y, b.Takes n y ↔ n = a.first.time.place ∧ y = b.first.value := fun n y =>
      heq ▸ hn.takes_iff (List.mem_cons_self ..) n y
    refine ⟨hkept.cons (wellFormed_ofInstant _ (by simp)) rfl (fun _ => rfl) fun n hrest => ?_, ?_⟩
    · have hhi : (ofInstant (a.first.withValue x) .discrete).hi = a.first.time.place := by
        rw [hi_eq]
        exact Int.sub_zero _
      rw [hhi]
      exact ((hcombines.occupies_iff n).mp hrest).elim (hold n) (hnew n)
    · exact hcombines.cons_both (ho.takes_iff (List.mem_cons_self ..)) htakes
        (takes_ofInstant _ _) hx (fun h => lt_irrefl _ (hold _ h)) fun h => lt_irrefl _ (hnew _ h)

lemma exists_mergeInstants {combine : V → V → Result V} (h : ∀ x y, ∃ z, combine x y = .ok z)
    (old new : List (Sequence V)) : ∃ found, mergeInstants combine old new = .ok found := by
  fun_induction mergeInstants combine old new with
  | case1 new => exact ⟨new, rfl⟩
  | case2 a old => exact ⟨a :: old, rfl⟩
  | case3 a old b new _ ih =>
    obtain ⟨rest, hrest⟩ := ih
    exact ⟨a :: rest, bind_eq_ok.mpr ⟨rest, hrest, rfl⟩⟩
  | case4 a old b new _ ih =>
    obtain ⟨rest, hrest⟩ := ih
    exact ⟨b :: rest, bind_eq_ok.mpr ⟨rest, hrest, rfl⟩⟩
  | case5 a old b new _ ih =>
    obtain ⟨x, hx⟩ := h a.first.value b.first.value
    obtain ⟨rest, hrest⟩ := ih
    exact ⟨_, bind_eq_ok.mpr ⟨x, hx, bind_eq_ok.mpr ⟨rest, hrest, rfl⟩⟩⟩

variable [StepValue V] {combine : V → V → Result V} {crossings : Bool} {interp : Interpolation}
  {old new found : List (Sequence V)}

lemma ofSequences_of_kept (hd : interp ≠ .discrete) {pieces : List (Sequence V)}
    (h : Kept interp pieces) (hne : pieces ≠ []) :
    ∃ v, Temporal.ofSequences pieces = .ok v ∧ v.WellFormed ∧ v.interp = interp ∧
      (∀ n, v.Covers n ↔ Occupies pieces n) ∧ ∀ n x, v.Takes n x ↔ Yields pieces n x := by
  obtain ⟨v, hv, hwf, hi, hg⟩ := Temporal.exists_ofSequences_of_step hne (h.train hd)
  exact ⟨v, hv, hwf, hi, hg.covers_iff, hg.takes_iff inferInstance⟩

lemma interp_eq_step (hd : interp ≠ .discrete) {pieces : List (Sequence V)}
    (h : Kept interp pieces) (hne : pieces ≠ []) : interp = .step := by
  obtain ⟨p, hp⟩ := List.exists_mem_of_ne_nil pieces hne
  have hl := (h.wellFormed p hp).interp_ne_linear
  rw [h.interp_eq p hp] at hl
  cases interp with
  | discrete => exact absurd rfl hd
  | step => rfl
  | linear => exact absurd rfl hl

/-- What is left of two values outside of each other and what is lifted over their common time are
what is made of both. -/
lemma combines_of_parts {a b : Temporal V} (hwa : a.WellFormed) (hwb : b.WellFormed)
    {g : Lifting V V} {onlyA onlyB both : Option (Temporal V)}
    (hA : Temporal.Restricts a (fun n => ¬b.time.Covers n) onlyA)
    (hB : Temporal.Restricts b (fun n => ¬a.time.Covers n) onlyB)
    (hboth : Temporal.Lifts g a b both) :
    Combines g.apply a.sequences b.sequences
      (Temporal.parts onlyA ++ Temporal.parts onlyB ++ Temporal.parts both) := by
  have hta := hwa.time_spec.2
  have htb := hwb.time_spec.2
  refine ⟨fun n => ?_, fun n x hx hn => ?_, fun n x hx hn => ?_, fun n x y hx hy => ?_⟩
  · have h1 : Occupies (Temporal.parts onlyA) n ↔ a.Covers n ∧ ¬b.Covers n := by
      rw [← htb]
      exact hA.covers_iff n
    have h2 : Occupies (Temporal.parts onlyB) n ↔ b.Covers n ∧ ¬a.Covers n := by
      rw [← hta]
      exact hB.covers_iff n
    have h3 : Occupies (Temporal.parts both) n ↔ a.Covers n ∧ b.Covers n := hboth.covers_iff n
    rw [occupies_append, occupies_append, h1, h2, h3]
    change _ ↔ a.Covers n ∨ b.Covers n
    tauto
  · rw [yields_append, yields_append]
    refine Or.inl (Or.inl ((hA.takes_iff inferInstance n x).mpr ⟨hx, ?_⟩))
    rwa [htb]
  · rw [yields_append, yields_append]
    refine Or.inl (Or.inr ((hB.takes_iff inferInstance n x).mpr ⟨hx, ?_⟩))
    rwa [hta]
  · obtain ⟨z, hz⟩ := Temporal.someCovers_iff_exists_takes.mp
      ((hboth.covers_iff n).mpr ⟨Yields.occupies hx, Yields.occupies hy⟩)
    obtain ⟨x', y', hx', hy', happly⟩ := (hboth.takes_iff inferInstance inferInstance n z).mp hz
    obtain rfl := hwa.takes_unique hx hx'
    obtain rfl := hwb.takes_unique hy hy'
    exact ⟨z, happly, yields_append.mpr (Or.inr hz)⟩

/-- Continuous pieces are merged by what is left of either side outside of the other one and what
is lifted over the common time. -/
theorem mergeSequences_spec (hd : interp ≠ .discrete) (ho : Kept interp old)
    (hn : Kept interp new) (hold : old ≠ []) (hnew : new ≠ [])
    (h : mergeSequences combine crossings old new = .ok found) :
    Kept interp found ∧ Combines combine old new found := by
  unfold mergeSequences at h
  simp only [bind_eq_ok, pure_eq_ok] at h
  obtain ⟨a, ha, b, hb, onlyA, hA, onlyB, hB, both, hboth, result, hresult, rfl⟩ := h
  obtain ⟨a', ha', hwa, hia, hca, hta⟩ := ofSequences_of_kept hd ho hold
  obtain rfl := Except.ok.inj (ha.symm.trans ha')
  obtain ⟨b', hb', hwb, hib, hcb, htb⟩ := ofSequences_of_kept hd hn hnew
  obtain rfl := Except.ok.inj (hb.symm.trans hb')
  obtain ⟨onlyA', hA', hrA⟩ := Temporal.exists_outsidePeriods hwa hwb.time_spec.1
  obtain rfl := Except.ok.inj (hA.symm.trans hA')
  obtain ⟨onlyB', hB', hrB⟩ := Temporal.exists_outsidePeriods hwb hwa.time_spec.1
  obtain rfl := Except.ok.inj (hB.symm.trans hB')
  have hlifts := Temporal.lift_spec hwa hwb hboth
  have hparts := combines_of_parts hwa hwb hrA hrB hlifts
  have happly : (if crossings then { apply := combine, turning := TemporalValue.crossing }
      else { apply := combine } : Lifting V V).apply = combine := by
    cases crossings <;> rfl
  rw [happly] at hparts
  have hlifted : ∀ v ∈ both, v.interp = interp := by
    intro v hv
    rw [hlifts.interp_eq (by simp [Temporal.isDiscrete, hia, hib, hd]) v hv, hia, hib,
      interp_eq_step hd ho hold]
    exact if_neg (by simp)
  have hpart : ∀ found : Option (Temporal V), (∀ v ∈ found, v.WellFormed ∧ v.interp = interp) →
      ∀ p ∈ Temporal.parts found, p.WellFormed ∧ p.interp = interp := fun found h p hp =>
    ⟨(kept_parts hd h).wellFormed p hp, (kept_parts hd h).interp_eq p hp⟩
  have hkept : ∀ p ∈ Temporal.parts onlyA ++ Temporal.parts onlyB ++ Temporal.parts both,
      p.WellFormed ∧ p.interp = interp := by
    intro p hp
    rw [List.mem_append, List.mem_append] at hp
    rcases hp with (hp | hp) | hp
    · exact hpart onlyA (fun v hv => ⟨hrA.wellFormed v hv, (hrA.interp_eq v hv).trans hia⟩) p hp
    · exact hpart onlyB (fun v hv => ⟨hrB.wellFormed v hv, (hrB.interp_eq v hv).trans hib⟩) p hp
    · exact hpart both (fun v hv => ⟨hlifts.wellFormed v hv, hlifted v hv⟩) p hp
  have hassembles := Temporal.assembles_of_ofPieces_eq_ok (fun p hp => (hkept p hp).1)
    (fun p hp => (hkept p hp).2) hd hresult
  refine ⟨kept_parts hd fun v hv => ⟨hassembles.wellFormed v hv, ?_⟩,
    hparts.congr (fun n x => (hta n x).symm) (fun n x => (htb n x).symm)
      (hassembles.gathers.takes_iff inferInstance)⟩
  obtain rfl : result = some v := hv
  exact hassembles.interp_of_pieces fun p hp => (hkept p hp).2

end Aggregator

end TemporalAlgebra
