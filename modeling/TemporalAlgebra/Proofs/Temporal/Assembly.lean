import TemporalAlgebra.Proofs.Temporal.Joining

/-!
# Values assembled from pieces

Pieces of one interpolation that share no place and whose values go together can be assembled into
one value, in whatever order they come. The value is defined where the pieces are and takes their
values there.
-/
namespace TemporalAlgebra

namespace Sequence

variable {V : Type} [TemporalValue V]

def Apart (a b : Sequence V) : Prop := ∀ n, ¬(a.Covers n ∧ b.Covers n)

lemma Apart.symm {a b : Sequence V} (h : a.Apart b) : b.Apart a := fun n hn => h n hn.symm

lemma Before.apart [LawfulValue V] {a b : Sequence V} (ha : a.WellFormed) (hb : b.WellFormed)
    (h : a.Before b) : a.Apart b := by
  rintro n ⟨han, hbn⟩
  have := ha.mem_period han
  have := hb.mem_period hbn
  unfold Before at h
  omega

lemma pairwise_sort_periods {α : Type*} (f : α → Sequence V) (as : List α) :
    (as.mergeSort fun a b => (f a).period.order (f b).period != .gt).Pairwise fun a b =>
      (f a).lo < (f b).lo ∨ (f a).lo = (f b).lo ∧ (f a).hi ≤ (f b).hi := by
  have h : (as.mergeSort fun a b => (f a).period.order (f b).period != .gt).Pairwise
      fun a b => ((f a).period.order (f b).period != .gt) = true := by
    refine List.pairwise_mergeSort (fun a b c hab hbc => ?_) (fun a b => ?_) as
    · rw [Span.order_ne_gt_iff] at hab hbc ⊢
      omega
    · rw [Bool.or_eq_true, Span.order_ne_gt_iff, Span.order_ne_gt_iff]
      omega
  exact h.imp fun hab => (Span.order_ne_gt_iff _ _).mp hab

omit [TemporalValue V] in
lemma pairwise_sort_times (instants : List (Instant V)) :
    (instants.mergeSort fun a b => a.time ≤ b.time).Pairwise
      fun a b => a.time.place ≤ b.time.place := by
  have h : (instants.mergeSort fun a b => a.time ≤ b.time).Pairwise
      fun a b => decide (a.time ≤ b.time) = true := by
    refine List.pairwise_mergeSort (fun a b c hab hbc => ?_) (fun a b => ?_) _
    · rw [decide_eq_true_eq, Timestamp.le_iff] at hab hbc ⊢
      omega
    · rw [Bool.or_eq_true, decide_eq_true_eq, decide_eq_true_eq, Timestamp.le_iff,
        Timestamp.le_iff]
      omega
  exact h.imp fun hab => Timestamp.le_iff.mp (of_decide_eq_true hab)

variable [StepValue V]

lemma silent_checkRising (a : Instant V) (rest : List (Instant V)) :
    Silent (checkRising a rest) := by
  induction rest generalizing a with
  | nil => exact Silent.ok ()
  | cons b rest ih =>
    refine (Silent.require _ _).bind fun _ => Silent.bind ?_ fun _ => ih b
    rw [StepValue.compatible_eq_ok]
    exact Silent.ok ()

lemma silent_make (instants : List (Instant V)) (lowerInc upperInc : Bool)
    (interp : Interpolation) : Silent (make instants lowerInc upperInc interp false) := by
  cases instants with
  | nil => exact Silent.refuse _
  | cons first rest =>
    refine Silent.bind ?_ fun _ => Silent.ok _
    exact (Silent.require _ _).bind fun _ => (silent_checkRising _ _).bind fun _ =>
      (Silent.require _ _).bind fun _ => Silent.require _ _

end Sequence

namespace SequenceSet

open Sequence

variable {V : Type} [TemporalValue V]

lemma silent_checkKinds (interp : Interpolation) (pieces : List (Sequence V)) :
    Silent (checkKinds interp pieces) := by
  induction pieces with
  | nil => exact Silent.ok ()
  | cons s rest ih =>
    exact (Silent.require _ _).bind fun _ => (Silent.require _ _).bind fun _ => ih

section

variable [StepValue V]

lemma silent_checkRising (a : Sequence V) (rest : List (Sequence V)) :
    Silent (checkRising a rest) := by
  induction rest generalizing a with
  | nil => exact Silent.ok ()
  | cons b rest ih =>
    refine (Silent.require _ _).bind fun _ => Silent.bind ?_ fun _ => ih b
    rw [StepValue.compatible_eq_ok]
    exact Silent.ok ()

lemma silent_make (pieces : List (Sequence V)) : Silent (make pieces false) := by
  cases pieces with
  | nil => exact Silent.refuse _
  | cons first rest =>
    exact (silent_checkKinds _ _).bind fun _ => (silent_checkRising _ _).bind fun _ => Silent.ok _

end

lemma wellFormed_of_isTrain [LawfulValue V] {s : SequenceSet V} {interp : Interpolation} {c : V}
    (h : Train interp s.sequences) (hc : Compatible c s.sequences) : s.WellFormed := by
  refine ⟨h.wellFormed, checkKinds_eq_ok_iff.mpr fun x hx => ?_, checkRising_eq_ok_iff.mpr ?_⟩
  · refine ⟨?_, h.isDiscrete hx⟩
    rw [h.interp_eq x hx]
    exact (h.interp_eq s.first (List.mem_cons_self ..)).symm
  · refine (h.rising.imp_of_mem fun {a b} ha hb hab => ?_).isChain
    refine ⟨hab, LawfulValue.compatible_trans (LawfulValue.compatible_symm ?_)
      (hc b hb b.first (by simp [instants]))⟩
    exact hc a ha a.last a.last_mem

lemma hi_le_last [LawfulValue V] {interp : Interpolation} {a : Sequence V}
    {rest : List (Sequence V)} (h : Train interp (a :: rest)) :
    ∀ s ∈ a :: rest, s.hi ≤ (rest.getLastD a).hi := by
  induction rest generalizing a with
  | nil =>
    intro s hs
    obtain rfl := List.mem_singleton.mp hs
    exact le_refl _
  | cons b rest ih =>
    intro s hs
    rw [List.getLastD_cons]
    have hb := ih h.tail b (by simp)
    rcases List.mem_cons.mp hs with rfl | hs
    · have hab : s.Before b := List.rel_of_pairwise_cons h.rising (by simp)
      have := (h.wellFormed b (by simp)).lo_le_hi
      unfold Before at hab
      omega
    · exact ih h.tail s hs

section

variable [LawfulValue V] {first : Sequence V} {rest : List (Sequence V)} {interp : Interpolation}
  {c : V} (h : Train interp (first :: rest)) (hc : Compatible c (first :: rest))
include h hc

/-- A set of sequences that pass the checks of sets is given up if joining them is. -/
lemma completes_make_iff : Completes (make (first :: rest) true) ↔ Completes (join first rest) := by
  have hwf := wellFormed_of_isTrain (s := ofRun first rest) h hc
  have hmake : make (first :: rest) true = join first rest >>= fun x => pure (ofRun x.1 x.2) :=
    (bind_of_ok hwf.kinds).trans (bind_of_ok hwf.rising)
  rw [hmake]
  exact ⟨fun hdone => hdone.left, fun hdone => hdone.bind fun _ _ => Completes.ok _⟩

/-- A train of sequences whose values go together makes up a set, if that ends. -/
lemma make_spec (hdone : Completes (make (first :: rest) true)) :
    ∃ set, make (first :: rest) true = .ok set ∧ Train interp set.sequences ∧
      Gathers (first :: rest) set.sequences := by
  have hwf := wellFormed_of_isTrain (s := ofRun first rest) h hc
  obtain ⟨first', rest', hok, htrain, -, hg⟩ :=
    join_spec h hc ((completes_make_iff h hc).mp hdone)
  exact ⟨ofRun first' rest', make_cons_eq_ok_iff.mpr ⟨hwf.kinds, hwf.rising, _, hok, rfl⟩, htrain,
    hg⟩

lemma completes_make_of_confined (hconfined : Confined (first :: rest)) :
    Completes (make (first :: rest) true) :=
  (completes_make_iff h hc).mpr (completes_join h hc hconfined)

end

lemma join_eq_self {a : Sequence V} {rest : List (Sequence V)}
    (h : (a :: rest).IsChain fun x y => joined x y = none) : join a rest = .ok (a, rest) := by
  induction rest generalizing a with
  | nil => rfl
  | cons b rest ih =>
    obtain ⟨hab, hrest⟩ := List.isChain_cons_cons.mp h
    exact (join_eq_ok_of_not_joined hab).mpr ⟨b, rest, ih hrest, rfl⟩

lemma make_eq_ofRun [LawfulValue V] {first : Sequence V} {rest : List (Sequence V)}
    {interp : Interpolation} {c : V} (h : Train interp (first :: rest))
    (hc : Compatible c (first :: rest)) :
    make (first :: rest) false = .ok (ofRun first rest) := by
  have hwf := wellFormed_of_isTrain (s := ofRun first rest) h hc
  exact make_cons_eq_ok_iff.mpr ⟨hwf.kinds, hwf.rising, _, rfl, rfl⟩

lemma train_of_make_eq_ok [LawfulValue V] {first : Sequence V} {rest : List (Sequence V)}
    {normalizing : Bool} {set : SequenceSet V} (hwf : ∀ s ∈ first :: rest, s.WellFormed)
    (h : make (first :: rest) normalizing = .ok set) :
    Train first.interp (first :: rest) ∧ Compatible first.first.value (first :: rest) := by
  obtain ⟨hkinds, hrising, -⟩ := make_cons_eq_ok_iff.mp h
  have hk := checkKinds_eq_ok_iff.mp hkinds
  obtain ⟨hpair, hc⟩ := rising_of_isChain hwf (checkRising_eq_ok_iff.mp hrising)
  exact ⟨⟨hwf, fun s hs => (hk s hs).1,
    isDiscrete_eq_false_iff.mp (hk first (List.mem_cons_self ..)).2, hpair⟩, hc⟩

lemma sequences_of_make {pieces : List (Sequence V)} {set : SequenceSet V}
    (h : make pieces false = .ok set) : set.sequences = pieces := by
  obtain ⟨first, rest, rfl⟩ := exists_cons_of_make h
  obtain ⟨-, -, found, hfound, rfl⟩ := make_cons_eq_ok_iff.mp h
  obtain rfl : (first, rest) = found := Except.ok.inj hfound
  rfl

lemma wellFormed_of_make [LawfulValue V] {pieces : List (Sequence V)} {normalizing : Bool}
    {set : SequenceSet V} (hwf : ∀ s ∈ pieces, s.WellFormed)
    (h : make pieces normalizing = .ok set) : set.WellFormed := by
  obtain ⟨first, rest, rfl⟩ := exists_cons_of_make h
  cases normalizing with
  | true =>
    obtain ⟨htrain, hc⟩ := train_of_make_eq_ok hwf h
    obtain ⟨set', hset, htrain', hg⟩ := make_spec htrain hc (.of_eq_ok h)
    obtain rfl : set = set' := Except.ok.inj (h.symm.trans hset)
    exact wellFormed_of_isTrain htrain' (hc.gathers hg)
  | false =>
    obtain ⟨hkinds, hrising, found, hfound, rfl⟩ := make_cons_eq_ok_iff.mp h
    obtain rfl : (first, rest) = found := Except.ok.inj hfound
    exact ⟨hwf, hkinds, hrising⟩

end SequenceSet

namespace Temporal

open Sequence

variable {V : Type} [TemporalValue V]

def parts (found : Option (Temporal V)) : List (Sequence V) :=
  match found with
  | some v => v.sequences
  | none => []

/-- A value, if there are any pieces, that takes the place of pieces. -/
structure Assembles (pieces : List (Sequence V)) (found : Option (Temporal V)) : Prop where
  wellFormed : ∀ v ∈ found, v.WellFormed
  interp_eq : ∀ v ∈ found, ∀ s ∈ pieces, s.interp = v.interp
  gathers : Gathers pieces (parts found)

section

variable [LawfulValue V]

lemma Assembles.interp_of_pieces {pieces : List (Sequence V)} {v : Temporal V}
    (h : Assembles pieces (some v)) {interp : Interpolation}
    (hi : ∀ s ∈ pieces, s.interp = interp) : v.interp = interp := by
  obtain ⟨s, hs⟩ := exists_mem_sequences v
  have hwf := (h.wellFormed v rfl).sequences s hs
  obtain ⟨p, hp, -⟩ := (h.gathers.covers_iff s.lo).mp ⟨s, hs, hwf.covers_lo⟩
  rw [← h.interp_eq v rfl p hp, hi p hp]

lemma completes_ofSequences {pieces : List (Sequence V)} {interp : Interpolation} {c : V}
    (h : Train interp pieces) (hc : Compatible c pieces) (hconfined : Confined pieces) :
    Completes (ofSequences pieces) := by
  match pieces with
  | [] => exact Completes.refuse_bind _ _
  | [s] => exact Completes.ok _
  | a :: b :: rest =>
    exact (SequenceSet.completes_make_of_confined h hc hconfined).bind fun _ _ => Completes.ok _

lemma ofSequences_spec {pieces : List (Sequence V)} {interp : Interpolation} {c : V}
    (hne : pieces ≠ []) (h : Train interp pieces) (hc : Compatible c pieces)
    (hdone : Completes (ofSequences pieces)) :
    ∃ v, ofSequences pieces = .ok v ∧ v.WellFormed ∧ v.interp = interp ∧
      Gathers pieces v.sequences := by
  match pieces, hne with
  | [s], _ =>
    exact ⟨sequence s, rfl, h.wellFormed s (by simp), h.interp_eq s (by simp), Gathers.refl _⟩
  | a :: b :: rest, _ =>
    obtain ⟨set, hok, htrain, hg⟩ := SequenceSet.make_spec h hc hdone.left
    have hfirst := List.mem_cons_self (a := set.first) (l := set.rest)
    have hofs : ofSequences (a :: b :: rest) =
        .ok (if set.rest.isEmpty then sequence set.first else sequenceSet set) := by
      unfold ofSequences
      simp only [bind_eq_ok, pure_eq_ok]
      exact ⟨set, hok, rfl⟩
    refine ⟨_, hofs, ?_⟩
    cases hrest : set.rest with
    | nil =>
      have hseq : set.sequences = [set.first] := by
        unfold SequenceSet.sequences
        rw [hrest]
      rw [hseq] at hg
      exact ⟨htrain.wellFormed _ hfirst, htrain.interp_eq _ hfirst, hg⟩
    | cons x xs =>
      exact ⟨SequenceSet.wellFormed_of_isTrain htrain (hc.gathers hg),
        htrain.interp_eq _ hfirst, hg⟩

omit [LawfulValue V] in
/-- A train of steps always makes up a value. -/
lemma exists_ofSequences_of_step [StepValue V] {pieces : List (Sequence V)}
    {interp : Interpolation} (hne : pieces ≠ []) (h : Train interp pieces) :
    ∃ v, ofSequences pieces = .ok v ∧ v.WellFormed ∧ v.interp = interp ∧
      Gathers pieces v.sequences := by
  obtain ⟨first, rest, rfl⟩ := List.exists_cons_of_ne_nil hne
  have hc : Compatible first.first.value (first :: rest) := fun _ _ _ _ =>
    StepValue.compatible_eq_ok _ _
  exact ofSequences_spec hne h hc (completes_ofSequences h hc
    (confined_of_ne_linear fun s hs => (h.wellFormed s hs).interp_ne_linear))

lemma train_of_ofSequences_eq_ok {pieces : List (Sequence V)} {interp : Interpolation}
    {v : Temporal V} (hwf : ∀ s ∈ pieces, s.WellFormed) (hi : ∀ s ∈ pieces, s.interp = interp)
    (hd : interp ≠ .discrete) (h : ofSequences pieces = .ok v) :
    Train interp pieces ∧ ∃ c, Compatible c pieces := by
  match pieces with
  | [] => simp [ofSequences, SequenceSet.make] at h
  | [s] =>
    refine ⟨⟨hwf, hi, hd, by simp⟩, s.first.value, fun x hx i hmem => ?_⟩
    obtain rfl := List.mem_singleton.mp hx
    exact (hwf x (by simp)).compatible_first hmem
  | a :: b :: rest =>
    unfold ofSequences at h
    simp only [bind_eq_ok] at h
    obtain ⟨set, hmake, -⟩ := h
    obtain ⟨htrain, hc⟩ := SequenceSet.train_of_make_eq_ok hwf hmake
    rw [hi a (by simp)] at htrain
    exact ⟨htrain, _, hc⟩

end

lemma distinctBy_eq_self {α : Type} {same : α → α → Bool} {as : List α}
    (h : as.Pairwise fun a b => same a b = false) : distinctBy same as = as := by
  induction as with
  | nil => rw [distinctBy]
  | cons a rest ih =>
    cases rest with
    | nil => rw [distinctBy]
    | cons b rest =>
      have hab : same a b = false := List.rel_of_pairwise_cons h (by simp)
      rw [distinctBy, hab, if_neg Bool.false_ne_true, ih h.tail]

variable [LawfulValue V]

lemma train_of_apart {pieces : List (Sequence V)} {interp : Interpolation}
    (hwf : ∀ s ∈ pieces, s.WellFormed) (hi : ∀ s ∈ pieces, s.interp = interp)
    (hd : interp ≠ .discrete) (hapart : pieces.Pairwise Apart) :
    Train interp (pieces.mergeSort fun a b => a.period.order b.period != .gt) := by
  have hperm := List.mergeSort_perm pieces fun a b => a.period.order b.period != .gt
  have hsorted := pairwise_sort_periods id pieces
  refine ⟨fun s hs => hwf s (hperm.mem_iff.mp hs), fun s hs => hi s (hperm.mem_iff.mp hs), hd, ?_⟩
  have hapart' := (hperm.pairwise_iff fun h => h.symm).mpr hapart
  refine (hsorted.and hapart').imp_of_mem fun {a b} ha hb hab => ?_
  obtain ⟨hle, hab⟩ := hab
  have ha := hperm.mem_iff.mp ha
  have hb := hperm.mem_iff.mp hb
  have hca := covers_of_continuous
    (isDiscrete_eq_false_iff.mpr ((hi a ha).symm ▸ hd)) (s := a) b.lo
  have hcb := covers_of_continuous
    (isDiscrete_eq_false_iff.mpr ((hi b hb).symm ▸ hd)) (s := b) b.lo
  have := (hwf b hb).lo_le_hi
  have hno := hab b.lo
  rw [hca, hcb] at hno
  change a.lo < b.lo ∨ a.lo = b.lo ∧ a.hi ≤ b.hi at hle
  unfold Before
  omega

lemma rising_of_apart {pieces : List (Sequence V)} {c : V}
    (hwf : ∀ s ∈ pieces, s.WellFormed) (hd : ∀ s ∈ pieces, s.isDiscrete = true)
    (hapart : pieces.Pairwise Apart) (hc : Compatible c pieces) :
    ((pieces.flatMap Sequence.instants).mergeSort fun a b => a.time ≤ b.time).Pairwise
      Instant.Precedes := by
  have hperm := List.mergeSort_perm (pieces.flatMap Sequence.instants) fun a b => a.time ≤ b.time
  have hsorted := pairwise_sort_times (pieces.flatMap Sequence.instants)
  have hne : (pieces.flatMap Sequence.instants).Pairwise
      fun a b => a.time.place ≠ b.time.place := by
    rw [List.pairwise_flatMap]
    refine ⟨fun s hs => (hwf s hs).rising.imp fun hab => hab.1.ne, ?_⟩
    refine hapart.imp_of_mem fun {a b} ha hb hab i hi j hj heq => ?_
    exact hab i.time.place ⟨(covers_of_discrete (hd a ha) _).mpr ⟨i, hi, rfl⟩,
      (covers_of_discrete (hd b hb) _).mpr ⟨j, hj, heq.symm⟩⟩
  have hne' := (hperm.pairwise_iff fun h => h.symm).mpr hne
  refine (hsorted.and hne').imp_of_mem fun {i j} hi hj hij => ?_
  obtain ⟨a, ha, hi⟩ := List.mem_flatMap.mp (hperm.mem_iff.mp hi)
  obtain ⟨b, hb, hj⟩ := List.mem_flatMap.mp (hperm.mem_iff.mp hj)
  obtain ⟨hle, hlt⟩ := hij
  exact ⟨lt_of_le_of_ne hle hlt, LawfulValue.compatible_trans
    (LawfulValue.compatible_symm (hc a ha i hi)) (hc b hb j hj)⟩

/-- Discrete sequences that have the instants of discrete pieces take the place of these. -/
lemma gathers_of_discrete {pieces found : List (Sequence V)}
    (hp : ∀ s ∈ pieces, s.WellFormed ∧ s.isDiscrete = true)
    (hf : ∀ s ∈ found, s.WellFormed ∧ s.isDiscrete = true)
    (h : ∀ i, (∃ s ∈ found, i ∈ s.instants) ↔ ∃ p ∈ pieces, i ∈ p.instants) :
    Gathers pieces found := by
  have hcovers : ∀ {l : List (Sequence V)}, (∀ s ∈ l, s.WellFormed ∧ s.isDiscrete = true) →
      ∀ n, (∃ s ∈ l, s.Covers n) ↔ ∃ i, (∃ s ∈ l, i ∈ s.instants) ∧ i.time.place = n := by
    intro l hl n
    constructor
    · rintro ⟨s, hs, hn⟩
      obtain ⟨i, hi, hn⟩ := (covers_of_discrete (hl s hs).2 n).mp hn
      exact ⟨i, ⟨s, hs, hi⟩, hn⟩
    · rintro ⟨i, ⟨s, hs, hi⟩, hn⟩
      exact ⟨s, hs, (covers_of_discrete (hl s hs).2 n).mpr ⟨i, hi, hn⟩⟩
  have htakes : ∀ {l : List (Sequence V)}, (∀ s ∈ l, s.WellFormed ∧ s.isDiscrete = true) →
      ∀ n x, (∃ s ∈ l, s.Takes n x) ↔
        ∃ i, (∃ s ∈ l, i ∈ s.instants) ∧ i.time.place = n ∧ i.value = x := by
    intro l hl n x
    constructor
    · rintro ⟨s, hs, hx⟩
      obtain ⟨i, hi, hx⟩ := ((hl s hs).1.takes_of_discrete (hl s hs).2 n x).mp hx
      exact ⟨i, ⟨s, hs, hi⟩, hx⟩
    · rintro ⟨i, ⟨s, hs, hi⟩, hx⟩
      exact ⟨s, hs, ((hl s hs).1.takes_of_discrete (hl s hs).2 n x).mpr ⟨i, hi, hx⟩⟩
  refine ⟨fun n => ?_, fun _ n x => ?_, fun s hs i hi => (h i).mp ⟨s, hs, hi⟩⟩
  · simp only [hcovers hp, hcovers hf, h]
  · simp only [htakes hp, htakes hf, h]

/-- Discrete pieces that share no place are assembled into one discrete sequence, which has their
instants. -/
lemma ofPieces_instants {pieces : List (Sequence V)} {c : V}
    (hwf : ∀ s ∈ pieces, s.WellFormed) (hd : ∀ s ∈ pieces, s.isDiscrete = true)
    (hapart : pieces.Pairwise Apart) (hc : Compatible c pieces) :
    ∃ found, ofPieces pieces = .ok found ∧
      (∀ v ∈ found, ∃ s, v = sequence s ∧ s.WellFormed ∧ s.isDiscrete = true) ∧
      ∀ i, (∃ s ∈ parts found, i ∈ s.instants) ↔ ∃ p ∈ pieces, i ∈ p.instants := by
  have hall : pieces.all Sequence.isDiscrete = true := List.all_eq_true.mpr hd
  match pieces with
  | [] => exact ⟨none, rfl, by simp, fun i => Iff.rfl⟩
  | [s] =>
    refine ⟨some (sequence s), ?_, ?_, fun i => Iff.rfl⟩
    · rw [ofPieces, if_pos hall]
      rfl
    · rintro v ⟨⟩
      exact ⟨s, rfl, hwf s (by simp), hd s (by simp)⟩
  | a :: b :: more =>
    have hrising := rising_of_apart hwf hd hapart hc
    have hperm := List.mergeSort_perm ((a :: b :: more).flatMap Sequence.instants)
      fun i j => i.time ≤ j.time
    have hdifferent : (((a :: b :: more).flatMap Sequence.instants).mergeSort fun i j =>
        i.time ≤ j.time).Pairwise fun i j => (i.time == j.time) = false := by
      refine hrising.imp fun {i j} hij => ?_
      rw [← Bool.not_eq_true, Timestamp.beq_iff]
      exact hij.1.ne
    have hdistinct := distinctBy_eq_self hdifferent
    obtain ⟨first, rest, hsort⟩ : ∃ first rest, ((a :: b :: more).flatMap
        Sequence.instants).mergeSort (fun i j => i.time ≤ j.time) = first :: rest := by
      refine List.exists_cons_of_ne_nil fun hn => ?_
      rw [hn] at hperm
      exact absurd hperm.symm.eq_nil (by simp [Sequence.instants])
    rw [hsort] at hrising hdistinct hperm
    have hs := makeRun_eq_ok (checked_discrete hrising)
    have hbuilt := builtFrom_of_makeRun hs
    refine ⟨some (sequence (ofRun first rest true true .discrete)), ?_, ?_, fun i => ?_⟩
    · rw [ofPieces, if_pos hall, if_neg (by simp), hsort]
      simp only [hdistinct, bind_eq_ok, pure_eq_ok]
      exact ⟨_, hs, rfl⟩
    · rintro v ⟨⟩
      exact ⟨_, rfl, hbuilt.wellFormed, isDiscrete_iff.mpr hbuilt.interp_eq⟩
    · simp only [parts, sequences, List.mem_singleton, exists_eq_left]
      exact hperm.mem_iff.trans List.mem_flatMap

lemma ofPieces_discrete {pieces : List (Sequence V)} {c : V}
    (hwf : ∀ s ∈ pieces, s.WellFormed) (hd : ∀ s ∈ pieces, s.isDiscrete = true)
    (hapart : pieces.Pairwise Apart) (hc : Compatible c pieces) :
    ∃ found, ofPieces pieces = .ok found ∧ Assembles pieces found := by
  obtain ⟨found, hfound, hseq, hinstants⟩ := ofPieces_instants hwf hd hapart hc
  refine ⟨found, hfound, fun v hv => ?_, fun v hv p hp => ?_,
    gathers_of_discrete (fun s hs => ⟨hwf s hs, hd s hs⟩) (fun s hs => ?_) hinstants⟩
  · obtain ⟨s, rfl, hs, -⟩ := hseq v hv
    exact hs
  · obtain ⟨s, rfl, -, hsd⟩ := hseq v hv
    rw [isDiscrete_iff.mp (hd p hp)]
    exact (isDiscrete_iff.mp hsd).symm
  · cases found with
    | none => simp [parts] at hs
    | some v =>
      obtain ⟨x, rfl, hx⟩ := hseq v rfl
      obtain rfl := List.mem_singleton.mp hs
      exact hx

omit [LawfulValue V] in
lemma ofPieces_of_ne_nil {pieces : List (Sequence V)} {interp : Interpolation}
    (hd : interp ≠ .discrete) (hi : ∀ s ∈ pieces, s.interp = interp) (hn : pieces ≠ []) :
    ofPieces pieces =
      some <$> ofSequences (pieces.mergeSort fun a b => a.period.order b.period != .gt) := by
  obtain ⟨first, more, rfl⟩ := List.exists_cons_of_ne_nil hn
  have hall : ¬(first :: more).all Sequence.isDiscrete = true := by
    intro h
    have := isDiscrete_iff.mp (List.all_eq_true.mp h first (by simp))
    rw [hi first (by simp)] at this
    exact hd this
  rw [ofPieces, if_neg hall, map_eq_pure_bind]

omit [LawfulValue V] in
lemma ofPieces_continuous {pieces : List (Sequence V)} {interp : Interpolation}
    (hd : interp ≠ .discrete) (hi : ∀ s ∈ pieces, s.interp = interp)
    {found : Option (Temporal V)} : ofPieces pieces = .ok found ↔
      pieces = [] ∧ found = none ∨ pieces ≠ [] ∧ ∃ v, found = some v ∧
        ofSequences (pieces.mergeSort fun a b => a.period.order b.period != .gt) = .ok v := by
  by_cases hn : pieces = []
  · subst hn
    simp [ofPieces, eq_comm]
  · rw [ofPieces_of_ne_nil hd hi hn, map_eq_ok]
    simp only [hn, false_and, ne_eq, not_false_eq_true, true_and, false_or]
    constructor
    · rintro ⟨v, hv, rfl⟩
      exact ⟨v, rfl, hv⟩
    · rintro ⟨v, rfl, hv⟩
      exact ⟨v, hv, rfl⟩

/-- Pieces that share no place and whose values go together are assembled without giving up if they
are confined. -/
theorem completes_ofPieces {pieces : List (Sequence V)} {interp : Interpolation} {c : V}
    (hwf : ∀ s ∈ pieces, s.WellFormed) (hi : ∀ s ∈ pieces, s.interp = interp)
    (hapart : pieces.Pairwise Apart) (hc : Compatible c pieces) (hconfined : Confined pieces) :
    Completes (ofPieces pieces) := by
  by_cases hd : interp = .discrete
  · obtain ⟨_, hfound, -⟩ :=
      ofPieces_discrete hwf (fun s hs => isDiscrete_iff.mpr ((hi s hs).trans hd)) hapart hc
    exact .of_eq_ok hfound
  · by_cases hn : pieces = []
    · rw [hn]
      exact Completes.ok _
    · have hperm := List.mergeSort_perm pieces fun a b => a.period.order b.period != .gt
      rw [ofPieces_of_ne_nil hd hi hn]
      exact (completes_ofSequences (train_of_apart hwf hi hd hapart)
        (hc.gathers (Gathers.perm hperm.symm))
        (hconfined.subset fun s hs => hperm.mem_iff.mp hs)).map _

/-- Pieces that share no place and whose values go together are assembled, if that ends. -/
theorem ofPieces_spec {pieces : List (Sequence V)} {interp : Interpolation} {c : V}
    (hwf : ∀ s ∈ pieces, s.WellFormed) (hi : ∀ s ∈ pieces, s.interp = interp)
    (hapart : pieces.Pairwise Apart) (hc : Compatible c pieces)
    (hdone : Completes (ofPieces pieces)) :
    ∃ found, ofPieces pieces = .ok found ∧ Assembles pieces found := by
  by_cases hd : interp = .discrete
  · exact ofPieces_discrete hwf (fun s hs => isDiscrete_iff.mpr ((hi s hs).trans hd)) hapart hc
  · by_cases hn : pieces = []
    · subst hn
      exact ⟨none, rfl, by simp, by simp, Gathers.refl _⟩
    · have hperm := List.mergeSort_perm pieces fun a b => a.period.order b.period != .gt
      have hg := Gathers.perm hperm.symm
      rw [ofPieces_of_ne_nil hd hi hn, map_eq_pure_bind] at hdone
      obtain ⟨v, hv, hwfv, hiv, hgv⟩ := ofSequences_spec
        (fun h => hn (by rw [h] at hperm; exact hperm.symm.eq_nil))
        (train_of_apart hwf hi hd hapart) (hc.gathers hg) hdone.left
      refine ⟨some v, (ofPieces_continuous hd hi).mpr (Or.inr ⟨hn, v, rfl, hv⟩), ?_, ?_,
        hg.trans hgv⟩
      · rintro v' ⟨⟩
        exact hwfv
      · rintro v' ⟨⟩ s hs
        rw [hi s hs, hiv]

omit [LawfulValue V] in
/-- Pieces by steps that share no place are always assembled. -/
lemma exists_ofPieces_of_step [StepValue V] {pieces : List (Sequence V)} {interp : Interpolation}
    (hwf : ∀ s ∈ pieces, s.WellFormed) (hi : ∀ s ∈ pieces, s.interp = interp)
    (hapart : pieces.Pairwise Apart) :
    ∃ found, ofPieces pieces = .ok found ∧ Assembles pieces found := by
  cases pieces with
  | nil => exact ⟨none, rfl, by simp, by simp, Gathers.refl _⟩
  | cons first rest =>
    have hc : Compatible first.first.value (first :: rest) := fun _ _ _ _ =>
      StepValue.compatible_eq_ok _ _
    exact ofPieces_spec hwf hi hapart hc (completes_ofPieces hwf hi hapart hc
      (confined_of_ne_linear fun s hs => (hwf s hs).interp_ne_linear))

/-- Continuous pieces that could be assembled were taken the place of. -/
theorem assembles_of_ofPieces_eq_ok {pieces : List (Sequence V)} {interp : Interpolation}
    (hwf : ∀ s ∈ pieces, s.WellFormed) (hi : ∀ s ∈ pieces, s.interp = interp)
    (hd : interp ≠ .discrete) {found : Option (Temporal V)} (h : ofPieces pieces = .ok found) :
    Assembles pieces found := by
  rcases (ofPieces_continuous hd hi).mp h with ⟨rfl, rfl⟩ | ⟨hn, v, rfl, hv⟩
  · exact ⟨by simp, by simp, Gathers.refl _⟩
  · have hperm := List.mergeSort_perm pieces fun a b => a.period.order b.period != .gt
    have hg := Gathers.perm hperm.symm
    obtain ⟨htrain, c, hc⟩ := train_of_ofSequences_eq_ok
      (fun s hs => hwf s (hperm.mem_iff.mp hs)) (fun s hs => hi s (hperm.mem_iff.mp hs)) hd hv
    obtain ⟨v', hv', hwfv, hiv, hgv⟩ := ofSequences_spec
      (fun h => hn (by rw [h] at hperm; exact hperm.symm.eq_nil)) htrain hc (.of_eq_ok hv)
    obtain rfl : v = v' := by
      rw [hv] at hv'
      exact Except.ok.inj hv'
    refine ⟨?_, ?_, hg.trans hgv⟩
    · rintro v' ⟨⟩
      exact hwfv
    · rintro v' ⟨⟩ s hs
      rw [hi s hs, hiv]

end Temporal

end TemporalAlgebra
