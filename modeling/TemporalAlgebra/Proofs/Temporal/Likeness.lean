import TemporalAlgebra.Proofs.Temporal.Assembly

/-!
# Values that are alike

Equal values need not be the same, and on the way between equal values there are only equal ones. So
a sequence that changes by steps, or not at all, has at every place a value alike to that of its
latest instant. Such sequences can be joined and assembled into one value: what comes out has values
alike to theirs.
-/
namespace TemporalAlgebra

/-- On the way between two values, at a timestamp strictly between two others, there are only values
equal to the first one. -/
def Level {V : Type} [TemporalValue V] (x y : V) : Prop :=
  ∀ a b t : Timestamp, a < t → t < b →
    Returns (fun r => (TemporalValue.interpolate x y r == x) = true) (t.ratio a b)

namespace Sequence

variable {V : Type} [TemporalValue V]

/-- Whether a sequence takes a value alike to a given one at a place. -/
def TakesLike (s : Sequence V) (n : Int) (x : V) : Prop := s.Covers n ∧ Alike (s.held n) x

/-- Sequences that change by steps or not at all, and take values alike to those of given ones where
these are defined. -/
structure Mirrors (pieces found : List (Sequence V)) : Prop where
  slopeless : ∀ s ∈ found, s.Slopeless
  takes_iff : ∀ n x, (∃ s ∈ found, s.TakesLike n x) ↔ ∃ s ∈ pieces, s.TakesLike n x

lemma Mirrors.refl {pieces : List (Sequence V)} (h : ∀ s ∈ pieces, s.Slopeless) :
    Mirrors pieces pieces := ⟨h, fun _ _ => Iff.rfl⟩

lemma Mirrors.trans {a b c : List (Sequence V)} (hab : Mirrors a b) (hbc : Mirrors b c) :
    Mirrors a c :=
  ⟨hbc.slopeless, fun n x => (hbc.takes_iff n x).trans (hab.takes_iff n x)⟩

lemma Mirrors.cons {a b : List (Sequence V)} {s : Sequence V} (hs : s.Slopeless) (h : Mirrors a b) :
    Mirrors (s :: a) (s :: b) := by
  refine ⟨fun x hx => ?_, fun n x => ?_⟩
  · rcases List.mem_cons.mp hx with rfl | hx
    · exact hs
    · exact h.slopeless x hx
  · simp only [List.mem_cons, exists_eq_or_imp, h.takes_iff n x]

lemma Mirrors.covers_iff {pieces found : List (Sequence V)} (h : Mirrors pieces found) (n : Int) :
    (∃ s ∈ found, s.Covers n) ↔ ∃ s ∈ pieces, s.Covers n := by
  constructor
  · rintro ⟨s, hs, hn⟩
    obtain ⟨p, hp, hpn, -⟩ := (h.takes_iff n (s.held n)).mp ⟨s, hs, hn, Alike.refl _⟩
    exact ⟨p, hp, hpn⟩
  · rintro ⟨p, hp, hn⟩
    obtain ⟨s, hs, hsn, -⟩ := (h.takes_iff n (p.held n)).mpr ⟨p, hp, hn, Alike.refl _⟩
    exact ⟨s, hs, hsn⟩

lemma alike_valueFrom (t : Timestamp) {a : Instant V} {rest : List (Instant V)}
    (h : ∀ i ∈ a :: rest, ∀ j ∈ a :: rest, Level i.value j.value) :
    Returns (fun x => Alike x (heldFrom t.place a rest)) (valueFrom .linear t a rest) := by
  induction rest generalizing a with
  | nil => exact Returns.ok (Alike.refl _)
  | cons b rest ih =>
    rw [valueFrom, heldFrom]
    simp only [Timestamp.le_iff]
    by_cases hb : b.time.place ≤ t.place
    · rw [if_pos hb, if_pos hb]
      exact ih fun i hi j hj => h i (by simp [hi]) j (by simp [hj])
    · rw [if_neg hb, if_neg hb]
      split
      · exact Returns.ok (Alike.refl _)
      · rename_i ha
        exact Returns.bind (h a (by simp) b (by simp) a.time b.time t
          (Timestamp.lt_iff.mpr (not_le.mp ha)) (Timestamp.lt_iff.mpr (not_le.mp hb)))
          fun r hr => Returns.ok (Alike.of_beq hr)

lemma takesLike_of_valueAt [LawfulValue V] {s : Sequence V} (hd : s.isDiscrete = false)
    (hlevel : s.interp = .linear → ∀ i ∈ s.instants, ∀ j ∈ s.instants, Level i.value j.value)
    {t : Timestamp} {x : V} (h : s.valueAt t = some x) : s.TakesLike t.place x := by
  have hc := covers_of_valueAt h
  have hlookup := foundIn_eq_some.mp h
  rw [lookup_of_covers hd hc, map_eq_ok] at hlookup
  obtain ⟨y, hy, hyx⟩ := hlookup
  obtain rfl := Option.some.inj hyx
  refine ⟨hc, ?_⟩
  by_cases hl : s.interp = .linear
  · unfold valueNear at hy
    rw [hl] at hy
    exact (alike_valueFrom t (hlevel hl) y hy).symm
  · rw [valueNear_eq hl] at hy
    obtain rfl := Except.ok.inj hy
    exact Alike.refl _

end Sequence

namespace SequenceSet

open Sequence

variable {V : Type} [TemporalValue V] [LawfulValue V]

lemma Fuses.mirrors {a b s : Sequence V} {rest : List (Sequence V)} {interp : Interpolation}
    (hu : Fuses a b s) (h : Train interp (a :: b :: rest))
    (hs : ∀ x ∈ a :: b :: rest, x.Slopeless) : Mirrors (a :: b :: rest) (s :: rest) := by
  have hsa := hs a (by simp)
  have hsb := hs b (by simp)
  have hinterp : b.interp = a.interp := by
    rw [h.interp_eq a (by simp), h.interp_eq b (by simp)]
  refine ⟨fun x hx => ?_, fun n x => ?_⟩
  · rcases List.mem_cons.mp hx with rfl | hx
    · exact hu.slopeless hsa hsb
    · exact hs x (by simp [hx])
  · have htakes : s.TakesLike n x ↔ a.TakesLike n x ∨ b.TakesLike n x :=
      hu.holds_iff (h.wellFormed a (by simp)) (h.wellFormed b (by simp)) hinterp
        (h.isDiscrete (by simp)) hsa hsb (fun hlike hx => hlike.symm.trans hx) n
    simp only [List.mem_cons, exists_eq_or_imp, htakes, or_assoc]

lemma join_mirrors {a first : Sequence V} {rest more : List (Sequence V)} {interp : Interpolation}
    {c : V} (h : Train interp (a :: rest)) (hc : Compatible c (a :: rest))
    (hs : ∀ s ∈ a :: rest, s.Slopeless) (hok : join a rest = .ok (first, more)) :
    Mirrors (a :: rest) (first :: more) := by
  induction rest generalizing a first more with
  | nil =>
    obtain ⟨rfl, rfl⟩ := Prod.mk.inj (Except.ok.inj hok)
    exact Mirrors.refl hs
  | cons b rest ih =>
    cases hj : joined a b with
    | some run =>
      obtain ⟨-, s, hmake, hrest⟩ := (join_eq_ok_of_joined hj).mp hok
      obtain ⟨s', hmake', hu, htrain, hg⟩ := joined_spec h hc hj
      obtain rfl : s = s' := Except.ok.inj (hmake.symm.trans hmake')
      have hmirrors := hu.mirrors h hs
      exact hmirrors.trans (ih htrain (hc.gathers hg) hmirrors.slopeless hrest)
    | none =>
      obtain ⟨next, more', hrest, heq⟩ := (join_eq_ok_of_not_joined hj).mp hok
      obtain ⟨rfl, rfl⟩ := Prod.mk.inj heq
      exact (ih h.tail (fun s hs => hc s (by simp [hs])) (fun s hs' => hs s (by simp [hs']))
        hrest).cons (hs a (by simp))

end SequenceSet

namespace Temporal

open Sequence

variable {V : Type} [TemporalValue V] [LawfulValue V]

lemma exists_ofSequences_mirrors {pieces : List (Sequence V)} {interp : Interpolation} {c : V}
    (hne : pieces ≠ []) (h : Train interp pieces) (hc : Compatible c pieces)
    (hs : ∀ s ∈ pieces, s.Slopeless) (hdone : Completes (ofSequences pieces)) :
    ∃ v, ofSequences pieces = .ok v ∧ v.WellFormed ∧ v.interp = interp ∧
      Gathers pieces v.sequences ∧ Mirrors pieces v.sequences := by
  obtain ⟨v, hok, hwf, hinterp, hg⟩ := ofSequences_spec hne h hc hdone
  refine ⟨v, hok, hwf, hinterp, hg, ?_⟩
  match pieces, hne with
  | [s], _ =>
    obtain rfl := Except.ok.inj hok
    exact Mirrors.refl hs
  | a :: b :: rest, _ =>
    unfold ofSequences at hok
    obtain ⟨set, hmake, hset⟩ := bind_eq_ok.mp hok
    unfold SequenceSet.make at hmake
    simp only [if_true, bind_eq_ok, pure_eq_ok] at hmake
    obtain ⟨-, -, -, -, ⟨first, more⟩, hjoin, rfl⟩ := hmake
    have hmirrors := SequenceSet.join_mirrors h hc hs hjoin
    rw [← pure_eq_ok.mp hset]
    cases more with
    | nil => exact hmirrors
    | cons x more => exact hmirrors

/-- On the ways between the instants of a linear sequence of a value nothing changes. -/
def Leveled (v : Temporal V) : Prop := ∀ s ∈ v.sequences, s.interp = .linear →
  ∀ i ∈ s.instants, ∀ j ∈ s.instants, Level i.value j.value

lemma WellFormed.leveled_of_step {v : Temporal V} (h : v.WellFormed) (hs : v.interp = .step) :
    v.Leveled := by
  intro s hmem hlin
  rw [h.interp_eq s hmem, hs] at hlin
  cases hlin

lemma WellFormed.exists_takesLike {v : Temporal V} (h : v.WellFormed) (hd : v.isDiscrete = false)
    (hl : v.Leveled) {t : Timestamp} {x : V} (hx : v.valueAt t = some x) :
    ∃ s ∈ v.sequences, s.TakesLike t.place x := by
  obtain ⟨s, hs, hx⟩ := (valueAt_eq_some_iff_exists h t x).mp hx
  exact ⟨s, hs, takesLike_of_valueAt ((h.isTrain hd).isDiscrete hs) (hl s hs) hx⟩

/-- Values looked up in two values are equal, if the sequences of one mirror those of the other and
these have values that are equal to themselves. -/
lemma WellFormed.rel_lookup {v w : Temporal V} (hv : v.WellFormed) (hw : w.WellFormed)
    (hdv : v.isDiscrete = false) (hdw : w.isDiscrete = false) (hlv : v.Leveled) (hlw : w.Leveled)
    (hp : v.Proper) (h : Mirrors v.sequences w.sequences) {t : Timestamp} {found whole : Option V}
    (hfound : w.lookup t = .ok found) (hwhole : v.lookup t = .ok whole) :
    Option.Rel (fun x y => (x == y) = true) found whole := by
  have hcov : w.Covers t.place ↔ v.Covers t.place := h.covers_iff _
  cases found with
  | none =>
    have hnone : v.lookup t = .ok none := by
      rw [hv.lookup_eq_none_iff, ← hcov]
      exact hw.lookup_eq_none_iff.mp hfound
    obtain rfl := Except.ok.inj (hnone.symm.trans hwhole)
    exact .none
  | some x =>
    have hx : w.valueAt t = some x := foundIn_eq_some.mpr hfound
    obtain ⟨y, rfl⟩ : ∃ y, whole = some y := by
      refine Option.ne_none_iff_exists'.mp fun hn => ?_
      rw [hn, hv.lookup_eq_none_iff, ← hcov] at hwhole
      exact hwhole (covers_of_valueAt hw hx)
    have hy : v.valueAt t = some y := foundIn_eq_some.mpr hwhole
    obtain ⟨s, hs, hsx⟩ := (h.takes_iff _ _).mp (hw.exists_takesLike hdw hlw hx)
    obtain ⟨s', hs', hsy⟩ := hv.exists_takesLike hdv hlv hy
    obtain rfl := hv.eq_of_mem_period hs hs' ((hv.sequences s hs).mem_period hsx.1)
      ((hv.sequences s' hs').mem_period hsy.1)
    -- the held value is that of an instant
    obtain ⟨i, hi, hheld⟩ := heldFrom_mem t.place s.first s.rest
    have hself : (s.held t.place == s.held t.place) = true := by
      unfold held
      rw [hheld]
      exact hp i (mem_instants_iff.mpr ⟨s, hs, hi⟩)
    exact .some (LawfulValue.beq_trans (LawfulValue.beq_symm (hsx.2.beq hself))
      (hsy.2.beq hself))

end Temporal

end TemporalAlgebra
