import Mathlib.Data.List.Basic
import TemporalAlgebra.Proofs.Temporal.WellFormed

/-!
# Values held from instant to instant

Unless it is interpolated, a sequence has at every place the value of its latest instant, also right
before and after a timestamp. Leaving out instants that repeat a value changes none of this, and
looking a value up at a timestamp finds it.
-/
namespace TemporalAlgebra

namespace Sequence

variable {V : Type} [TemporalValue V]

/-- Value at a place of a run that starts at `a`: that of the latest instant. -/
def heldFrom (n : Int) (a : Instant V) : List (Instant V) → V
  | [] => a.value
  | b :: rest => if b.time.place ≤ n then heldFrom n b rest else a.value

/-- Value that a sequence holds at a place. -/
def held (s : Sequence V) (n : Int) : V := heldFrom n s.first s.rest

lemma valueFrom_eq {interp : Interpolation} (h : interp ≠ .linear) (t : Timestamp)
    (a : Instant V) (rest : List (Instant V)) :
    valueFrom interp t a rest = .ok (heldFrom t.place a rest) := by
  induction rest generalizing a with
  | nil => rfl
  | cons b rest ih =>
    rw [valueFrom, heldFrom]
    simp only [Timestamp.le_iff]
    by_cases hb : b.time.place ≤ t.place
    · rw [if_pos hb, if_pos hb]
      exact ih b
    · rw [if_neg hb, if_neg hb]
      cases interp with
      | linear => exact absurd rfl h
      | discrete => exact ite_self _
      | step => exact ite_self _

lemma limitFrom_eq {interp : Interpolation} (h : interp ≠ .linear) (t : Timestamp)
    (a : Instant V) (rest : List (Instant V)) :
    limitFrom interp t a rest = .ok (heldFrom (t.place - 1) a rest) := by
  induction rest generalizing a with
  | nil => rfl
  | cons b rest ih =>
    rw [limitFrom, heldFrom]
    simp only [Timestamp.lt_iff, h, and_false, if_false]
    by_cases hb : b.time.place < t.place
    · rw [if_pos hb, if_pos (by omega)]
      exact ih b
    · rw [if_neg hb, if_neg (show ¬b.time.place ≤ t.place - 1 by omega)]
      cases interp with
      | linear => exact absurd rfl h
      | discrete => exact ite_self _
      | step => exact ite_self _

lemma valueNear_eq {s : Sequence V} (h : s.interp ≠ .linear) (t : Timestamp) :
    s.valueNear t = .ok (s.held t.place) := valueFrom_eq h t s.first s.rest

lemma leftLimit_eq {s : Sequence V} (h : s.interp ≠ .linear) (t : Timestamp) :
    s.leftLimit t = .ok (s.held (t.place - 1)) := limitFrom_eq h t s.first s.rest

lemma unrefused_between (interp : Interpolation) (a b : Instant V) (t : Timestamp) :
    Unrefused (between interp a b t) := by
  cases interp with
  | linear => exact (Timestamp.unrefused_ratio _ _ _).bind fun _ _ => Unrefused.ok _
  | discrete => exact Unrefused.ok _
  | step => exact Unrefused.ok _

lemma unrefused_valueNear (s : Sequence V) (t : Timestamp) : Unrefused (s.valueNear t) := by
  have hfrom : ∀ (a : Instant V) (rest : List (Instant V)),
      Unrefused (valueFrom s.interp t a rest) := by
    intro a rest
    fun_induction valueFrom s.interp t a rest with
    | case1 => exact Unrefused.ok _
    | case2 a b rest hb ih => exact ih
    | case3 => exact Unrefused.ok _
    | case4 => exact unrefused_between _ _ _ _
  exact hfrom s.first s.rest

lemma unrefused_leftLimit (s : Sequence V) (t : Timestamp) : Unrefused (s.leftLimit t) := by
  have hfrom : ∀ (a : Instant V) (rest : List (Instant V)),
      Unrefused (limitFrom s.interp t a rest) := by
    intro a rest
    fun_induction limitFrom s.interp t a rest with
    | case1 => exact Unrefused.ok _
    | case2 a b rest hb ih => exact ih
    | case3 => exact Unrefused.ok _
    | case4 => exact Unrefused.ok _
    | case5 => exact unrefused_between _ _ _ _
  exact hfrom s.first s.rest

section

variable {s : Sequence V} (hrising : s.instants.Pairwise Instant.Precedes)
  (hshort : ShortRun s.interp s.first s.rest) (t : Timestamp)
include hrising hshort

/-- Between neighbours of a short run every value is told. -/
lemma completes_between_of_short {a b : Instant V} (ha : a ∈ s.instants) (hb : b ∈ s.instants)
    (hat : a.time ≤ t) (htb : t ≤ b.time) : Completes (between s.interp a b t) := by
  cases hi : s.interp with
  | discrete => exact Completes.ok _
  | step => exact Completes.ok _
  | linear =>
    have hfirst := first_le hrising ha
    have hlast := place_le_last hrising b hb
    have hspan := hshort hi
    have hle : a.time.micros ≤ b.time.micros :=
      Int.le_trans (show a.time.micros ≤ t.micros from hat) htb
    unfold Timestamp.place at hfirst hlast
    have hratio := Timestamp.ratio_of_mem hat htb (by unfold Timestamp.Fits; omega)
    unfold between
    rw [hratio]
    exact Completes.ok _

/-- The values of a short sequence are told near every timestamp. -/
lemma completes_valueNear : Completes (s.valueNear t) := by
  have hfrom : ∀ (a : Instant V) (rest : List (Instant V)), (∀ i ∈ a :: rest, i ∈ s.instants) →
      Completes (valueFrom s.interp t a rest) := by
    intro a rest hmem
    fun_induction valueFrom s.interp t a rest with
    | case1 => exact Completes.ok _
    | case2 a b rest hb ih => exact ih fun i hi => hmem i (List.mem_cons_of_mem _ hi)
    | case3 => exact Completes.ok _
    | case4 a b rest hb ha =>
      rw [Timestamp.le_iff, not_le] at hb ha
      exact completes_between_of_short hrising hshort t (hmem a (by simp)) (hmem b (by simp))
        (Timestamp.le_iff.mpr ha.le) (Timestamp.le_iff.mpr hb.le)
  exact hfrom s.first s.rest fun i hi => hi

lemma completes_leftLimit : Completes (s.leftLimit t) := by
  have hfrom : ∀ (a : Instant V) (rest : List (Instant V)), (∀ i ∈ a :: rest, i ∈ s.instants) →
      Completes (limitFrom s.interp t a rest) := by
    intro a rest hmem
    fun_induction limitFrom s.interp t a rest with
    | case1 => exact Completes.ok _
    | case2 a b rest hb ih => exact ih fun i hi => hmem i (List.mem_cons_of_mem _ hi)
    | case3 => exact Completes.ok _
    | case4 => exact Completes.ok _
    | case5 a b rest hb ha =>
      rw [Timestamp.lt_iff, not_lt] at hb
      rw [Timestamp.le_iff, not_le] at ha
      exact completes_between_of_short hrising hshort t (hmem a (by simp)) (hmem b (by simp))
        (Timestamp.le_iff.mpr ha.le) (Timestamp.le_iff.mpr hb)
  exact hfrom s.first s.rest fun i hi => hi

end

structure Latest (n : Int) (instants : List (Instant V)) (i : Instant V) : Prop where
  mem : i ∈ instants
  place_le : i.time.place ≤ n
  le_place : ∀ j ∈ instants, j.time.place ≤ n → j.time.place ≤ i.time.place

lemma exists_latest {n : Int} {a : Instant V} {rest : List (Instant V)}
    (h : (a :: rest).Pairwise Instant.Precedes) (ha : a.time.place ≤ n) :
    ∃ i, Latest n (a :: rest) i ∧ heldFrom n a rest = i.value := by
  induction rest generalizing a with
  | nil =>
    refine ⟨a, ⟨by simp, ha, fun j hj _ => ?_⟩, rfl⟩
    obtain rfl := List.mem_singleton.mp hj
    exact le_refl _
  | cons b rest ih =>
    rw [heldFrom]
    by_cases hb : b.time.place ≤ n
    · rw [if_pos hb]
      obtain ⟨i, hi, hv⟩ := ih h.tail hb
      refine ⟨i, ⟨by simp [hi.mem], hi.place_le, fun j hj hjn => ?_⟩, hv⟩
      rcases List.mem_cons.mp hj with rfl | hj
      · exact ((List.pairwise_cons.mp h).1 i hi.mem).1.le
      · exact hi.le_place j hj hjn
    · rw [if_neg hb]
      refine ⟨a, ⟨by simp, ha, fun j hj hjn => ?_⟩, rfl⟩
      rcases List.mem_cons.mp hj with rfl | hj
      · exact le_refl _
      · have := first_le h.tail hj
        omega

lemma eq_of_place_eq {instants : List (Instant V)} (h : instants.Pairwise Instant.Precedes)
    {i j : Instant V} (hi : i ∈ instants) (hj : j ∈ instants)
    (heq : i.time.place = j.time.place) : i = j := by
  have hsymm : Std.Symm fun a b : Instant V => a.time.place ≠ b.time.place :=
    ⟨fun _ _ hab => hab.symm⟩
  have hapart : instants.Pairwise fun a b => a.time.place ≠ b.time.place :=
    h.imp fun hab => hab.1.ne
  by_contra hne
  exact hapart.forall hi hj hne heq

lemma Latest.unique {n : Int} {instants : List (Instant V)}
    (h : instants.Pairwise Instant.Precedes) {i j : Instant V} (hi : Latest n instants i)
    (hj : Latest n instants j) : i = j :=
  eq_of_place_eq h hi.mem hj.mem (le_antisymm (hj.le_place i hi.mem hi.place_le)
    (hi.le_place j hj.mem hj.place_le))

lemma heldFrom_of_latest {n : Int} {a : Instant V} {rest : List (Instant V)}
    (h : (a :: rest).Pairwise Instant.Precedes) {i : Instant V} (hi : Latest n (a :: rest) i) :
    heldFrom n a rest = i.value := by
  obtain ⟨j, hj, hv⟩ := exists_latest h ((first_le h hi.mem).trans hi.place_le)
  rw [hv, Latest.unique h hj hi]

omit [TemporalValue V] in
lemma heldFrom_mem (n : Int) (a : Instant V) (rest : List (Instant V)) :
    ∃ i ∈ a :: rest, heldFrom n a rest = i.value := by
  induction rest generalizing a with
  | nil => exact ⟨a, by simp, rfl⟩
  | cons b rest ih =>
    rw [heldFrom]
    split
    · obtain ⟨i, hi, hv⟩ := ih b
      exact ⟨i, by simp [hi], hv⟩
    · exact ⟨a, by simp, rfl⟩

lemma held_place {s : Sequence V} (h : s.instants.Pairwise Instant.Precedes) {i : Instant V}
    (hi : i ∈ s.instants) : s.held i.time.place = i.value :=
  heldFrom_of_latest h ⟨hi, le_refl _, fun _ _ hj => hj⟩

lemma kept_sublist (interp : Interpolation) (a : Instant V) (rest : List (Instant V)) :
    (kept interp a rest).Sublist rest := by
  induction rest generalizing a with
  | nil => exact List.Sublist.refl _
  | cons m rest ih =>
    cases rest with
    | nil => exact List.Sublist.refl _
    | cons b rest =>
      rw [kept]
      split
      · exact (ih a).cons m
      · exact (ih m).cons_cons m

lemma kept_ne_nil (interp : Interpolation) (a : Instant V) {rest : List (Instant V)}
    (h : rest ≠ []) : kept interp a rest ≠ [] := by
  induction rest generalizing a with
  | nil => exact absurd rfl h
  | cons m rest ih =>
    cases rest with
    | nil => exact h
    | cons b rest =>
      rw [kept]
      split
      · exact ih a (by simp)
      · simp

/-- What is left out repeats the value before it, so that the last but one value stays. -/
lemma kept_concat [LawfulValue V] (interp : Interpolation) (a : Instant V)
    (xs : List (Instant V)) (z : Instant V) :
    ∃ ys, kept interp a (xs ++ [z]) = ys ++ [z] ∧
      (interp = .step → (ys.getLastD a).value = (xs.getLastD a).value ∨
        ((xs.getLastD a).value == (ys.getLastD a).value) = true) := by
  induction xs generalizing a with
  | nil => exact ⟨[], rfl, fun _ => Or.inl rfl⟩
  | cons m xs ih =>
    obtain ⟨b, rest, hb⟩ : ∃ b rest, xs ++ [z] = b :: rest :=
      List.exists_cons_of_ne_nil (by simp)
    rw [List.cons_append, hb, kept, ← hb]
    split
    · rename_i hr
      obtain ⟨ys, hys, hv⟩ := ih a
      refine ⟨ys, hys, fun hs => ?_⟩
      have hm : (a.value == m.value) = true := by
        rw [hs] at hr
        exact hr
      rw [List.getLastD_cons]
      cases xs with
      | nil =>
        rcases hv hs with hv | hv
        · rw [hv]
          exact Or.inr (LawfulValue.beq_symm hm)
        · exact Or.inr (LawfulValue.beq_trans (LawfulValue.beq_symm hm) hv)
      | cons x xs =>
        rw [List.getLastD_cons] at hv ⊢
        exact hv hs
    · obtain ⟨ys, hys, hv⟩ := ih m
      refine ⟨m :: ys, by rw [hys]; rfl, fun hs => ?_⟩
      rw [List.getLastD_cons, List.getLastD_cons]
      exact hv hs

lemma getLastD_kept [LawfulValue V] (interp : Interpolation) (a : Instant V)
    (rest : List (Instant V)) : (kept interp a rest).getLastD a = rest.getLastD a := by
  rcases List.eq_nil_or_concat' rest with rfl | ⟨xs, z, rfl⟩
  · rfl
  · obtain ⟨ys, hys, -⟩ := kept_concat interp a xs z
    rw [hys, List.getLastD_concat, List.getLastD_concat]

lemma Checked.kept [LawfulValue V] {first : Instant V} {rest : List (Instant V)}
    {lowerInc upperInc : Bool} {interp : Interpolation}
    (h : Checked first rest lowerInc upperInc interp) :
    Checked first (kept interp first rest) lowerInc upperInc interp := by
  refine ⟨h.linear, h.rising.sublist ((kept_sublist interp first rest).cons_cons first),
    ?_, ?_⟩
  · rintro (hn | hd)
    · rcases List.eq_nil_or_concat' rest with rfl | ⟨xs, z, rfl⟩
      · exact h.closed (Or.inl rfl)
      · obtain ⟨ys, hys, -⟩ := kept_concat interp first xs z
        rw [hys] at hn
        simp at hn
    · exact h.closed (Or.inr hd)
  · intro hs hu
    have hr := h.repeated hs hu
    rcases List.eq_nil_or_concat' rest with rfl | ⟨xs, z, rfl⟩
    · exact hr
    · obtain ⟨ys, hys, hv⟩ := kept_concat interp first xs z
      rw [hys, endsRepeated_concat]
      rw [endsRepeated_concat] at hr
      rcases hv hs with hv | hv
      · rw [hv]
        exact hr
      · exact LawfulValue.beq_trans hr hv

/-- Leaving out what adds nothing keeps values alike, if a run that is interpolated never changes. -/
lemma alike_heldFrom_kept [LawfulValue V] {interp : Interpolation} (n : Int) {a : Instant V}
    {rest : List (Instant V)} (h : (a :: rest).Pairwise Instant.Precedes)
    (hlevel : interp = .linear → ∀ i ∈ rest, Alike a.value i.value) :
    Alike (heldFrom n a (kept interp a rest)) (heldFrom n a rest) := by
  induction rest generalizing a with
  | nil => exact Alike.refl _
  | cons m rest ih =>
    cases rest with
    | nil => exact Alike.refl _
    | cons b rest =>
      have hmb : m.time.place < b.time.place := (List.rel_of_pairwise_cons h.tail (by simp)).1
      rw [Sequence.kept]
      split
      · rename_i hr
        have hm : Alike a.value m.value := by
          cases interp with
          | linear => exact hlevel rfl m (by simp)
          | discrete => exact absurd hr Bool.false_ne_true
          | step => exact Alike.of_beq hr
        refine (ih (h.sublist (by simp)) fun hl i hi => hlevel hl i (by simp [hi])).trans ?_
        rw [heldFrom, heldFrom, heldFrom]
        by_cases hb : b.time.place ≤ n
        · rw [if_pos hb, if_pos (show m.time.place ≤ n by omega), if_pos hb]
          exact Alike.refl _
        · rw [if_neg hb, if_neg hb]
          split
          · exact hm
          · exact Alike.refl _
      · rw [heldFrom, heldFrom]
        split
        · exact ih h.tail fun hl i hi =>
            (hlevel hl m (by simp)).symm.trans (hlevel hl i (by simp [hi]))
        · exact Alike.refl _

lemma heldFrom_kept [StepValue V] {interp : Interpolation} (hi : interp ≠ .linear) (n : Int)
    {a : Instant V} {rest : List (Instant V)} (h : (a :: rest).Pairwise Instant.Precedes) :
    heldFrom n a (kept interp a rest) = heldFrom n a rest :=
  (alike_heldFrom_kept n h fun hl => absurd hl hi).eq

/-- All values are alike. -/
def Flat (s : Sequence V) : Prop := ∀ i ∈ s.instants, Alike s.first.value i.value

/-- A sequence changes by steps or not at all. -/
def Slopeless (s : Sequence V) : Prop := s.interp = .linear → s.Flat

/-- What holds of a sequence that was built from a run of instants. -/
structure BuiltFrom (first : Instant V) (rest : List (Instant V)) (lowerInc upperInc : Bool)
    (interp : Interpolation) (s : Sequence V) : Prop where
  wellFormed : s.WellFormed
  first_eq : s.first = first
  last_eq : s.last = rest.getLastD first
  lowerInc_eq : s.lowerInc = lowerInc
  upperInc_eq : s.upperInc = upperInc
  interp_eq : s.interp = interp
  instants_subset : ∀ i ∈ s.instants, i ∈ first :: rest

section

variable {first : Instant V} {rest : List (Instant V)} {lowerInc upperInc : Bool}
  {interp : Interpolation} {normalizing : Bool} {s : Sequence V}

lemma BuiltFrom.lo_eq (h : BuiltFrom first rest lowerInc upperInc interp s) :
    s.lo = first.time.place + if lowerInc then 0 else 1 := by
  rw [Sequence.lo_eq, h.first_eq, h.lowerInc_eq]

lemma BuiltFrom.hi_eq (h : BuiltFrom first rest lowerInc upperInc interp s) :
    s.hi = (rest.getLastD first).time.place - if upperInc then 0 else 1 := by
  rw [Sequence.hi_eq, h.last_eq, h.upperInc_eq]

variable [LawfulValue V]

lemma makeRun_eq_ok (h : Checked first rest lowerInc upperInc interp) :
    makeRun first rest lowerInc upperInc interp false =
      .ok (ofRun first rest lowerInc upperInc interp) :=
  makeRun_eq_ok_iff.mpr ⟨h, nofun, rfl⟩

omit [LawfulValue V] in
lemma checked_discrete (h : (first :: rest).Pairwise Instant.Precedes) :
    Checked first rest true true .discrete :=
  ⟨by simp, h, fun _ => ⟨rfl, rfl⟩, by simp⟩

lemma completes_makeRun (h : Checked first rest lowerInc upperInc interp)
    (hkept : normalizing = true → Completes (normalize interp first rest)) :
    Completes (makeRun first rest lowerInc upperInc interp normalizing) :=
  .of_eq_ok (makeRun_eq_ok_iff.mpr ⟨h, hkept, rfl⟩)

lemma exists_makeRun (h : Checked first rest lowerInc upperInc interp)
    (hdone : Completes (makeRun first rest lowerInc upperInc interp normalizing)) :
    ∃ s, makeRun first rest lowerInc upperInc interp normalizing = .ok s := by
  refine ⟨_, makeRun_eq_ok_iff.mpr ⟨h, ?_, rfl⟩⟩
  rintro rfl
  exact (hdone.right (check_eq_ok_iff.mpr h)).left

/-- A run that is not interpolated makes up a sequence. -/
lemma exists_makeRun_of_ne_linear (hl : interp ≠ .linear)
    (h : Checked first rest lowerInc upperInc interp) :
    ∃ s, makeRun first rest lowerInc upperInc interp normalizing = .ok s :=
  exists_makeRun h (completes_makeRun h fun _ =>
    completes_normalize h.rising fun hi => absurd hi hl)

lemma builtFrom_of_makeRun (h : makeRun first rest lowerInc upperInc interp normalizing = .ok s) :
    BuiltFrom first rest lowerInc upperInc interp s := by
  obtain ⟨hc, -, rfl⟩ := makeRun_eq_ok_iff.mp h
  cases normalizing with
  | false => exact ⟨wellFormed_iff.mpr hc, rfl, rfl, rfl, rfl, rfl, fun i hi => hi⟩
  | true =>
    refine ⟨wellFormed_iff.mpr hc.kept, rfl, getLastD_kept interp first rest, rfl, rfl,
      rfl, fun i hi => ?_⟩
    exact ((kept_sublist interp first rest).cons_cons first).subset hi

lemma wellFormed_of_make {instants : List (Instant V)}
    (h : make instants lowerInc upperInc interp normalizing = .ok s) : s.WellFormed := by
  cases instants with
  | nil => simp [make] at h
  | cons first rest => exact (builtFrom_of_makeRun h).wellFormed

lemma held_of_makeRun [StepValue V] (hi : interp ≠ .linear)
    (h : makeRun first rest lowerInc upperInc interp normalizing = .ok s) (n : Int) :
    s.held n = heldFrom n first rest := by
  obtain ⟨hc, -, rfl⟩ := makeRun_eq_ok_iff.mp h
  cases normalizing with
  | false => rfl
  | true => exact heldFrom_kept hi n hc.rising

end

omit [TemporalValue V] in
lemma exists_segment {a : Instant V} {rest : List (Instant V)} (hne : rest ≠ []) {n : Int}
    (hlow : a.time.place ≤ n) (hhigh : n ≤ (rest.getLastD a).time.place) :
    ∃ ab ∈ (a :: rest).zip rest, ab.1.time.place ≤ n ∧ n ≤ ab.2.time.place := by
  induction rest generalizing a with
  | nil => exact absurd rfl hne
  | cons b rest ih =>
    rw [List.getLastD_cons] at hhigh
    rw [List.zip_cons_cons]
    rcases le_or_gt n b.time.place with hn | hn
    · exact ⟨(a, b), List.mem_cons_self, hlow, hn⟩
    · have hrest : rest ≠ [] := by
        rintro rfl
        exact absurd hhigh (not_le.mpr hn)
      obtain ⟨ab, hab, hplace⟩ := ih hrest hn.le hhigh
      exact ⟨ab, List.mem_cons_of_mem _ hab, hplace⟩

/-- Neighbours rise, and no instant lies between them. -/
lemma segment_spec {a : Instant V} {rest : List (Instant V)}
    (h : (a :: rest).Pairwise Instant.Precedes) {x y : Instant V}
    (hxy : (x, y) ∈ (a :: rest).zip rest) :
    x ∈ a :: rest ∧ y ∈ a :: rest ∧ x.time.place < y.time.place ∧
      ∀ i ∈ a :: rest, i.time.place ≤ x.time.place ∨ y.time.place ≤ i.time.place := by
  induction rest generalizing a with
  | nil => simp at hxy
  | cons b rest ih =>
    have hrising := List.pairwise_cons.mp h
    rw [List.zip_cons_cons] at hxy
    rcases List.mem_cons.mp hxy with heq | hxy
    · obtain ⟨rfl, rfl⟩ := Prod.mk.inj heq
      refine ⟨by simp, by simp, (hrising.1 y (by simp)).1, fun i hi => ?_⟩
      rcases List.mem_cons.mp hi with rfl | hi
      · exact Or.inl le_rfl
      · exact Or.inr (first_le hrising.2 hi)
    · obtain ⟨hx, hy, hlt, hgap⟩ := ih h.tail hxy
      refine ⟨List.mem_cons_of_mem _ hx, List.mem_cons_of_mem _ hy, hlt, fun i hi => ?_⟩
      rcases List.mem_cons.mp hi with rfl | hi
      · exact Or.inl (hrising.1 x hx).1.le
      · exact hgap i hi

/-- Whether a sequence takes a value at a place. -/
def Takes (s : Sequence V) (n : Int) (x : V) : Prop := s.Covers n ∧ s.held n = x

/-- A single instant takes its value at its place. -/
lemma takes_ofInstant (i : Instant V) (interp : Interpolation) (n : Int) (x : V) :
    (ofInstant i interp).Takes n x ↔ n = i.time.place ∧ x = i.value := by
  unfold Takes
  rw [covers_ofInstant]
  exact and_congr_right fun _ => eq_comm

lemma WellFormed.interp_ne_linear [StepValue V] {s : Sequence V}
    (h : s.WellFormed) : s.interp ≠ .linear := by
  intro hl
  have := (wellFormed_iff.mp h).linear hl
  rw [StepValue.continuous_eq_false] at this
  exact Bool.false_ne_true this

lemma containsValue_period {s : Sequence V} (h : s.isDiscrete = false) (t : Timestamp) :
    s.period.containsValue t = true ↔ s.Covers t.place := by
  rw [Span.containsValue_iff, covers_of_continuous h]
  rfl

lemma find?_time_eq_some_iff {instants : List (Instant V)}
    (h : instants.Pairwise Instant.Precedes) (t : Timestamp) (x : V) :
    (instants.find? fun i => i.time == t).map Instant.value = some x ↔
      ∃ i ∈ instants, i.time.place = t.place ∧ i.value = x := by
  rw [Option.map_eq_some_iff]
  constructor
  · rintro ⟨i, hi, rfl⟩
    have hfound := List.find?_some hi
    exact ⟨i, List.mem_of_find?_eq_some hi, Timestamp.beq_iff.mp hfound, rfl⟩
  · rintro ⟨i, hi, ht, rfl⟩
    cases hfind : instants.find? fun i => i.time == t with
    | none => exact absurd (Timestamp.beq_iff.mpr ht) (List.find?_eq_none.mp hfind i hi)
    | some j =>
      have hfound := List.find?_some hfind
      have hj := Timestamp.beq_iff.mp hfound
      refine ⟨j, rfl, ?_⟩
      rw [eq_of_place_eq h hi (List.mem_of_find?_eq_some hfind) (ht.trans hj.symm)]

lemma WellFormed.takes_of_discrete [LawfulValue V] {s : Sequence V} (h : s.WellFormed)
    (hd : s.isDiscrete = true) (n : Int) (x : V) :
    s.Takes n x ↔ ∃ i ∈ s.instants, i.time.place = n ∧ i.value = x := by
  unfold Takes
  rw [covers_of_discrete hd]
  constructor
  · rintro ⟨⟨i, hi, rfl⟩, rfl⟩
    exact ⟨i, hi, rfl, (held_place h.rising hi).symm⟩
  · rintro ⟨i, hi, rfl, rfl⟩
    exact ⟨⟨i, hi, rfl⟩, held_place h.rising hi⟩

def valueAt (s : Sequence V) (t : Timestamp) : Option V := foundIn (s.lookup t)

lemma lookup_of_discrete {s : Sequence V} (h : s.isDiscrete = true) (t : Timestamp) :
    s.lookup t = .ok ((s.instants.find? fun i => i.time == t).map Instant.value) := by
  unfold lookup
  rw [if_pos h]
  rfl

lemma lookup_of_covers {s : Sequence V} (h : s.isDiscrete = false) {t : Timestamp}
    (hc : s.Covers t.place) : s.lookup t = some <$> s.valueNear t := by
  unfold lookup
  rw [if_neg (by simp [h]), if_pos ((containsValue_period h t).mpr hc), map_eq_pure_bind]

lemma lookup_eq_none_iff {s : Sequence V} {t : Timestamp} :
    s.lookup t = .ok none ↔ ¬s.Covers t.place := by
  cases hd : s.isDiscrete with
  | true =>
    rw [lookup_of_discrete hd, Except.ok.injEq, Option.map_eq_none_iff, covers_of_discrete hd,
      List.find?_eq_none]
    simp only [Timestamp.beq_iff, not_exists, not_and]
  | false =>
    by_cases hc : s.Covers t.place
    · rw [lookup_of_covers hd hc]
      cases s.valueNear t <;> simp [hc, Functor.map, Except.map]
    · unfold lookup
      rw [if_neg (by simp [hd]), if_neg fun hin => hc ((containsValue_period hd t).mp hin)]
      exact iff_of_true rfl hc

lemma valueAt_eq_none_of_not_covers {s : Sequence V} {t : Timestamp} (h : ¬s.Covers t.place) :
    s.valueAt t = none := by
  unfold valueAt
  rw [lookup_eq_none_iff.mpr h]
  rfl

lemma covers_of_valueAt {s : Sequence V} {t : Timestamp} {x : V} (h : s.valueAt t = some x) :
    s.Covers t.place := by
  by_contra hn
  rw [valueAt_eq_none_of_not_covers hn] at h
  cases h

lemma unrefused_lookup (s : Sequence V) (t : Timestamp) : Unrefused (s.lookup t) := by
  unfold lookup
  split
  · exact Unrefused.ok _
  · split
    · exact (unrefused_valueNear s t).bind fun _ _ => Unrefused.ok _
    · exact Unrefused.ok _

lemma completes_lookup {s : Sequence V} (hrising : s.instants.Pairwise Instant.Precedes)
    (hshort : ShortRun s.interp s.first s.rest) (t : Timestamp) : Completes (s.lookup t) := by
  unfold lookup
  split
  · exact Completes.ok _
  · split
    · exact (completes_valueNear hrising hshort t).bind fun _ _ => Completes.ok _
    · exact Completes.ok _

/-- A sequence of steps is looked up at every timestamp. -/
lemma lookup_eq_valueAt {s : Sequence V} (h : s.interp ≠ .linear) (t : Timestamp) :
    s.lookup t = .ok (s.valueAt t) := by
  have hok : ∃ found, s.lookup t = .ok found := by
    cases hd : s.isDiscrete with
    | true => exact ⟨_, lookup_of_discrete hd t⟩
    | false =>
      by_cases hc : s.Covers t.place
      · rw [lookup_of_covers hd hc, valueNear_eq h]
        exact ⟨_, rfl⟩
      · exact ⟨none, lookup_eq_none_iff.mpr hc⟩
  obtain ⟨found, hfound⟩ := hok
  unfold valueAt
  rw [hfound]
  rfl

lemma WellFormed.valueAt_eq_some_iff [StepValue V] {s : Sequence V} (h : s.WellFormed)
    (t : Timestamp) (x : V) : s.valueAt t = some x ↔ s.Takes t.place x := by
  rw [valueAt, foundIn_eq_some]
  cases hd : s.isDiscrete with
  | true =>
    rw [lookup_of_discrete hd, Except.ok.injEq, find?_time_eq_some_iff h.rising,
      h.takes_of_discrete hd]
  | false =>
    unfold Takes
    by_cases hc : s.Covers t.place
    · rw [lookup_of_covers hd hc, valueNear_eq h.interp_ne_linear]
      simp [hc, Functor.map, Except.map]
    · rw [lookup_eq_none_iff.mpr hc]
      simp [hc]

lemma WellFormed.valueAt_eq_none_iff [StepValue V] {s : Sequence V} (h : s.WellFormed)
    (t : Timestamp) : s.valueAt t = none ↔ ¬s.Covers t.place := by
  rw [← lookup_eq_none_iff, lookup_eq_valueAt h.interp_ne_linear, Except.ok.injEq]

end Sequence

namespace SequenceSet

variable {V : Type} [TemporalValue V] [LawfulValue V]

omit [LawfulValue V] in
lemma apart_of_train {interp : Interpolation} {a b : Sequence V} {rest : List (Sequence V)}
    (h : Sequence.Train interp (a :: rest)) (hb : b ∈ rest) {n : Int} (ha : a.Covers n) :
    ¬b.Covers n := by
  have hbefore := List.rel_of_pairwise_cons h.rising hb
  rw [h.covers_iff (by simp)] at ha
  rw [h.covers_iff (by simp [hb])]
  unfold Sequence.Before at hbefore
  omega

/-- If a sequence does not end before a timestamp, then only it and the next one can be defined
there: the next one may start at the timestamp itself, the others start later. -/
lemma not_covers_of_beyond {interp : Interpolation} {a b : Sequence V} {rest : List (Sequence V)}
    (h : Sequence.Train interp (a :: b :: rest)) {t : Timestamp}
    (hle : t.place ≤ a.last.time.place) {s : Sequence V} (hs : s ∈ rest) :
    ¬s.Covers t.place := by
  have hab : a.Before b := (List.pairwise_cons.mp h.rising).1 b (by simp)
  have hbs : b.Before s := (List.pairwise_cons.mp h.tail.rising).1 s hs
  have hb : b.lo ≤ b.hi := (h.wellFormed b (by simp)).lo_le_hi
  rw [h.covers_iff (by simp [hs])]
  unfold Sequence.Before at hab hbs
  rw [Sequence.hi_eq] at hab
  split at hab <;> omega

/-- What a look-up comes upon at a timestamp: the sequence that is defined there is among the first
two that do not end before. -/
lemma findSomeM?_of_mem {interp : Interpolation} {pieces : List (Sequence V)}
    (h : Sequence.Train interp pieces) {t : Timestamp} {s : Sequence V} (hs : s ∈ pieces)
    (hc : s.Covers t.place) :
    ((pieces.dropWhile fun x => decide (x.last.time < t)).take 2).findSomeM?
      (fun x => x.lookup t) = s.lookup t := by
  induction pieces with
  | nil => cases hs
  | cons a rest ih =>
    have hfound : s.lookup t ≠ .ok none := fun hn => Sequence.lookup_eq_none_iff.mp hn hc
    rw [List.dropWhile_cons]
    split
    · rename_i hlt
      rw [decide_eq_true_eq, Timestamp.lt_iff] at hlt
      rcases List.mem_cons.mp hs with rfl | hs
      · rw [h.covers_iff (by simp), Sequence.hi_eq] at hc
        split at hc <;> omega
      · exact ih h.tail hs
    · rename_i hlt
      rw [decide_eq_true_eq, Timestamp.lt_iff, not_lt] at hlt
      rcases List.mem_cons.mp hs with rfl | hs
      · exact findSomeM?_of_ne_none _ hfound
      · have hna : a.lookup t = .ok none :=
          Sequence.lookup_eq_none_iff.mpr fun ha => apart_of_train h hs ha hc
        obtain ⟨b, rest, rfl⟩ := List.exists_cons_of_ne_nil (List.ne_nil_of_mem hs)
        rcases List.mem_cons.mp hs with rfl | hs
        · exact (findSomeM?_of_none [s] hna).trans (findSomeM?_of_ne_none [] hfound)
        · exact absurd hc (not_covers_of_beyond h hlt hs)

end SequenceSet

namespace Temporal

variable {V : Type} [TemporalValue V] [LawfulValue V]

def Takes (v : Temporal V) (n : Int) (x : V) : Prop := ∃ s ∈ v.sequences, s.Takes n x

def valueAt (v : Temporal V) (t : Timestamp) : Option V := foundIn (v.lookup t)

/-- A look-up at a timestamp ends as it does in the sequence that is defined there. -/
lemma WellFormed.lookup_of_mem {v : Temporal V} (h : v.WellFormed) {t : Timestamp}
    {s : Sequence V} (hs : s ∈ v.sequences) (hc : s.Covers t.place) :
    v.lookup t = s.lookup t := by
  cases v with
  | instant i =>
    obtain rfl := List.mem_singleton.mp hs
    rw [Sequence.lookup_of_discrete rfl]
    by_cases ht : (i.time == t) = true <;>
      simp [lookup, Sequence.ofInstant, Sequence.instants, ht, pure, Except.pure]
  | sequence x =>
    obtain rfl := List.mem_singleton.mp hs
    rfl
  | sequenceSet x =>
    exact SequenceSet.findSomeM?_of_mem (SequenceSet.WellFormed.isTrain h) hs hc

omit [LawfulValue V] in
/-- Where a value is not defined a look-up finds nothing. -/
lemma lookup_of_not_covers {v : Temporal V} {t : Timestamp} (h : ¬v.Covers t.place) :
    v.lookup t = .ok none := by
  have hnone : ∀ s ∈ v.sequences, s.lookup t = .ok none := fun s hs =>
    Sequence.lookup_eq_none_iff.mpr fun hc => h ⟨s, hs, hc⟩
  cases v with
  | instant i =>
    have hi := hnone _ (List.mem_singleton.mpr rfl)
    rw [Sequence.lookup_of_discrete rfl] at hi
    by_cases ht : (i.time == t) = true <;>
      simp_all [lookup, Sequence.ofInstant, Sequence.instants, pure, Except.pure]
  | sequence x => exact hnone x (List.mem_singleton.mpr rfl)
  | sequenceSet x =>
    refine findSomeM?_eq_none fun s hs => hnone s ?_
    exact (List.dropWhile_sublist _).subset (List.mem_of_mem_take hs)

lemma WellFormed.lookup_eq_none_iff {v : Temporal V} (h : v.WellFormed) {t : Timestamp} :
    v.lookup t = .ok none ↔ ¬v.Covers t.place := by
  constructor
  · rintro hn ⟨s, hs, hc⟩
    rw [h.lookup_of_mem hs hc] at hn
    exact Sequence.lookup_eq_none_iff.mp hn hc
  · exact lookup_of_not_covers

lemma valueAt_eq_some_iff_exists {v : Temporal V} (h : v.WellFormed) (t : Timestamp) (x : V) :
    v.valueAt t = some x ↔ ∃ s ∈ v.sequences, s.valueAt t = some x := by
  constructor
  · intro hx
    have hc : v.Covers t.place := by
      by_contra hn
      rw [valueAt, lookup_of_not_covers hn] at hx
      cases hx
    obtain ⟨s, hs, hc⟩ := hc
    refine ⟨s, hs, ?_⟩
    rw [← hx, valueAt, h.lookup_of_mem hs hc]
    rfl
  · rintro ⟨s, hs, hx⟩
    rw [← hx, valueAt, h.lookup_of_mem hs (Sequence.covers_of_valueAt hx)]
    rfl

lemma WellFormed.unrefused_lookup {v : Temporal V} (h : v.WellFormed) (t : Timestamp) :
    Unrefused (v.lookup t) := by
  by_cases hc : v.Covers t.place
  · obtain ⟨s, hs, hc⟩ := hc
    rw [h.lookup_of_mem hs hc]
    exact Sequence.unrefused_lookup s t
  · rw [lookup_of_not_covers hc]
    exact Unrefused.ok _

/-- A look-up that ends finds what there is. -/
lemma WellFormed.lookup_of_completes {v : Temporal V} (h : v.WellFormed) {t : Timestamp}
    (hdone : Completes (v.lookup t)) : v.lookup t = .ok (v.valueAt t) := by
  obtain ⟨found, hfound⟩ := (h.unrefused_lookup t).exists_ok hdone
  unfold valueAt
  rw [hfound]
  rfl

lemma WellFormed.completes_lookup_of_confined {v : Temporal V} (h : v.WellFormed)
    (hconfined : Sequence.Confined v.sequences) (t : Timestamp) : Completes (v.lookup t) := by
  by_cases hc : v.Covers t.place
  · obtain ⟨s, hs, hc⟩ := hc
    rw [h.lookup_of_mem hs hc]
    exact Sequence.completes_lookup (h.sequences s hs).rising (hconfined.shortRun_self hs) t
  · rw [lookup_of_not_covers hc]
    exact Completes.ok _

/-- A short value is looked up at every timestamp. -/
lemma WellFormed.completes_lookup {v : Temporal V} (h : v.WellFormed) (hshort : v.Short)
    (t : Timestamp) : Completes (v.lookup t) := h.completes_lookup_of_confined (h.confined hshort) t

lemma WellFormed.short [StepValue V] {v : Temporal V} (h : v.WellFormed) : v.Short := by
  intro hlin
  obtain ⟨s, hs⟩ := v.exists_mem_sequences
  exact absurd ((h.interp_eq s hs).trans hlin) (h.sequences s hs).interp_ne_linear

/-- A value by steps is looked up at every timestamp. -/
lemma WellFormed.lookup_eq_valueAt [StepValue V] {v : Temporal V} (h : v.WellFormed)
    (t : Timestamp) : v.lookup t = .ok (v.valueAt t) :=
  h.lookup_of_completes (h.completes_lookup h.short t)

/-- The value looked up at a timestamp is the one that the value over time takes there. -/
theorem WellFormed.valueAt_eq_some_iff [StepValue V] {v : Temporal V} (h : v.WellFormed)
    (t : Timestamp) (x : V) : v.valueAt t = some x ↔ v.Takes t.place x := by
  rw [valueAt_eq_some_iff_exists h]
  exact exists_congr fun s => and_congr_right fun hs =>
    (h.sequences s hs).valueAt_eq_some_iff t x

lemma WellFormed.eq_of_mem_period {v : Temporal V} (h : v.WellFormed) {s s' : Sequence V}
    (hs : s ∈ v.sequences) (hs' : s' ∈ v.sequences) {n : Int} (hn : s.lo ≤ n ∧ n ≤ s.hi)
    (hn' : s'.lo ≤ n ∧ n ≤ s'.hi) : s = s' := by
  have hsymm : Std.Symm fun a b : Sequence V =>
      ¬((a.lo ≤ n ∧ n ≤ a.hi) ∧ b.lo ≤ n ∧ n ≤ b.hi) := ⟨fun _ _ hab hba => hab hba.symm⟩
  have hapart : v.sequences.Pairwise fun a b : Sequence V =>
      ¬((a.lo ≤ n ∧ n ≤ a.hi) ∧ b.lo ≤ n ∧ n ≤ b.hi) := by
    refine h.rising.imp fun {a b} hab => ?_
    unfold Sequence.Before at hab
    omega
  by_contra hne
  exact hapart.forall hs hs' hne ⟨hn, hn'⟩

lemma WellFormed.takes_unique {v : Temporal V} (h : v.WellFormed) {n : Int} {x y : V}
    (hx : v.Takes n x) (hy : v.Takes n y) : x = y := by
  obtain ⟨s, hs, hsn, rfl⟩ := hx
  obtain ⟨s', hs', hsn', rfl⟩ := hy
  rw [h.eq_of_mem_period hs hs' ((h.sequences s hs).mem_period hsn)
    ((h.sequences s' hs').mem_period hsn')]

omit [LawfulValue V] in
lemma covers_iff_exists_takes {v : Temporal V} {n : Int} : v.Covers n ↔ ∃ x, v.Takes n x := by
  constructor
  · rintro ⟨s, hs, hn⟩
    exact ⟨s.held n, s, hs, hn, rfl⟩
  · rintro ⟨x, s, hs, hn, -⟩
    exact ⟨s, hs, hn⟩

lemma WellFormed.containsValue_time {v : Temporal V} (h : v.WellFormed) (t : Timestamp) :
    v.time.containsValue t = true ↔ v.Covers t.place := by
  obtain ⟨hwf, hc⟩ := h.time_spec
  rw [hwf.containsValue_iff, ← hc]
  rfl

lemma covers_of_valueAt {v : Temporal V} (h : v.WellFormed) {t : Timestamp} {x : V}
    (hx : v.valueAt t = some x) : v.Covers t.place := by
  obtain ⟨s, hs, hx⟩ := (valueAt_eq_some_iff_exists h t x).mp hx
  exact ⟨s, hs, Sequence.covers_of_valueAt hx⟩

lemma WellFormed.valueAt_eq_none_iff [StepValue V] {v : Temporal V} (h : v.WellFormed)
    (t : Timestamp) : v.valueAt t = none ↔ ¬v.Covers t.place := by
  rw [← h.lookup_eq_none_iff, h.lookup_eq_valueAt, Except.ok.injEq]

lemma WellFormed.exists_valueAt_iff [StepValue V] {v : Temporal V} (h : v.WellFormed)
    (t : Timestamp) : (∃ x, v.valueAt t = some x) ↔ v.Covers t.place := by
  rw [← Option.isSome_iff_exists, Option.isSome_iff_ne_none, ne_eq, h.valueAt_eq_none_iff, not_not]

lemma WellFormed.interp_eq_step [StepValue V] {v : Temporal V} (h : v.WellFormed)
    (hd : v.isDiscrete = false) : v.interp = .step := by
  obtain ⟨s, hs⟩ := v.exists_mem_sequences
  have hl := (h.sequences s hs).interp_ne_linear
  rw [h.interp_eq s hs] at hl
  cases hi : v.interp with
  | discrete => simp [isDiscrete, hi] at hd
  | step => rfl
  | linear => exact absurd hi hl

end Temporal

end TemporalAlgebra
