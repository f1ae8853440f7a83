import TemporalAlgebra.Proofs.Span.Building
import TemporalAlgebra.Proofs.Time.Shifting
import TemporalAlgebra.Span.Transform

/-!
# Shifted spans

A delta moves the elements of a domain by some count of steps, as far as they stay in the domain.
A shifted span has moved bounds of the same kinds; in a discrete domain these are still in the form
`[lower, upper)`, so that building the span anew changes nothing.
-/
namespace TemporalAlgebra

open LawfulDomain

/-- A domain whose elements move by counted steps. -/
class ShiftDomain (α : Type) [SpanDomain α] [LawfulDomain α] where
  /-- The steps that a delta moves by; none for one that is too long to move anything. -/
  steps? : SpanDomain.Delta α → Option Int
  addDelta_eq_ok_iff : ∀ {a b : α} {d : SpanDomain.Delta α},
    SpanDomain.addDelta a d = .ok b ↔ ∃ n ∈ steps? d, key b = key a + n

open ShiftDomain

lemma Signed.add?_eq_some_iff {w : Nat} {a b d : Signed w} :
    a.add? d = some b ↔ b.val = a.val + d.val :=
  ofInt?_eq_some.trans eq_comm

instance : ShiftDomain Integer where
  steps? (d : Integer) := some d.val
  addDelta_eq_ok_iff {a b} {d : Integer} := by
    change orRefuse (a.add? d) _ = .ok b ↔ ∃ n ∈ some d.val, b.val = a.val + n
    simp only [orRefuse_eq_ok, Signed.add?_eq_some_iff, Option.mem_some, exists_eq_left']

instance : ShiftDomain Bigint where
  steps? (d : Bigint) := some d.val
  addDelta_eq_ok_iff {a b} {d : Bigint} := by
    change orRefuse (a.add? d) _ = .ok b ↔ ∃ n ∈ some d.val, b.val = a.val + n
    simp only [orRefuse_eq_ok, Signed.add?_eq_some_iff, Option.mem_some, exists_eq_left']

lemma Date.ofDays?_eq_some_iff {n : Int} {b : Date} : ofDays? n = some b ↔ b.days = n := by
  unfold ofDays? days
  rw [Option.map_eq_some_iff]
  constructor
  · rintro ⟨ticks, hticks, rfl⟩
    exact (Signed.ofInt?_eq_some.mp hticks).symm
  · rintro rfl
    exact ⟨b.ticks, Signed.ofInt?_eq_some.mpr rfl, rfl⟩

instance : ShiftDomain Date where
  steps? (d : Integer) := some d.val
  addDelta_eq_ok_iff {a b} {d : Integer} := by
    change orRefuse (Date.ofDays? (a.days + d.val)) _ = .ok b ↔
      ∃ n ∈ some d.val, b.days = a.days + n
    simp only [orRefuse_eq_ok, Date.ofDays?_eq_some_iff, Option.mem_some, exists_eq_left']

/-- An interval moves timestamps by its whole microseconds, if these fit in 64 bits. -/
instance : ShiftDomain Timestamp where
  steps? (d : Interval) := d.micros?.map Signed.val
  addDelta_eq_ok_iff {a b} {d : Interval} := by
    change a.shift d = .ok b ↔ ∃ n ∈ d.micros?.map Signed.val, b.micros = a.micros + n
    cases hd : d.micros? with
    | none =>
      unfold Timestamp.shift
      rw [hd]
      exact iff_of_false refuse_ne_ok (by simp)
    | some size =>
      rw [Timestamp.shift_eq_ok hd]
      simp

lemma Timestamp.steps?_ofMicros {n m : Int} :
    m ∈ steps? (α := Timestamp) (Interval.ofMicros n) ↔ Fits n ∧ m = n := by
  change m ∈ (Interval.ofMicros n).micros?.map Signed.val ↔ _
  rw [micros?_ofMicros, Option.mem_def, Option.map_eq_some_iff]
  simp only [Signed.ofInt?_eq_some]
  constructor
  · rintro ⟨size, rfl, rfl⟩
    exact ⟨⟨size.lower, size.upper⟩, rfl⟩
  · rintro ⟨hfits, rfl⟩
    exact ⟨⟨m, hfits.1, hfits.2⟩, rfl, rfl⟩

variable {α : Type} [SpanDomain α] [LawfulDomain α] {n : Int} {d : SpanDomain.Delta α}

section

variable [ShiftDomain α] {a b : α}

lemma addDelta_eq_ok_iff_of_mem (hn : n ∈ steps? d) :
    SpanDomain.addDelta a d = .ok b ↔ key b = key a + n := by
  rw [addDelta_eq_ok_iff, Option.mem_def.mp hn]
  simp only [Option.mem_some, exists_eq_left']

lemma addDelta_ne_ok (hd : steps? d = none) : SpanDomain.addDelta a d ≠ .ok b := by
  rw [ne_eq, addDelta_eq_ok_iff, hd]
  simp

end

namespace Span

/-- The bounds of one span are those of another one moved by some steps, of the same kinds. -/
structure Translates (n : Int) (s t : Span α) : Prop where
  lower : key t.lower = key s.lower + n
  upper : key t.upper = key s.upper + n
  lowerInc : t.lowerInc = s.lowerInc
  upperInc : t.upperInc = s.upperInc

def bounds (s : Span α) : List α := [s.lower, s.upper]

variable {s t : Span α}

namespace Translates

lemma symm (h : Translates n s t) : Translates (-n) t s :=
  ⟨by rw [h.lower]; omega, by rw [h.upper]; omega, h.lowerInc.symm, h.upperInc.symm⟩

lemma lo (h : Translates n s t) : t.lo = s.lo + 3 * n := by
  rw [lo_eq, lo_eq, h.lower, h.lowerInc]
  split <;> omega

lemma hi (h : Translates n s t) : t.hi = s.hi + 3 * n := by
  rw [hi_eq, hi_eq, h.upper, h.upperInc]
  split <;> omega

lemma valid (h : Translates n s t) (hs : s.Valid) : t.Valid := by
  have hle := hs.lo_le_hi
  have hlo := h.lo
  have hhi := h.hi
  refine ⟨by omega, fun hd => ?_⟩
  have hcanonical := hs.canonical hd
  omega

lemma covers_iff (h : Translates n s t) (m : Int) : t.Covers (m + 3 * n) ↔ s.Covers m := by
  unfold Covers
  rw [h.lo, h.hi]
  omega

lemma containsValue (h : Translates n s t) {v w : α} (hw : key w = key v + n) :
    t.containsValue w = s.containsValue v := by
  rw [Bool.eq_iff_iff, containsValue_iff, containsValue_iff, hw]
  have hplace : 3 * (key v + n) + 1 = 3 * key v + 1 + 3 * n := by omega
  rw [hplace]
  exact h.covers_iff _

end Translates

lemma exists_translates_iff :
    (∃ t, Translates n s t) ↔ ∀ v ∈ s.bounds, ∃ w : α, key w = key v + n := by
  simp only [bounds, List.forall_mem_cons, List.not_mem_nil, false_imp_iff, implies_true, and_true]
  constructor
  · rintro ⟨t, ht⟩
    exact ⟨⟨t.lower, ht.lower⟩, t.upper, ht.upper⟩
  · rintro ⟨⟨l, hl⟩, u, hu⟩
    exact ⟨⟨l, u, s.lowerInc, s.upperInc⟩, hl, hu, rfl, rfl⟩

variable [SuccessorDomain α] [ShiftDomain α]

lemma Valid.shift_eq_ok_iff (hs : s.Valid) (hn : n ∈ steps? d) :
    s.shift d = .ok t ↔ Translates n s t := by
  unfold shift
  simp only [bind_eq_ok, addDelta_eq_ok_iff_of_mem hn]
  constructor
  · rintro ⟨l, hl, u, hu, hnew⟩
    have hmoved : Translates n s ⟨l, u, s.lowerInc, s.upperInc⟩ := ⟨hl, hu, rfl, rfl⟩
    have hmake := (hmoved.valid hs).make_eq
    obtain rfl := Except.ok.inj (hmake.symm.trans (reported_eq_ok.mp hnew))
    exact hmoved
  · intro ht
    refine ⟨t.lower, ht.lower, t.upper, ht.upper, reported_eq_ok.mpr ?_⟩
    rw [← ht.lowerInc, ← ht.upperInc]
    exact (ht.valid hs).make_eq

omit [SuccessorDomain α] in
lemma shift_ne_ok (hd : steps? d = none) : s.shift d ≠ .ok t := by
  unfold shift
  intro h
  obtain ⟨l, hl, -⟩ := bind_eq_ok.mp h
  exact addDelta_ne_ok hd hl

end Span

end TemporalAlgebra
