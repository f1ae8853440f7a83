import TemporalAlgebra.Proofs.Outcome
import TemporalAlgebra.Proofs.Span.Position

/-!
# Spans that are built

A span can be built from bounds exactly when it is not empty, and then it holds the values between
the bounds. In a discrete domain the bounds move to the next elements where they are of the wrong
kind, which fails only for the greatest element; no span holds that one.
-/
namespace TemporalAlgebra

open LawfulDomain

/-- A domain in which every element may bound a span and, if it is discrete, every element but the
greatest has a next one. -/
class SuccessorDomain (α : Type) [SpanDomain α] [LawfulDomain α] : Prop where
  isValid : ∀ a : α, SpanDomain.isValid a = true
  successor : SpanDomain.discrete α = true → ∀ a : α,
    (∃ b, SpanDomain.successor a = .ok b ∧ key b = key a + 1) ∨
      (∃ cause, SpanDomain.successor a = refuse cause) ∧ ∀ b : α, key b ≤ key a

lemma Signed.successor_cases {w : Nat} (a : Signed w) :
    (∃ b : Signed w, ofInt? (a.val + 1) = some b ∧ b.val = a.val + 1) ∨
      (ofInt? (a.val + 1) : Option (Signed w)) = none ∧ ∀ b : Signed w, b.val ≤ a.val := by
  cases h : (ofInt? (a.val + 1) : Option (Signed w)) with
  | some b => exact Or.inl ⟨b, rfl, (ofInt?_eq_some.mp h).symm⟩
  | none =>
    refine Or.inr ⟨rfl, fun b => ?_⟩
    have := ofInt?_eq_none.mp h
    have := a.lower
    have := b.upper
    omega

instance : SuccessorDomain Integer where
  isValid _ := rfl
  successor _ a := by
    change (∃ b, orRefuse (Signed.ofInt? (a.val + 1)) _ = .ok b ∧ b.val = a.val + 1) ∨
      (∃ cause, orRefuse (Signed.ofInt? (a.val + 1)) _ = refuse cause) ∧
        ∀ b : Integer, b.val ≤ a.val
    rcases Signed.successor_cases a with ⟨b, hb, hval⟩ | ⟨hnone, hmax⟩
    · exact Or.inl ⟨b, orRefuse_eq_ok.mpr hb, hval⟩
    · exact Or.inr ⟨⟨_, by rw [hnone]; rfl⟩, hmax⟩

instance : SuccessorDomain Bigint where
  isValid _ := rfl
  successor _ a := by
    change (∃ b, orRefuse (Signed.ofInt? (a.val + 1)) _ = .ok b ∧ b.val = a.val + 1) ∨
      (∃ cause, orRefuse (Signed.ofInt? (a.val + 1)) _ = refuse cause) ∧ ∀ b : Bigint, b.val ≤ a.val
    rcases Signed.successor_cases a with ⟨b, hb, hval⟩ | ⟨hnone, hmax⟩
    · exact Or.inl ⟨b, orRefuse_eq_ok.mpr hb, hval⟩
    · exact Or.inr ⟨⟨_, by rw [hnone]; rfl⟩, hmax⟩

instance : SuccessorDomain Date where
  isValid _ := rfl
  successor _ a := by
    change (∃ b, orRefuse (Date.ofDays? (a.days + 1)) _ = .ok b ∧ b.days = a.days + 1) ∨
      (∃ cause, orRefuse (Date.ofDays? (a.days + 1)) _ = refuse cause) ∧ ∀ b : Date, b.days ≤ a.days
    unfold Date.ofDays? Date.days
    rcases Signed.successor_cases a.ticks with ⟨b, hb, hval⟩ | ⟨hnone, hmax⟩
    · exact Or.inl ⟨⟨b⟩, by rw [hb]; rfl, hval⟩
    · exact Or.inr ⟨⟨_, by rw [hnone]; rfl⟩, fun b => hmax b.ticks⟩

instance : SuccessorDomain Timestamp where
  isValid _ := rfl
  successor h := absurd h Bool.false_ne_true

variable {α : Type} [SpanDomain α] [LawfulDomain α]

namespace Span

def Between (lower upper : α) (lowerInc upperInc : Bool) (v : α) : Prop :=
  (key lower < key v ∨ lowerInc = true ∧ key lower = key v) ∧
    (key v < key upper ∨ upperInc = true ∧ key v = key upper)

lemma containsValue_iff_between (s : Span α) (v : α) :
    s.containsValue v = true ↔ Between s.lower s.upper s.lowerInc s.upperInc v := by
  rw [containsValue_iff]
  unfold Covers Between
  rw [lo_eq, hi_eq]
  cases s.lowerInc <;> cases s.upperInc <;>
    simp only [if_true, if_false, Bool.false_eq_true, true_and, false_and, or_false] <;> omega

lemma valid_iff_of_discrete (hd : SpanDomain.discrete α = true) {s : Span α} :
    s.Valid ↔ s.lowerInc = true ∧ s.upperInc = false ∧ key s.lower < key s.upper := by
  constructor
  · intro h
    obtain ⟨hlo, hhi⟩ := h.canonical hd
    have hle := h.lo_le_hi
    rw [lo_eq] at hlo hle
    rw [hi_eq] at hhi hle
    cases hl : s.lowerInc <;> cases hu : s.upperInc <;>
      simp only [hl, hu, if_true, if_false, Bool.false_eq_true] at hlo hhi hle <;>
        first | omega | exact ⟨rfl, rfl, by omega⟩
  · rintro ⟨hl, hu, hlt⟩
    refine ⟨?_, fun _ => ?_⟩ <;> rw [lo_eq, hi_eq, hl, hu] <;>
      simp only [if_true, if_false, Bool.false_eq_true] <;> omega

lemma valid_iff_of_continuous (hd : SpanDomain.discrete α = false) {s : Span α} :
    s.Valid ↔ key s.lower < key s.upper ∨
      key s.lower = key s.upper ∧ s.lowerInc = true ∧ s.upperInc = true := by
  have hvalid : s.Valid ↔ s.lo ≤ s.hi :=
    ⟨fun h => h.lo_le_hi, fun h => ⟨h, fun h' => absurd (hd.symm.trans h') Bool.false_ne_true⟩⟩
  rw [hvalid, lo_eq, hi_eq]
  cases s.lowerInc <;> cases s.upperInc <;>
    simp only [if_true, if_false, Bool.false_eq_true, and_true, and_false, or_false] <;> omega

section

variable [SuccessorDomain α]

lemma make_eq_ok_iff {lower upper : α} {lowerInc upperInc : Bool} {s : Span α} :
    make lower upper lowerInc upperInc = .ok s ↔
      (key lower < key upper ∨ key lower = key upper ∧ lowerInc = true ∧ upperInc = true) ∧
        (if SpanDomain.discrete α then canonical lower upper lowerInc upperInc
          else .ok ⟨lower, upper, lowerInc, upperInc⟩) = .ok s := by
  unfold make
  simp only [check_bind_eq_ok, require_eq_ok, SuccessorDomain.isValid, Bool.and_self, true_and,
    LawfulDomain.order_eq, bne_iff_ne, ne_eq, compare_gt_iff_gt, Bool.or_eq_true, Bool.and_eq_true,
    beq_iff_eq, compare_lt_iff_lt, ← and_assoc]
  refine and_congr ?_ Iff.rfl
  constructor
  · rintro ⟨hle, h | h⟩
    · exact Or.inl h
    · by_cases hlt : key lower < key upper
      · exact Or.inl hlt
      · exact Or.inr ⟨⟨by omega, h.1⟩, h.2⟩
  · rintro (h | ⟨⟨h, hl⟩, hu⟩)
    · exact ⟨by omega, Or.inl h⟩
    · exact ⟨by omega, Or.inr ⟨hl, hu⟩⟩

omit [LawfulDomain α] [SuccessorDomain α] in
lemma canonical_eq (lower upper : α) (lowerInc upperInc : Bool) :
    canonical lower upper lowerInc upperInc = (do
      let lower ← (if lowerInc then .ok lower else SpanDomain.successor lower : Result α)
      let upper ← (if upperInc then SpanDomain.successor upper else .ok upper : Result α)
      require (SpanDomain.order lower upper == .lt) emptyError
      return ⟨lower, upper, true, false⟩) := by
  cases lowerInc <;> cases upperInc <;> rfl

/-- A span of a discrete domain is built from the next elements of bounds of the wrong kind. -/
lemma canonical_eq_ok {lower upper : α} {lowerInc upperInc : Bool} {s : Span α}
    (hd : SpanDomain.discrete α = true) (h : canonical lower upper lowerInc upperInc = .ok s) :
    s.lowerInc = true ∧ s.upperInc = false ∧ key s.lower < key s.upper ∧
      (key s.lower = key lower + if lowerInc then 0 else 1) ∧
      (key s.upper = key upper + if upperInc then 1 else 0) := by
  have hnext : ∀ {a b : α}, SpanDomain.successor a = .ok b → key b = key a + 1 := by
    intro a b hb
    rcases SuccessorDomain.successor hd a with ⟨c, hc, hkey⟩ | ⟨⟨cause, hc⟩, -⟩
    · rw [hc] at hb
      rwa [← Except.ok.inj hb]
    · rw [hc] at hb
      exact absurd hb refuse_ne_ok
  rw [canonical_eq] at h
  simp only [bind_eq_ok, require_eq_ok, LawfulDomain.order_eq, beq_iff_eq, compare_lt_iff_lt,
    pure_eq_ok] at h
  obtain ⟨l, hl, u, hu, -, hlt, rfl⟩ := h
  refine ⟨rfl, rfl, hlt, ?_, ?_⟩
  · cases lowerInc with
    | true =>
      obtain rfl := Except.ok.inj hl
      simp
    | false => exact hnext hl
  · cases upperInc with
    | true => exact hnext hu
    | false =>
      obtain rfl := Except.ok.inj hu
      simp

/-- What is built is not empty and holds the values between the bounds. -/
theorem make_spec {lower upper : α} {lowerInc upperInc : Bool} {s : Span α}
    (h : make lower upper lowerInc upperInc = .ok s) :
    s.Valid ∧ ∀ v, s.containsValue v = true ↔ Between lower upper lowerInc upperInc v := by
  obtain ⟨hbounds, h⟩ := make_eq_ok_iff.mp h
  cases hd : SpanDomain.discrete α with
  | true =>
    rw [if_pos hd] at h
    obtain ⟨hl, hu, hlt, hlower, hupper⟩ := canonical_eq_ok hd h
    refine ⟨(valid_iff_of_discrete hd).mpr ⟨hl, hu, hlt⟩, fun v => ?_⟩
    rw [containsValue_iff_between]
    unfold Between
    rw [hl, hu, hlower, hupper]
    cases lowerInc <;> cases upperInc <;>
      simp only [if_true, if_false, Bool.false_eq_true, true_and, false_and, or_false] <;> omega
  | false =>
    rw [if_neg (by rw [hd]; exact Bool.false_ne_true)] at h
    obtain rfl := Except.ok.inj h
    exact ⟨(valid_iff_of_continuous hd).mpr hbounds, fun v => containsValue_iff_between _ v⟩

/-- A span that is not empty is built from its own bounds. -/
theorem Valid.make_eq {s : Span α} (h : s.Valid) :
    make s.lower s.upper s.lowerInc s.upperInc = .ok s := by
  cases hd : SpanDomain.discrete α with
  | true =>
    obtain ⟨hl, hu, hlt⟩ := (valid_iff_of_discrete hd).mp h
    refine make_eq_ok_iff.mpr ⟨Or.inl hlt, ?_⟩
    obtain ⟨l, u, li, ui⟩ := s
    dsimp only at hl hu hlt ⊢
    subst hl hu
    rw [if_pos hd, canonical_eq]
    simp only [bind_eq_ok, pure_eq_ok, require_eq_ok, LawfulDomain.order_eq, beq_iff_eq,
      compare_lt_iff_lt]
    exact ⟨l, rfl, u, rfl, (), hlt, rfl⟩
  | false =>
    refine make_eq_ok_iff.mpr ⟨(valid_iff_of_continuous hd).mp h, ?_⟩
    rw [if_neg (by rw [hd]; exact Bool.false_ne_true)]

/-- The span of one value holds that value alone. -/
lemma point_spec {x : α} {p : Span α} (h : point x = .ok p) :
    p.Valid ∧ ∀ v, p.containsValue v = true ↔ v = x := by
  obtain ⟨hvalid, hcontains⟩ := make_spec (reported_eq_ok.mp h)
  refine ⟨hvalid, fun v => (hcontains v).trans ⟨fun hv => ?_, ?_⟩⟩
  · unfold Between at hv
    exact LawfulDomain.key_injective (by omega)
  · rintro rfl
    exact ⟨Or.inr ⟨rfl, rfl⟩, Or.inr ⟨rfl, rfl⟩⟩

lemma make_closed {l u : α} (hd : SpanDomain.discrete α = true) (h : key l ≤ key u) :
    make l u true true = (do
      let upper ← SpanDomain.successor u
      require (SpanDomain.order l upper == .lt) emptyError
      return ⟨l, upper, true, false⟩) := by
  have hrising : (SpanDomain.order l u != .gt) = true := by
    rw [LawfulDomain.order_eq, bne_iff_ne, ne_eq, compare_gt_iff_gt]
    omega
  unfold make
  dsimp only
  rw [SuccessorDomain.isValid, SuccessorDomain.isValid, hrising, Bool.and_self, Bool.or_true,
    if_pos hd, canonical_eq]
  rfl

/-- The span from a value to one that does not come before it exists, unless the last value has no
next one. -/
lemma new_closed_cases {l u : α} (h : key l ≤ key u) : (∃ p, new l u true true = .ok p) ∨
    SpanDomain.discrete α = true ∧ (∀ b : α, key b ≤ key u) ∧
      ∃ cause, SpanDomain.successor u = refuse cause ∧
        new l u true true = reported (refuse cause) := by
  unfold new
  cases hd : SpanDomain.discrete α with
  | false =>
    have hmake : make l u true true = .ok ⟨l, u, true, true⟩ := by
      refine make_eq_ok_iff.mpr ⟨?_, if_neg (by rw [hd]; exact Bool.false_ne_true)⟩
      simp only [and_self, and_true]
      omega
    exact Or.inl ⟨_, reported_eq_ok.mpr hmake⟩
  | true =>
    rw [make_closed hd h]
    rcases SuccessorDomain.successor hd u with ⟨next, hnext, hkey⟩ | ⟨⟨cause, hcause⟩, hmax⟩
    · refine Or.inl ⟨⟨l, next, true, false⟩, reported_eq_ok.mpr ?_⟩
      simp only [bind_eq_ok, pure_eq_ok, require_eq_ok, LawfulDomain.order_eq, beq_iff_eq,
        compare_lt_iff_lt]
      exact ⟨next, hnext, (), by omega, rfl⟩
    · refine Or.inr ⟨rfl, hmax, cause, hcause, ?_⟩
      rw [hcause]
      rfl

lemma new_closed_ne_ok {l u : α} {p : Span α} (hd : SpanDomain.discrete α = true)
    (hmax : ∀ b : α, key b ≤ key u) : new l u true true ≠ .ok p := by
  intro hp
  obtain ⟨-, hmake⟩ := make_eq_ok_iff.mp (reported_eq_ok.mp hp)
  rw [if_pos hd] at hmake
  obtain ⟨-, -, -, -, hupper⟩ := canonical_eq_ok hd hmake
  have := hmax p.upper
  rw [if_pos rfl] at hupper
  omega

/-- The span starts at the place of its first value and ends at that of the last one, or right
before the next value. -/
lemma lo_hi_closed {l u : α} {p : Span α} (hp : new l u true true = .ok p) :
    p.lo = 3 * key l + 1 ∧ p.hi = 3 * key u + if SpanDomain.discrete α then 3 else 1 := by
  obtain ⟨-, hmake⟩ := make_eq_ok_iff.mp (reported_eq_ok.mp hp)
  rw [lo_eq, hi_eq]
  cases hd : SpanDomain.discrete α with
  | true =>
    rw [if_pos hd] at hmake
    obtain ⟨hlowerInc, hupperInc, -, hlower, hupper⟩ := canonical_eq_ok hd hmake
    rw [hlowerInc, hupperInc, hlower, hupper]
    simp only [if_true, if_false, Bool.false_eq_true]
    omega
  | false =>
    rw [if_neg (by rw [hd]; exact Bool.false_ne_true)] at hmake
    obtain rfl := Except.ok.inj hmake
    exact ⟨rfl, rfl⟩

lemma point_failure {x : α} {f : Failure} (h : point x = .error f) {s : Span α} (hs : s.Valid) :
    s.containsValue x = false := by
  rcases new_closed_cases (le_refl (key x)) with ⟨p, hp⟩ | ⟨hd, hmax, -⟩
  · cases h.symm.trans hp
  · obtain ⟨-, hu, -⟩ := (valid_iff_of_discrete hd).mp hs
    rw [← Bool.not_eq_true, containsValue_iff_between]
    unfold Between
    rw [hu]
    have := hmax s.upper
    simp only [Bool.false_eq_true, false_and, or_false]
    omega

end

end Span

end TemporalAlgebra
