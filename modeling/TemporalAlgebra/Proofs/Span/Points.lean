import TemporalAlgebra.Proofs.Span.Relations

/-!
# Values and their spans

A value has a span of its own: the value alone, or in a discrete domain everything from the value up
to the next one. Whether a span holds the value, ends before it or starts after it is what the span
of the value says. Adjacency is not the same: a span of a discrete domain touches the value in front
of its first one, and no bound that it excludes tells.
-/
namespace TemporalAlgebra.Span

open LawfulDomain SpanSet

variable {α : Type} [SpanDomain α] [LawfulDomain α] {s p : Span α} {v w : α}

lemma leftValue_iff : s.leftValue v = true ↔ s.hi < 3 * key v + 1 := Bound.before_iff _ _

lemma rightValue_iff : s.rightValue v = true ↔ 3 * key v + 1 < s.lo := Bound.before_iff _ _

lemma adjacentValue_iff :
    s.adjacentValue v = true ↔ s.hi = 3 * key v ∨ s.lo = 3 * key v + 2 := by
  unfold adjacentValue
  rw [hi_eq, lo_eq]
  simp only [Bool.or_eq_true, Bool.and_eq_true, beq_iff_eq, LawfulDomain.order_eq,
    compare_eq_iff_eq, Bool.not_eq_true']
  cases s.lowerInc <;> cases s.upperInc <;>
    simp only [if_true, if_false, Bool.false_eq_true, and_true, and_false, or_false, false_or,
      false_iff, reduceCtorEq] <;> omega

variable [SuccessorDomain α]

lemma successor_eq_ok_iff (hd : SpanDomain.discrete α = true) (hp : point v = .ok p) :
    SpanDomain.successor v = .ok w ↔ key w = key v + 1 := by
  obtain ⟨-, hmake⟩ := make_eq_ok_iff.mp (reported_eq_ok.mp hp)
  rw [if_pos hd, canonical_eq] at hmake
  simp only [bind_eq_ok, if_true] at hmake
  obtain ⟨_, -, next, hnext, -⟩ := hmake
  have hkey : key next = key v + 1 := by
    rcases SuccessorDomain.successor hd v with ⟨c, hc, hkey⟩ | ⟨⟨cause, hc⟩, -⟩
    · rw [hc] at hnext
      rwa [← Except.ok.inj hnext]
    · rw [hc] at hnext
      exact absurd hnext refuse_ne_ok
  rw [hnext, Except.ok.injEq, ← hkey]
  exact ⟨fun h => by rw [h], fun h => LawfulDomain.key_injective h.symm⟩

lemma lo_hi_point (hp : point v = .ok p) : p.lo = 3 * key v + 1 ∧
    p.hi = 3 * key v + if SpanDomain.discrete α then 3 else 1 := lo_hi_closed hp

/-- What a span says of a value and what it says of the span of the value, if that exists. They
agree on whether the span holds the value, ends before it or starts after it. They part on
adjacency exactly for the value right before the first one of a span of a discrete domain: its span
touches, and the value is not called adjacent. -/
theorem values_agree_with_points (hs : s.Valid) (hp : point v = .ok p) :
    s.containsValue v = s.contains p ∧ s.leftValue v = s.left p ∧
      s.rightValue v = s.right p ∧
      (s.adjacentValue v = s.adjacent p ↔
        ¬(SpanDomain.discrete α = true ∧ SpanDomain.successor v = .ok s.lower)) ∧
      (SpanDomain.discrete α = true → SpanDomain.successor v = .ok s.lower →
        s.adjacentValue v = false ∧ s.adjacent p = true) := by
  have hle := hs.lo_le_hi
  have hlo := s.lo_emod
  obtain ⟨hplo, hphi⟩ := lo_hi_point hp
  -- where a discrete domain has no places between its elements, the ends of both spans tell
  have hends : (SpanDomain.discrete α = true ∧ s.lo % 3 = 1 ∧ s.hi % 3 = 0 ∧
      p.hi = 3 * key v + 3) ∨ (SpanDomain.discrete α = false ∧ p.hi = 3 * key v + 1) := by
    cases hd : SpanDomain.discrete α with
    | true =>
      rw [hd, if_pos rfl] at hphi
      exact Or.inl ⟨rfl, (hs.canonical hd).1, (hs.canonical hd).2, hphi⟩
    | false =>
      rw [hd, if_neg Bool.false_ne_true] at hphi
      exact Or.inr ⟨rfl, hphi⟩
  have hnext : SpanDomain.discrete α = true →
      (SpanDomain.successor v = .ok s.lower ↔ s.lo = 3 * key v + 4) := by
    intro hd
    rw [successor_eq_ok_iff hd hp, lo_eq, ((valid_iff_of_discrete hd).mp hs).1, if_pos rfl]
    omega
  have hvalue := adjacentValue_iff (s := s) (v := v)
  have hspan := adjacent_iff s p
  refine ⟨?_, ?_, ?_, ?_, fun hd hsuccessor => ?_⟩
  · rw [Bool.eq_iff_iff, containsValue_iff, contains_iff]
    unfold Covers
    omega
  · rw [Bool.eq_iff_iff, leftValue_iff, left_iff]
    omega
  · rw [Bool.eq_iff_iff, rightValue_iff, right_iff]
    omega
  · rw [Bool.eq_iff_iff, hvalue, hspan]
    rcases hends with ⟨hd, hends⟩ | ⟨hd, hends⟩
    · rw [hnext hd]
      simp only [hd, true_and]
      omega
    · simp only [hd, Bool.false_eq_true, false_and, not_false_iff, iff_true]
      omega
  · rw [hnext hd] at hsuccessor
    rw [hd, if_pos rfl] at hphi
    have hlast := hs.canonical hd
    rw [← Bool.not_eq_true, hvalue, hspan]
    omega

def few : Span Integer := ⟨.clamp 1, .clamp 5, true, false⟩

lemma few_valid : few.Valid := ⟨by decide, fun _ => by decide⟩

/-- The integer after the last one is adjacent, and the one before the first is not. -/
theorem few_agrees_above_not_below :
    few.Valid ∧ (∃ p, point (.clamp 5) = .ok p ∧ few.adjacentValue (.clamp 5) = few.adjacent p) ∧
      ∃ p, point (.clamp 0) = .ok p ∧ few.rightValue (.clamp 0) = few.right p ∧
        few.adjacentValue (.clamp 0) = false ∧ few.adjacent p = true := by
  have habove : point (.clamp 5 : Integer) = .ok ⟨.clamp 5, .clamp 6, true, false⟩ := rfl
  have hbelow : point (.clamp 0 : Integer) = .ok ⟨.clamp 0, .clamp 1, true, false⟩ := rfl
  obtain ⟨-, -, hright, -, hparts⟩ := values_agree_with_points few_valid hbelow
  obtain ⟨-, -, -, hagree, -⟩ := values_agree_with_points few_valid habove
  exact ⟨few_valid, ⟨_, habove, hagree.mpr (by decide)⟩,
    _, hbelow, hright, hparts rfl rfl⟩

theorem adjacency_parts_below : ∃ (s p : Span Integer) (v : Integer),
    s.Valid ∧ point v = .ok p ∧ s.adjacentValue v ≠ s.adjacent p :=
  ⟨few, ⟨.clamp 0, .clamp 1, true, false⟩, .clamp 0, few_valid, rfl, by decide⟩

end TemporalAlgebra.Span
