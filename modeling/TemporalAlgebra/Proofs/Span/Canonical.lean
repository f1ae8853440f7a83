import TemporalAlgebra.Proofs.Span.Building

/-!
# Spans of discrete domains

Any bounds of a discrete domain enclose some values or none. Those that enclose none are refused as
empty. The others make up a span of the form `[lower, upper)` with the same values, unless there is
no value to put behind the last one: then they are out of range.
-/
namespace TemporalAlgebra

open LawfulDomain

lemma orRefuse_eq_error {β : Type} {found : Option β} {cause : Error} {f : Failure}
    (h : orRefuse found cause = .error f) : f = .refused cause 0 := by
  cases found with
  | none => exact (Except.error.inj h).symm
  | some b => cases h

/-- A computation is refused for a cause of a family, which is reported once. -/
def RefusedAs {β : Type} (r : Result β) (code : ErrorCode) : Prop :=
  ∃ cause, r = .error (.refused cause 1) ∧ cause.code = code

lemma not_refusedAs_ok {β : Type} {b : β} {code : ErrorCode} : ¬RefusedAs (.ok b) code :=
  fun ⟨_, h, _⟩ => nomatch h

lemma refusedAs_error_iff {β : Type} {cause : Error} {code : ErrorCode} :
    RefusedAs (.error (.refused cause 1) : Result β) code ↔ cause.code = code := by
  constructor
  · rintro ⟨cause', h, hcode⟩
    cases h
    exact hcode
  · exact fun hcode => ⟨cause, rfl, hcode⟩

variable {α : Type} [SpanDomain α] [LawfulDomain α]

/-- No element comes after this one. -/
def LawfulDomain.Greatest (a : α) : Prop := ∀ b : α, key b ≤ key a

/-- A discrete domain. A step beyond its greatest element is out of range. -/
class DiscreteDomain (α : Type) [SpanDomain α] [LawfulDomain α] : Prop extends
    SuccessorDomain α where
  discrete : SpanDomain.discrete α = true
  refused : ∀ {a : α} {f : Failure}, SpanDomain.successor a = .error f →
    ∃ what, f = .refused (SpanDomain.outOfRange what) 0

instance : DiscreteDomain Integer where
  discrete := rfl
  refused h := ⟨_, orRefuse_eq_error h⟩

instance : DiscreteDomain Bigint where
  discrete := rfl
  refused h := ⟨_, orRefuse_eq_error h⟩

instance : DiscreteDomain Date where
  discrete := rfl
  refused h := ⟨_, orRefuse_eq_error h⟩

namespace Span

variable {lower upper l u v : α} {lowerInc upperInc : Bool}

instance : Decidable (Between lower upper lowerInc upperInc v) :=
  inferInstanceAs (Decidable ((_ ∨ _) ∧ (_ ∨ _)))

lemma Between.rising (h : Between lower upper lowerInc upperInc v) :
    key lower < key upper ∨ key lower = key upper ∧ lowerInc = true ∧ upperInc = true := by
  obtain ⟨hlower | ⟨hlowerInc, hlower⟩, hupper | ⟨hupperInc, hupper⟩⟩ := h
  · exact Or.inl (by omega)
  · exact Or.inl (by omega)
  · exact Or.inl (by omega)
  · exact Or.inr ⟨by omega, hlowerInc, hupperInc⟩

lemma between_iff_moved (hl : key l = key lower + if lowerInc then 0 else 1)
    (hu : key u = key upper + if upperInc then 1 else 0) :
    Between lower upper lowerInc upperInc v ↔ key l ≤ key v ∧ key v < key u := by
  unfold Between
  rw [hl, hu]
  cases lowerInc <;> cases upperInc <;>
    simp only [if_true, if_false, Bool.false_eq_true, true_and, false_and, or_false] <;> omega

/-- How the step behind the greatest element of a discrete domain is refused and reported. -/
def NoneBehind (a : α) (f : Failure) : Prop :=
  SpanDomain.discrete α = true ∧ Greatest a ∧
    ∃ cause, SpanDomain.successor a = refuse cause ∧ f = .refused cause 1

/-- A span with both bounds is refused only for want of a value behind it. -/
lemma new_closed_eq_error_iff [SuccessorDomain α] {f : Failure} (h : key lower ≤ key upper) :
    new lower upper true true = .error f ↔ NoneBehind upper f := by
  constructor
  · intro hf
    rcases new_closed_cases h with ⟨s, hs⟩ | ⟨hd, hgreatest, cause, hcause, hnew⟩
    · cases hf.symm.trans hs
    · exact ⟨hd, hgreatest, cause, hcause, Except.error.inj (hf.symm.trans hnew)⟩
  · rintro ⟨hd, hgreatest, cause, hcause, rfl⟩
    rcases new_closed_cases h with ⟨s, hs⟩ | ⟨-, -, cause', hcause', hnew⟩
    · exact absurd hs (new_closed_ne_ok hd hgreatest)
    · have hsame : (refuse cause : Result α) = refuse cause' := hcause.symm.trans hcause'
      cases hsame
      exact hnew

variable [DiscreteDomain α]

lemma make_falling (lowerInc upperInc : Bool) (h : key upper < key lower) :
    ∃ text, make lower upper lowerInc upperInc = refuse (.invalidArgValue text) := by
  unfold make
  rw [SuccessorDomain.isValid, SuccessorDomain.isValid, LawfulDomain.order_eq,
    compare_gt_iff_gt.mpr h]
  exact ⟨_, rfl⟩

lemma make_excluded (h : key lower = key upper) (hinc : ¬(lowerInc = true ∧ upperInc = true)) :
    make lower upper lowerInc upperInc = refuse emptyError := by
  have hboth : (lowerInc && upperInc) = false := by
    rw [← Bool.not_eq_true, Bool.and_eq_true]
    exact hinc
  unfold make
  rw [SuccessorDomain.isValid, SuccessorDomain.isValid, LawfulDomain.order_eq,
    compare_eq_iff_eq.mpr h, hboth]
  rfl

lemma make_rising (h : key lower < key upper ∨
      key lower = key upper ∧ lowerInc = true ∧ upperInc = true) :
    make lower upper lowerInc upperInc = canonical lower upper lowerInc upperInc := by
  unfold make
  rw [SuccessorDomain.isValid, SuccessorDomain.isValid, LawfulDomain.order_eq,
    if_pos DiscreteDomain.discrete]
  rcases h with hlt | ⟨heq, rfl, rfl⟩
  · rw [compare_lt_iff_lt.mpr hlt]
    rfl
  · rw [compare_eq_iff_eq.mpr heq]
    rfl

omit [DiscreteDomain α] in
lemma canonical_of_moved
    (hl : (if lowerInc then .ok lower else SpanDomain.successor lower : Result α) = .ok l)
    (hu : (if upperInc then SpanDomain.successor upper else .ok upper : Result α) = .ok u) :
    canonical lower upper lowerInc upperInc =
      if key l < key u then .ok ⟨l, u, true, false⟩ else refuse emptyError := by
  rw [canonical_eq, bind_of_ok hl, bind_of_ok hu, LawfulDomain.order_eq]
  split
  · rename_i hlt
    rw [compare_lt_iff_lt.mpr hlt]
    rfl
  · rename_i hge
    have horder : (compare (key l) (key u) == .lt) = false := by
      rw [← Bool.not_eq_true, beq_iff_eq, compare_lt_iff_lt]
      exact hge
    rw [horder]
    rfl

lemma exists_lower_moved (h : lowerInc = true ∨ key lower < key upper) :
    ∃ l, (if lowerInc then .ok lower else SpanDomain.successor lower : Result α) = .ok l ∧
      key l = key lower + if lowerInc then 0 else 1 := by
  cases lowerInc with
  | true => exact ⟨lower, rfl, (Int.add_zero _).symm⟩
  | false =>
    rcases SuccessorDomain.successor DiscreteDomain.discrete lower with ⟨l, hl, hkey⟩ | ⟨-, hmax⟩
    · exact ⟨l, hl, hkey⟩
    · have hle := hmax upper
      have hlt := h.resolve_left Bool.false_ne_true
      omega

lemma upper_moved_cases (upper : α) (upperInc : Bool) :
    (∃ u, (if upperInc then SpanDomain.successor upper else .ok upper : Result α) = .ok u ∧
        key u = key upper + (if upperInc then 1 else 0) ∧
        ¬(upperInc = true ∧ Greatest upper)) ∨
      (∃ text, SpanDomain.successor upper = refuse (.outOfRange text)) ∧ upperInc = true ∧
        Greatest upper := by
  cases upperInc with
  | false => exact Or.inl ⟨upper, rfl, (Int.add_zero _).symm, by simp⟩
  | true =>
    rcases SuccessorDomain.successor DiscreteDomain.discrete upper with
      ⟨u, hu, hkey⟩ | ⟨⟨cause, hcause⟩, hmax⟩
    · refine Or.inl ⟨u, hu, hkey, fun hgreatest => ?_⟩
      have hle := hgreatest.2 u
      omega
    · obtain ⟨what, hwhat⟩ := DiscreteDomain.refused hcause
      refine Or.inr ⟨⟨what ++ " out of range", hcause.trans ?_⟩, rfl, hmax⟩
      exact congrArg Except.error hwhat

/-- How building a span of a discrete domain ends. -/
lemma new_cases (lower upper : α) (lowerInc upperInc : Bool) :
    (∃ s, new lower upper lowerInc upperInc = .ok s ∧
        (∃ v, Between lower upper lowerInc upperInc v) ∧ ¬(upperInc = true ∧ Greatest upper)) ∨
      (∃ text, new lower upper lowerInc upperInc = .error (.refused (.invalidArgValue text) 1) ∧
        ∀ v, ¬Between lower upper lowerInc upperInc v) ∨
      ∃ text, new lower upper lowerInc upperInc = .error (.refused (.outOfRange text) 1) ∧
        (∃ v, Between lower upper lowerInc upperInc v) ∧ upperInc = true ∧ Greatest upper := by
  unfold new
  by_cases hrising : key lower < key upper ∨
      key lower = key upper ∧ lowerInc = true ∧ upperInc = true
  · rw [make_rising hrising]
    have hlower : lowerInc = true ∨ key lower < key upper :=
      hrising.symm.imp_left fun h => h.2.1
    obtain ⟨l, hl, hlkey⟩ := exists_lower_moved hlower
    rcases upper_moved_cases upper upperInc with ⟨u, hu, hukey, hless⟩ | ⟨⟨text, hu⟩, hinc, hmax⟩
    · rw [canonical_of_moved hl hu]
      by_cases hlt : key l < key u
      · rw [if_pos hlt]
        exact Or.inl ⟨_, rfl, ⟨l, (between_iff_moved hlkey hukey).mpr ⟨le_rfl, hlt⟩⟩, hless⟩
      · rw [if_neg hlt]
        refine Or.inr (Or.inl ⟨_, rfl, fun v hv => hlt ?_⟩)
        obtain ⟨hle, hlt⟩ := (between_iff_moved hlkey hukey).mp hv
        exact lt_of_le_of_lt hle hlt
    · -- nothing comes behind the upper bound, which is itself a value between the bounds
      rw [canonical_eq, bind_of_ok hl, hinc, if_pos rfl, hu]
      refine Or.inr (Or.inr ⟨text, rfl, ⟨upper, ?_, Or.inr ⟨rfl, rfl⟩⟩, rfl, hmax⟩)
      exact hrising.imp_right fun h => ⟨h.2.1, h.1⟩
  · refine Or.inr (Or.inl ?_)
    have hempty : ∀ v, ¬Between lower upper lowerInc upperInc v := fun v hv => hrising hv.rising
    rcases lt_trichotomy (key lower) (key upper) with hlt | heq | hgt
    · exact absurd (Or.inl hlt) hrising
    · rw [make_excluded heq fun hinc => hrising (Or.inr ⟨heq, hinc⟩)]
      exact ⟨_, rfl, hempty⟩
    · obtain ⟨text, hmake⟩ := make_falling lowerInc upperInc hgt
      rw [hmake]
      exact ⟨text, rfl, hempty⟩

/-- Canonicalisation keeps the members. Whatever span is built from bounds has the form
`[lower, upper)`, holds the values between the bounds, and is built again from its own bounds. The
bounds are refused as invalid if there is no value between them, and as out of range if there are
some and the upper bound includes the greatest value of the domain; otherwise a span is built. -/
theorem canonicalisation_keeps_members (lower upper : α) (lowerInc upperInc : Bool) :
    (∀ s, new lower upper lowerInc upperInc = .ok s →
      (s.lowerInc = true ∧ s.upperInc = false ∧ key s.lower < key s.upper) ∧
        (∀ v, s.containsValue v = true ↔ Between lower upper lowerInc upperInc v) ∧
        new s.lower s.upper s.lowerInc s.upperInc = .ok s) ∧
      (RefusedAs (new lower upper lowerInc upperInc) .invalidArgValue ↔
        ¬∃ v, Between lower upper lowerInc upperInc v) ∧
      (RefusedAs (new lower upper lowerInc upperInc) .valueOutOfRange ↔
        (∃ v, Between lower upper lowerInc upperInc v) ∧ upperInc = true ∧ Greatest upper) ∧
      ((∃ s, new lower upper lowerInc upperInc = .ok s) ↔
        (∃ v, Between lower upper lowerInc upperInc v) ∧
          ¬(upperInc = true ∧ Greatest upper)) := by
  refine ⟨fun s hs => ?_, ?_⟩
  · obtain ⟨hvalid, hcontains⟩ := make_spec (reported_eq_ok.mp hs)
    exact ⟨(valid_iff_of_discrete DiscreteDomain.discrete).mp hvalid, hcontains,
      reported_eq_ok.mpr hvalid.make_eq⟩
  · -- the three endings exclude each other, so each of them tells in which case the bounds are
    rcases new_cases lower upper lowerInc upperInc with
      ⟨s, hs, hsome, hless⟩ | ⟨text, hrefused, hnone⟩ | ⟨text, hrefused, hsome, hgreatest⟩
    · rw [hs]
      exact ⟨iff_of_false not_refusedAs_ok (not_not.mpr hsome),
        iff_of_false not_refusedAs_ok fun h => hless h.2, iff_of_true ⟨s, rfl⟩ ⟨hsome, hless⟩⟩
    · have hempty : ¬∃ v, Between lower upper lowerInc upperInc v := not_exists.mpr hnone
      rw [hrefused, refusedAs_error_iff, refusedAs_error_iff]
      exact ⟨iff_of_true rfl hempty, iff_of_false (by simp [Error.code]) fun h => hempty h.1,
        iff_of_false (by simp) fun h => hempty h.1⟩
    · rw [hrefused, refusedAs_error_iff, refusedAs_error_iff]
      exact ⟨iff_of_false (by simp [Error.code]) (not_not.mpr hsome),
        iff_of_true rfl ⟨hsome, hgreatest⟩, iff_of_false (by simp) fun h => h.2 hgreatest⟩

/-- An excluded lower bound moves up and an included upper bound moves behind itself. Between two
neighbours there is nothing, whichever bound comes first, and the greatest value cannot be the last
one of a span. -/
theorem bounds_are_moved_or_refused :
    (∃ s : Span Integer, new (.clamp 3) (.clamp 7) false true = .ok s ∧
        s.containsValue (.clamp 7) = true ∧ ¬s.containsValue (.clamp 3) = true ∧
        new s.lower s.upper s.lowerInc s.upperInc = .ok s) ∧
      RefusedAs (new (.nearest 5 : Date) (.nearest 6) false false) .invalidArgValue ∧
      RefusedAs (new (.clamp (2 ^ 63 - 2) : Bigint) .maximum false true) .valueOutOfRange := by
  obtain ⟨hkept, -, -, hbuilt⟩ :=
    canonicalisation_keeps_members (.clamp 3 : Integer) (.clamp 7) false true
  obtain ⟨s, hs⟩ := hbuilt.mpr ⟨⟨.clamp 7, by decide⟩, fun h => absurd (h.2 (.clamp 8)) (by decide)⟩
  obtain ⟨-, hcontains, hagain⟩ := hkept s hs
  refine ⟨⟨s, hs, (hcontains _).mpr (by decide), (hcontains _).not.mpr (by decide), hagain⟩, ?_, ?_⟩
  · refine (canonicalisation_keeps_members _ _ _ _).2.1.mpr fun ⟨v, hv⟩ => ?_
    have hlower : key (.nearest 5 : Date) = 5 := by decide
    have hupper : key (.nearest 6 : Date) = 6 := by decide
    unfold Between at hv
    simp only [Bool.false_eq_true, false_and, or_false] at hv
    omega
  · refine (canonicalisation_keeps_members _ _ _ _).2.2.1.mpr ⟨⟨.maximum, by decide⟩, rfl, ?_⟩
    exact fun b => Int.le_sub_one_of_lt b.upper

end Span

end TemporalAlgebra
