import Mathlib.Data.List.Chain
import TemporalAlgebra.Proofs.SpanSet.Algebra
import TemporalAlgebra.Proofs.Time.Shifting
import TemporalAlgebra.Proofs.Value.Lawful
import TemporalAlgebra.Temporal.Basic

/-!
# Well-formed temporal values

A temporal value is well-formed if it passes the checks with which every value is built. Its time is
then a period set in normal form that covers the places of its instants and of the periods of its
sequences.
-/
namespace TemporalAlgebra

namespace Timestamp

def place (t : Timestamp) : Int := 3 * t.micros + 1

lemma lt_iff {a b : Timestamp} : a < b ↔ a.place < b.place := by
  change a.micros < b.micros ↔ _
  unfold place
  omega

lemma le_iff {a b : Timestamp} : a ≤ b ↔ a.place ≤ b.place := by
  change a.micros ≤ b.micros ↔ _
  unfold place
  omega

lemma eq_iff {a b : Timestamp} : a = b ↔ a.place = b.place := by
  constructor
  · rintro rfl
    rfl
  · intro h
    refine LawfulDomain.key_injective (α := Timestamp) ?_
    change a.micros = b.micros
    unfold place at h
    omega

lemma beq_iff {a b : Timestamp} : (a == b) = true ↔ a.place = b.place := by
  rw [← eq_iff]
  exact beq_iff_eq

lemma compare_eq (a b : Timestamp) : compare a b = compare a.place b.place := by
  change compare a.micros b.micros = _
  unfold place
  rcases lt_trichotomy a.micros b.micros with h | h | h
  · rw [compare_lt_iff_lt.mpr h, compare_lt_iff_lt.mpr (by omega)]
  · rw [h]
    simp only [compare_eq_iff_eq.mpr]
  · rw [compare_gt_iff_gt.mpr h, compare_gt_iff_gt.mpr (by omega)]

lemma place_emod (t : Timestamp) : t.place % 3 = 1 := by
  unfold place
  omega

end Timestamp

namespace Period

lemma covers_singleton (t : Timestamp) (n : Int) :
    (Period.singleton t).Covers n ↔ n = t.place := by
  change 3 * t.micros + 1 ≤ n ∧ n ≤ 3 * t.micros + 1 ↔ n = 3 * t.micros + 1
  omega

lemma lo_eq (p : Period) : p.lo = p.lower.place + if p.lowerInc then 0 else 1 := by
  rw [Span.lo_eq]
  change 3 * p.lower.micros + (if p.lowerInc = true then 1 else 2) = _
  unfold Timestamp.place
  split <;> omega

lemma hi_eq (p : Period) : p.hi = p.upper.place - if p.upperInc then 0 else 1 := by
  rw [Span.hi_eq]
  change 3 * p.upper.micros + (if p.upperInc = true then 1 else 0) = _
  unfold Timestamp.place
  split <;> omega

lemma valid_iff (p : Period) : p.Valid ↔ p.lo ≤ p.hi :=
  ⟨fun h => h.lo_le_hi, fun h => ⟨h, by intro h; cases h⟩⟩

lemma isInstant_iff {p : Period} : p.isInstant = true ↔ p.lower.place = p.upper.place := by
  unfold Span.isInstant
  rw [LawfulDomain.order_eq, beq_iff_eq, compare_eq_iff_eq]
  change p.lower.micros = p.upper.micros ↔ _
  unfold Timestamp.place
  omega

/-- A period at one timestamp has only its place. -/
lemma ends_of_isInstant {p : Period} (hp : p.lo ≤ p.hi) (h : p.isInstant = true) :
    p.lo = p.lower.place ∧ p.hi = p.lower.place := by
  have heq := isInstant_iff.mp h
  have hlo := lo_eq p
  have hhi := hi_eq p
  split at hlo <;> split at hhi <;> omega

lemma lower_lt_upper {p : Period} (hp : p.lo ≤ p.hi) (h : ¬p.isInstant = true) :
    p.lower.place < p.upper.place := by
  have hne : p.lower.place ≠ p.upper.place := fun heq => h (isInstant_iff.mpr heq)
  have hlo := lo_eq p
  have hhi := hi_eq p
  have := p.lower.place_emod
  have := p.upper.place_emod
  split at hlo <;> split at hhi <;> omega

/-- A period can be built from bounds that enclose a place. -/
lemma make_eq_ok_iff {lower upper : Timestamp} {lowerInc upperInc : Bool} {p : Period} :
    Span.make lower upper lowerInc upperInc = .ok p ↔
      p = ⟨lower, upper, lowerInc, upperInc⟩ ∧ p.Valid := by
  have hmake : Span.make lower upper lowerInc upperInc = (do
      require (compare lower.micros upper.micros != .gt)
        (.invalidArgValue ("Span lower bound " ++ SpanDomain.debug lower ++
          " must be less than or equal to the upper bound " ++ SpanDomain.debug upper))
      require (compare lower.micros upper.micros == .lt || (lowerInc && upperInc)) Span.emptyError
      return ⟨lower, upper, lowerInc, upperInc⟩) := rfl
  rw [hmake]
  simp only [check_bind_eq_ok, pure_eq_ok, require_eq_ok, bne_iff_ne, ne_eq, compare_gt_iff_gt,
    Bool.or_eq_true, Bool.and_eq_true, beq_iff_eq, compare_lt_iff_lt, valid_iff]
  have hvalid : (⟨lower, upper, lowerInc, upperInc⟩ : Period).lo ≤
      (⟨lower, upper, lowerInc, upperInc⟩ : Period).hi ↔
        ¬upper.micros < lower.micros ∧
          (lower.micros < upper.micros ∨ lowerInc = true ∧ upperInc = true) := by
    rw [lo_eq, hi_eq]
    unfold Timestamp.place
    cases lowerInc <;> cases upperInc <;> simp <;> omega
  constructor
  · rintro ⟨h1, h2, rfl⟩
    exact ⟨rfl, hvalid.mpr ⟨h1, h2⟩⟩
  · rintro ⟨rfl, h⟩
    obtain ⟨h1, h2⟩ := hvalid.mp h
    exact ⟨h1, h2, rfl⟩

lemma make?_eq_some_iff {lower upper : Timestamp} {lowerInc upperInc : Bool} {p : Period} :
    Span.make? lower upper lowerInc upperInc = some p ↔
      p = ⟨lower, upper, lowerInc, upperInc⟩ ∧ p.Valid := by
  rw [← make_eq_ok_iff]
  unfold Span.make?
  cases Span.make lower upper lowerInc upperInc <;> simp [Except.toOption]

end Period

/-- One instant is earlier than another and their values go together. -/
def Instant.Precedes {V : Type} [TemporalValue V] (a b : Instant V) : Prop :=
  a.time.place < b.time.place ∧ TemporalValue.compatible a.value b.value = .ok ()

instance {V : Type} [TemporalValue V] [LawfulValue V] :
    Trans (Instant.Precedes (V := V)) Instant.Precedes Instant.Precedes where
  trans h h' := ⟨h.1.trans h'.1, LawfulValue.compatible_trans h.2 h'.2⟩

namespace Sequence

variable {V : Type} [TemporalValue V]

/-- What the check of a run of instants asks for. -/
structure Checked (first : Instant V) (rest : List (Instant V)) (lowerInc upperInc : Bool)
    (interp : Interpolation) : Prop where
  linear : interp = .linear → TemporalValue.continuous V = true
  rising : (first :: rest).Pairwise Instant.Precedes
  closed : rest = [] ∨ interp = .discrete → lowerInc = true ∧ upperInc = true
  repeated : interp = .step → upperInc = false → endsRepeated first rest = true

/-- A sequence that passes the check of sequences. -/
def WellFormed (s : Sequence V) : Prop :=
  check s.first s.rest s.lowerInc s.upperInc s.interp = .ok ()

/-- Whether the middle one of three instants is told to add nothing. -/
def drops (interp : Interpolation) (a m b : Instant V) : Bool :=
  match redundant interp a m b with
  | .ok found => found
  | .error _ => false

/-- The instants after `a` that stay when those that add nothing are left out. -/
def kept (interp : Interpolation) (a : Instant V) : List (Instant V) → List (Instant V)
  | [] => []
  | [m] => [m]
  | m :: b :: rest =>
    if drops interp a m b then kept interp a (b :: rest) else m :: kept interp m (b :: rest)

/-- A run that is interpolated is short if the microseconds from its first to its last instant fit
in 64 bits. -/
def ShortRun (interp : Interpolation) (first : Instant V) (rest : List (Instant V)) : Prop :=
  interp = .linear → (rest.getLastD first).time.micros - first.time.micros < 2 ^ 63

lemma eq_kept_of_normalize {interp : Interpolation} {a : Instant V} {rest found : List (Instant V)}
    (h : normalize interp a rest = .ok found) : found = kept interp a rest := by
  fun_induction normalize interp a rest generalizing found with
  | case1 => exact (pure_eq_ok.mp h).symm
  | case2 => exact (pure_eq_ok.mp h).symm
  | case3 a m b rest ihdrop ihkeep =>
    obtain ⟨dropped, hdropped, h⟩ := bind_eq_ok.mp h
    have hdrops : drops interp a m b = dropped := by
      unfold drops
      rw [hdropped]
    rw [kept, hdrops]
    cases dropped with
    | true => exact ihdrop h
    | false =>
      obtain ⟨more, hmore, h⟩ := bind_eq_ok.mp h
      rw [← pure_eq_ok.mp h, ihkeep hmore]
      rfl

lemma completes_redundant {interp : Interpolation} {a m b : Instant V}
    (hm : a.time.place < m.time.place) (hb : m.time.place < b.time.place)
    (h : interp = .linear → Timestamp.Fits (b.time.micros - a.time.micros)) :
    Completes (redundant interp a m b) := by
  cases interp with
  | discrete => exact Completes.ok _
  | step => exact Completes.ok _
  | linear =>
    have hratio := Timestamp.ratio_of_mem (Timestamp.le_iff.mpr hm.le) (Timestamp.le_iff.mpr hb.le)
      (h rfl)
    unfold redundant
    rw [hratio]
    exact Completes.ok _

lemma place_le_last {a : Instant V} {rest : List (Instant V)}
    (h : (a :: rest).Pairwise Instant.Precedes) :
    ∀ i ∈ a :: rest, i.time.place ≤ (rest.getLastD a).time.place := by
  induction rest generalizing a with
  | nil =>
    intro i hi
    obtain rfl := List.mem_singleton.mp hi
    exact le_refl _
  | cons b rest ih =>
    intro i hi
    rw [List.getLastD_cons]
    have hb := ih h.tail b (by simp)
    rcases List.mem_cons.mp hi with rfl | hi
    · exact ((List.pairwise_cons.mp h).1 b (by simp)).1.le.trans hb
    · exact ih h.tail i hi

/-- The instants of a short run that add nothing are told to the end. -/
lemma completes_normalize {interp : Interpolation} {a : Instant V} {rest : List (Instant V)}
    (hrising : (a :: rest).Pairwise Instant.Precedes) (h : ShortRun interp a rest) :
    Completes (normalize interp a rest) := by
  fun_induction normalize interp a rest with
  | case1 => exact Completes.ok _
  | case2 => exact Completes.ok _
  | case3 a m b rest ihdrop ihkeep =>
    obtain ⟨ha, hmrising⟩ := List.pairwise_cons.mp hrising
    have ham := (ha m (by simp)).1
    have hmb := (List.rel_of_pairwise_cons hmrising (show b ∈ b :: rest by simp)).1
    have hlast := place_le_last hmrising.tail b (by simp)
    unfold Timestamp.place at ham hmb hlast
    refine (completes_redundant (by unfold Timestamp.place; omega) (by unfold Timestamp.place; omega)
      fun hlin => ?_).bind fun dropped _ => ?_
    · have hshort := h hlin
      simp only [List.getLastD_cons] at hshort
      unfold Timestamp.Fits
      omega
    · cases dropped with
      | true =>
        refine ihdrop (hrising.sublist (by simp)) fun hlin => ?_
        simpa only [List.getLastD_cons] using h hlin
      | false =>
        refine (ihkeep hmrising fun hlin => ?_).bind fun _ _ => Completes.ok _
        have hshort := h hlin
        simp only [List.getLastD_cons] at hshort ⊢
        omega

lemma unrefused_redundant (interp : Interpolation) (a m b : Instant V) :
    Unrefused (redundant interp a m b) := by
  cases interp with
  | discrete => exact Unrefused.ok _
  | step => exact Unrefused.ok _
  | linear => exact (Timestamp.unrefused_ratio _ _ _).bind fun _ _ => Unrefused.ok _

lemma unrefused_normalize (interp : Interpolation) (a : Instant V) (rest : List (Instant V)) :
    Unrefused (normalize interp a rest) := by
  fun_induction normalize interp a rest with
  | case1 => exact Unrefused.ok _
  | case2 => exact Unrefused.ok _
  | case3 a m b rest ihdrop ihkeep =>
    refine (unrefused_redundant interp a m b).bind fun dropped _ => ?_
    cases dropped with
    | true => exact ihdrop
    | false => exact ihkeep.bind fun _ _ => Unrefused.ok _

/-- Leaving out the instants that add nothing ends with the ones that stay or is given up. -/
lemma normalize_eq_ok_iff {interp : Interpolation} {a : Instant V} {rest : List (Instant V)} :
    normalize interp a rest = .ok (kept interp a rest) ↔ Completes (normalize interp a rest) := by
  constructor
  · intro h
    rw [h]
    exact Completes.ok _
  · intro h
    obtain ⟨found, hfound⟩ := (unrefused_normalize interp a rest).exists_ok h
    rw [hfound, eq_kept_of_normalize hfound]

lemma endsRepeated_concat (a : Instant V) (xs : List (Instant V)) (z : Instant V) :
    endsRepeated a (xs ++ [z]) = (z.value == (xs.getLastD a).value) := by
  induction xs generalizing a with
  | nil => rfl
  | cons x xs ih =>
    obtain ⟨y, ys, hy⟩ : ∃ y ys, xs ++ [z] = y :: ys := List.exists_cons_of_ne_nil (by simp)
    rw [List.cons_append, hy, endsRepeated, ← hy, ih, List.getLastD_cons]

section

variable [LawfulValue V]

lemma checkRising_eq_ok_iff {a : Instant V} {rest : List (Instant V)} :
    checkRising a rest = .ok () ↔ (a :: rest).Pairwise Instant.Precedes := by
  rw [← List.isChain_iff_pairwise]
  induction rest generalizing a with
  | nil => simp [checkRising]
  | cons b rest ih =>
    rw [checkRising, List.isChain_cons_cons, ← ih]
    simp only [check_bind_eq_ok, require_eq_ok, decide_eq_true_eq, Timestamp.lt_iff,
      Instant.Precedes, and_assoc]

lemma check_eq_ok_iff {first : Instant V} {rest : List (Instant V)} {lowerInc upperInc : Bool}
    {interp : Interpolation} : check first rest lowerInc upperInc interp = .ok () ↔
      Checked first rest lowerInc upperInc interp := by
  unfold check
  simp only [check_bind_eq_ok, require_eq_ok, checkRising_eq_ok_iff]
  constructor
  · rintro ⟨h1, h2, h3, h4⟩
    refine ⟨fun h => ?_, h2, fun h => ?_, fun h h' => ?_⟩
    · simpa [h] using h1
    · rcases h with h | h <;> simpa [h] using h3
    · simpa [h, h'] using h4
  · rintro ⟨h1, h2, h3, h4⟩
    refine ⟨?_, h2, ?_, ?_⟩
    · by_cases h : interp = .linear
      · simp [h1 h]
      · simp [h]
    · by_cases h : rest = [] ∨ interp = .discrete
      · simp [h3 h]
      · rw [not_or] at h
        simp [h]
    · by_cases h : interp = .step
      · cases hu : upperInc with
        | true => simp
        | false => simp [h4 h hu]
      · simp [h]

lemma makeRun_eq_ok_iff {first : Instant V} {rest : List (Instant V)} {lowerInc upperInc : Bool}
    {interp : Interpolation} {normalizing : Bool} {s : Sequence V} :
    makeRun first rest lowerInc upperInc interp normalizing = .ok s ↔
      Checked first rest lowerInc upperInc interp ∧
        (normalizing = true → Completes (normalize interp first rest)) ∧
        ofRun first (if normalizing then kept interp first rest else rest) lowerInc upperInc
          interp = s := by
  unfold makeRun
  rw [check_bind_eq_ok, check_eq_ok_iff]
  cases normalizing with
  | false => simp
  | true =>
    simp only [if_true, bind_eq_ok, pure_eq_ok, true_imp_iff, ← normalize_eq_ok_iff]
    refine and_congr_right fun _ => ⟨?_, fun h => ⟨_, h⟩⟩
    rintro ⟨found, hfound, h⟩
    rw [← eq_kept_of_normalize hfound]
    exact ⟨hfound, h⟩

lemma wellFormed_iff {s : Sequence V} :
    s.WellFormed ↔ Checked s.first s.rest s.lowerInc s.upperInc s.interp := check_eq_ok_iff

lemma wellFormed_ofInstant (i : Instant V) {interp : Interpolation}
    (h : interp = .linear → TemporalValue.continuous V = true) : (ofInstant i interp).WellFormed :=
  wellFormed_iff.mpr ⟨h, by simp [ofInstant], fun _ => ⟨rfl, rfl⟩, fun _ _ => rfl⟩

lemma WellFormed.rising {s : Sequence V} (h : s.WellFormed) :
    s.instants.Pairwise Instant.Precedes := (wellFormed_iff.mp h).rising

lemma WellFormed.compatible_first {s : Sequence V} (h : s.WellFormed) {i : Instant V}
    (hi : i ∈ s.instants) : TemporalValue.compatible s.first.value i.value = .ok () := by
  rcases List.mem_cons.mp hi with rfl | hi
  · exact LawfulValue.compatible_self _
  · exact (List.rel_of_pairwise_cons h.rising hi).2

end

def lo (s : Sequence V) : Int := s.period.lo

def hi (s : Sequence V) : Int := s.period.hi

lemma lo_eq (s : Sequence V) : s.lo = s.first.time.place + if s.lowerInc then 0 else 1 :=
  Period.lo_eq s.period

lemma hi_eq (s : Sequence V) : s.hi = s.last.time.place - if s.upperInc then 0 else 1 :=
  Period.hi_eq s.period

lemma last_mem (s : Sequence V) : s.last ∈ s.instants := List.getLastD_mem_cons

lemma last_eq_first {s : Sequence V} (h : s.rest = []) : s.last = s.first := by
  unfold last
  rw [h]
  rfl

lemma last_concat {s : Sequence V} {xs : List (Instant V)} {z : Instant V}
    (h : s.rest = xs ++ [z]) : s.last = z := by
  unfold last
  rw [h, List.getLastD_concat]

lemma exists_rest_eq_concat {s : Sequence V} (h : s.rest ≠ []) :
    ∃ xs, s.rest = xs ++ [s.last] := by
  obtain ⟨xs, z, hxs⟩ := (List.eq_nil_or_concat' s.rest).resolve_left h
  rw [last_concat hxs]
  exact ⟨xs, hxs⟩

lemma first_le {a : Instant V} {rest : List (Instant V)}
    (h : (a :: rest).Pairwise Instant.Precedes) {i : Instant V} (hi : i ∈ a :: rest) :
    a.time.place ≤ i.time.place := by
  rcases List.mem_cons.mp hi with rfl | hi
  · exact le_refl _
  · exact (List.rel_of_pairwise_cons h hi).1.le

/-- Whether a sequence is defined at a place: at an instant of a discrete one, otherwise in its
period. -/
def Covers (s : Sequence V) (n : Int) : Prop :=
  if s.isDiscrete then ∃ i ∈ s.instants, i.time.place = n else s.lo ≤ n ∧ n ≤ s.hi

lemma covers_of_discrete {s : Sequence V} (h : s.isDiscrete = true) (n : Int) :
    s.Covers n ↔ ∃ i ∈ s.instants, i.time.place = n := by
  unfold Covers
  rw [if_pos h]

lemma covers_of_continuous {s : Sequence V} (h : s.isDiscrete = false) (n : Int) :
    s.Covers n ↔ s.lo ≤ n ∧ n ≤ s.hi := by
  unfold Covers
  rw [if_neg (by rw [h]; exact Bool.false_ne_true)]

lemma covers_ofInstant (i : Instant V) (interp : Interpolation) (n : Int) :
    (ofInstant i interp).Covers n ↔ n = i.time.place := by
  cases hd : (ofInstant i interp).isDiscrete with
  | true =>
    rw [covers_of_discrete hd]
    simp [ofInstant, instants, eq_comm]
  | false =>
    rw [covers_of_continuous hd, lo_eq, hi_eq]
    simp only [ofInstant, last, List.getLastD_nil, if_true]
    omega

lemma isDiscrete_iff {s : Sequence V} : s.isDiscrete = true ↔ s.interp = .discrete := by
  unfold isDiscrete
  exact beq_iff_eq

lemma isDiscrete_eq_false_iff {s : Sequence V} : s.isDiscrete = false ↔ s.interp ≠ .discrete := by
  rw [ne_eq, ← isDiscrete_iff, Bool.not_eq_true]

section

variable [LawfulValue V]

lemma WellFormed.rest_ne_nil {s : Sequence V} (h : s.WellFormed) (hu : s.upperInc = false) :
    s.rest ≠ [] := by
  intro hn
  rw [((wellFormed_iff.mp h).closed (Or.inl hn)).2] at hu
  exact Bool.true_eq_false.mp hu

lemma WellFormed.ends_of_rest_eq_nil {s : Sequence V} (h : s.WellFormed) (hn : s.rest = []) :
    s.lo = s.first.time.place ∧ s.hi = s.first.time.place := by
  obtain ⟨hl, hu⟩ := (wellFormed_iff.mp h).closed (Or.inl hn)
  rw [lo_eq, hi_eq, hl, hu, last_eq_first hn]
  simp

lemma WellFormed.first_lt_last {s : Sequence V} (h : s.WellFormed) (hn : s.rest ≠ []) :
    s.first.time.place < s.last.time.place := by
  obtain ⟨xs, hxs⟩ := exists_rest_eq_concat hn
  exact (List.rel_of_pairwise_cons h.rising (hxs ▸ List.mem_concat_self)).1

lemma WellFormed.lo_le_hi {s : Sequence V} (h : s.WellFormed) : s.lo ≤ s.hi := by
  by_cases hn : s.rest = []
  · obtain ⟨hlo, hhi⟩ := h.ends_of_rest_eq_nil hn
    rw [hlo, hhi]
  · have := h.first_lt_last hn
    have := s.first.time.place_emod
    have := s.last.time.place_emod
    rw [lo_eq, hi_eq]
    split <;> split <;> omega

lemma WellFormed.period_valid {s : Sequence V} (h : s.WellFormed) : s.period.Valid :=
  (Period.valid_iff _).mpr h.lo_le_hi

lemma WellFormed.mem_period {s : Sequence V} (h : s.WellFormed) {n : Int} (hn : s.Covers n) :
    s.lo ≤ n ∧ n ≤ s.hi := by
  cases hd : s.isDiscrete with
  | false => exact (covers_of_continuous hd n).mp hn
  | true =>
    obtain ⟨i, hi, rfl⟩ := (covers_of_discrete hd n).mp hn
    have hc := wellFormed_iff.mp h
    obtain ⟨h1, h2⟩ := hc.closed (Or.inr (isDiscrete_iff.mp hd))
    have := first_le hc.rising hi
    have := place_le_last hc.rising i hi
    rw [lo_eq, hi_eq, h1, h2]
    unfold last
    simp only [if_true]
    omega

lemma WellFormed.covers_lo {s : Sequence V} (h : s.WellFormed) : s.Covers s.lo := by
  cases hd : s.isDiscrete with
  | false => exact (covers_of_continuous hd _).mpr ⟨le_refl _, h.lo_le_hi⟩
  | true =>
    obtain ⟨h1, -⟩ := (wellFormed_iff.mp h).closed (Or.inr (isDiscrete_iff.mp hd))
    exact (covers_of_discrete hd _).mpr ⟨s.first, by simp [instants], by simp [lo_eq, h1]⟩

lemma WellFormed.covers_hi {s : Sequence V} (h : s.WellFormed) : s.Covers s.hi := by
  cases hd : s.isDiscrete with
  | false => exact (covers_of_continuous hd _).mpr ⟨h.lo_le_hi, le_refl _⟩
  | true =>
    obtain ⟨-, h2⟩ := (wellFormed_iff.mp h).closed (Or.inr (isDiscrete_iff.mp hd))
    exact (covers_of_discrete hd _).mpr ⟨s.last, s.last_mem, by simp [hi_eq, h2]⟩

end

def Before (a b : Sequence V) : Prop := a.hi < b.lo

/-- Continuous sequences of one interpolation that follow each other in time. -/
structure Train (interp : Interpolation) (pieces : List (Sequence V)) : Prop where
  wellFormed : ∀ s ∈ pieces, s.WellFormed
  interp_eq : ∀ s ∈ pieces, s.interp = interp
  continuous : interp ≠ .discrete
  rising : pieces.Pairwise Before

lemma Train.tail {interp : Interpolation} {s : Sequence V} {rest : List (Sequence V)}
    (h : Train interp (s :: rest)) : Train interp rest :=
  ⟨fun x hx => h.wellFormed x (by simp [hx]), fun x hx => h.interp_eq x (by simp [hx]),
    h.continuous, h.rising.tail⟩

lemma Train.map {interp interp' : Interpolation} {pieces : List (Sequence V)}
    (h : Train interp pieces) (hne : interp' ≠ .discrete) {change : Sequence V → Sequence V}
    (hwf : ∀ s ∈ pieces, (change s).WellFormed) (hinterp : ∀ s ∈ pieces, (change s).interp = interp')
    (hlo : ∀ s ∈ pieces, (change s).lo = s.lo) (hhi : ∀ s ∈ pieces, (change s).hi = s.hi) :
    Train interp' (pieces.map change) := by
  refine ⟨List.forall_mem_map.mpr hwf, List.forall_mem_map.mpr hinterp, hne,
    List.pairwise_map.mpr (h.rising.imp_of_mem fun {a b} ha hb hab => ?_)⟩
  unfold Before at hab ⊢
  rw [hhi a ha, hlo b hb]
  exact hab

lemma Train.isDiscrete {interp : Interpolation} {pieces : List (Sequence V)}
    (h : Train interp pieces) {s : Sequence V} (hs : s ∈ pieces) : s.isDiscrete = false := by
  rw [isDiscrete_eq_false_iff, h.interp_eq s hs]
  exact h.continuous

lemma within_ends (s : Sequence V) : s.first.time.place ≤ s.lo ∧ s.hi ≤ s.last.time.place := by
  rw [lo_eq, hi_eq]
  split <;> split <;> omega

/-- Sequences are confined if, where they are interpolated, they lie between two timestamps from one
to the other of which the microseconds fit in 64 bits. -/
def Confined (pieces : List (Sequence V)) : Prop :=
  (∃ s ∈ pieces, s.interp = .linear) → ∃ lower upper : Timestamp,
    upper.micros - lower.micros < 2 ^ 63 ∧ ∀ s ∈ pieces, lower.place ≤ s.lo ∧ s.hi ≤ upper.place

/-- Sequences are confined if they start and end within others that are. -/
lemma Confined.of_within {pieces found : List (Sequence V)} (h : Confined pieces)
    (hinterp : ∀ s ∈ found, ∃ a ∈ pieces, s.interp = a.interp)
    (hwithin : ∀ s ∈ found, (∃ a ∈ pieces, a.lo ≤ s.lo) ∧ ∃ b ∈ pieces, s.hi ≤ b.hi) :
    Confined found := by
  rintro ⟨x, hx, hlin⟩
  obtain ⟨y, hy, hxy⟩ := hinterp x hx
  obtain ⟨lower, upper, hfits, hall⟩ := h ⟨y, hy, hxy.symm.trans hlin⟩
  refine ⟨lower, upper, hfits, fun s hs => ?_⟩
  obtain ⟨⟨a, ha, hlo⟩, b, hb, hhi⟩ := hwithin s hs
  exact ⟨(hall a ha).1.trans hlo, hhi.trans (hall b hb).2⟩

lemma Confined.subset {pieces found : List (Sequence V)} (h : Confined pieces)
    (hsub : ∀ s ∈ found, s ∈ pieces) : Confined found :=
  h.of_within (fun s hs => ⟨s, hsub s hs, rfl⟩) fun s hs =>
    ⟨⟨s, hsub s hs, le_rfl⟩, s, hsub s hs, le_rfl⟩

lemma confined_of_ne_linear {pieces : List (Sequence V)} (h : ∀ s ∈ pieces, s.interp ≠ .linear) :
    Confined pieces := fun ⟨s, hs, hlin⟩ => absurd hlin (h s hs)

/-- A run from the start of a confined sequence to the end of another one is short. -/
lemma Confined.shortRun {pieces : List (Sequence V)} (h : Confined pieces) {a b : Sequence V}
    (ha : a ∈ pieces) (hb : b ∈ pieces) {rest : List (Instant V)}
    (hlast : (rest.getLastD a.first).time.place = b.last.time.place) :
    ShortRun a.interp a.first rest := by
  intro hlin
  obtain ⟨lower, upper, hfits, hall⟩ := h ⟨a, ha, hlin⟩
  have hlower := (hall a ha).1
  have hupper := (hall b hb).2
  rw [lo_eq] at hlower
  rw [hi_eq, ← hlast] at hupper
  unfold Timestamp.place at hlower hupper
  split at hlower <;> split at hupper <;> omega

lemma Confined.shortRun_self {pieces : List (Sequence V)} (h : Confined pieces) {s : Sequence V}
    (hs : s ∈ pieces) : ShortRun s.interp s.first s.rest := h.shortRun hs hs rfl

lemma Train.covers_iff {interp : Interpolation} {pieces : List (Sequence V)}
    (h : Train interp pieces) {s : Sequence V} (hs : s ∈ pieces) (n : Int) :
    s.Covers n ↔ s.lo ≤ n ∧ n ≤ s.hi := covers_of_continuous (h.isDiscrete hs) n

end Sequence

namespace SequenceSet

variable {V : Type} [TemporalValue V]

lemma sequences_eq_concat (s : SequenceSet V) :
    s.sequences = s.sequences.dropLast ++ [s.last] := by
  have hne : s.sequences ≠ [] := List.cons_ne_nil _ _
  have hlast : s.last = s.sequences.getLast hne := (List.getLast_eq_getLastD hne).symm
  rw [hlast, List.dropLast_concat_getLast]

/-- A set that passes the checks of sets, of sequences that pass theirs. -/
structure WellFormed (s : SequenceSet V) : Prop where
  sequences : ∀ x ∈ s.sequences, x.WellFormed
  kinds : checkKinds s.interp s.sequences = .ok ()
  rising : checkRising s.first s.rest = .ok ()

lemma checkKinds_eq_ok_iff {interp : Interpolation} {pieces : List (Sequence V)} :
    checkKinds interp pieces = .ok () ↔
      ∀ s ∈ pieces, s.interp = interp ∧ s.isDiscrete = false := by
  induction pieces with
  | nil => simp [checkKinds]
  | cons s rest ih =>
    rw [checkKinds]
    simp only [check_bind_eq_ok, require_eq_ok, ih, Bool.not_eq_true', beq_iff_eq,
      List.forall_mem_cons]
    tauto

lemma make_cons_eq_ok_iff {first : Sequence V} {rest : List (Sequence V)} {normalizing : Bool}
    {set : SequenceSet V} : make (first :: rest) normalizing = .ok set ↔
      checkKinds first.interp (first :: rest) = .ok () ∧ checkRising first rest = .ok () ∧
        ∃ found, (if normalizing then join first rest else .ok (first, rest)) = .ok found ∧
          ofRun found.1 found.2 = set := by
  unfold make
  rw [check_bind_eq_ok, check_bind_eq_ok]
  cases normalizing with
  | false => simp
  | true => simp only [if_true, bind_eq_ok, pure_eq_ok]

lemma exists_cons_of_make {pieces : List (Sequence V)} {normalizing : Bool} {set : SequenceSet V}
    (h : make pieces normalizing = .ok set) : ∃ first rest, pieces = first :: rest := by
  cases pieces with
  | nil => simp [make] at h
  | cons first rest => exact ⟨first, rest, rfl⟩

/-- Two sequences that can be joined are joined to one, which those after them are joined to. -/
lemma join_eq_ok_of_joined {a b : Sequence V} {rest : List (Sequence V)} {start : Instant V}
    {run : List (Instant V)} {found : Sequence V × List (Sequence V)}
    (h : joined a b = some (start, run)) : join a (b :: rest) = .ok found ↔
      Completes (Sequence.normalize a.interp start run) ∧
        ∃ s, Sequence.makeRun start (Sequence.kept a.interp start run) a.lowerInc b.upperInc
          a.interp false = .ok s ∧ join s rest = .ok found := by
  rw [join, h, ← Sequence.normalize_eq_ok_iff]
  simp only [bind_eq_ok]
  constructor
  · rintro ⟨stay, hstay, s, hs, hfound⟩
    rw [← Sequence.eq_kept_of_normalize hstay]
    exact ⟨hstay, s, hs, hfound⟩
  · rintro ⟨hstay, s, hs, hfound⟩
    exact ⟨_, hstay, s, hs, hfound⟩

/-- A sequence that cannot be joined to the next one is kept in front of what comes out of the
others. -/
lemma join_eq_ok_of_not_joined {a b : Sequence V} {rest : List (Sequence V)}
    {found : Sequence V × List (Sequence V)} (h : joined a b = none) :
    join a (b :: rest) = .ok found ↔
      ∃ next more, join b rest = .ok (next, more) ∧ (a, next :: more) = found := by
  rw [join, h]
  simp only [bind_eq_ok, pure_eq_ok, Prod.exists]

/-- Whether one sequence may follow another one: it starts later and its first value goes together
with the last one of the other. -/
def Follows (a b : Sequence V) : Prop :=
  a.Before b ∧ TemporalValue.compatible a.last.value b.first.value = .ok ()

lemma checkRising_eq_ok_iff {a : Sequence V} {rest : List (Sequence V)} :
    checkRising a rest = .ok () ↔ (a :: rest).IsChain Follows := by
  induction rest generalizing a with
  | nil => simp [checkRising]
  | cons b rest ih =>
    rw [checkRising, List.isChain_cons_cons, ← ih]
    have hbefore : (decide (a.last.time < b.first.time) ||
        a.last.time == b.first.time && !(a.upperInc && b.lowerInc)) = true ↔ a.Before b := by
      have := a.last.time.place_emod
      have := b.first.time.place_emod
      rw [Bool.or_eq_true, Bool.and_eq_true, decide_eq_true_eq, Timestamp.lt_iff,
        Timestamp.beq_iff]
      unfold Sequence.Before
      rw [Sequence.hi_eq, Sequence.lo_eq]
      cases a.upperInc <;> cases b.lowerInc <;> simp <;> omega
    simp only [check_bind_eq_ok, require_eq_ok, hbefore, Follows, and_assoc]

section

variable [LawfulValue V]

/-- Well-formed sequences each of which follows the one before it rise, and all their values go
together with the first one. -/
lemma rising_of_isChain {a : Sequence V} {rest : List (Sequence V)}
    (hwf : ∀ s ∈ a :: rest, s.WellFormed) (h : (a :: rest).IsChain Follows) :
    (a :: rest).Pairwise Sequence.Before ∧ ∀ s ∈ a :: rest, ∀ i ∈ s.instants,
      TemporalValue.compatible a.first.value i.value = .ok () := by
  induction rest generalizing a with
  | nil =>
    refine ⟨by simp, fun s hs i hi => ?_⟩
    obtain rfl := List.mem_singleton.mp hs
    exact (hwf s (by simp)).compatible_first hi
  | cons b rest ih =>
    rw [List.isChain_cons_cons] at h
    obtain ⟨⟨hbefore, hcomp⟩, hchain⟩ := h
    obtain ⟨hpair, hall⟩ := ih (fun s hs => hwf s (by simp [hs])) hchain
    have ha := hwf a (by simp)
    refine ⟨List.pairwise_cons.mpr ⟨fun s hs => ?_, hpair⟩, fun s hs i hi => ?_⟩
    · rcases List.mem_cons.mp hs with rfl | hs
      · exact hbefore
      · have := List.rel_of_pairwise_cons hpair hs
        have := (hwf b (by simp)).lo_le_hi
        unfold Sequence.Before at *
        omega
    · rcases List.mem_cons.mp hs with rfl | hs
      · exact ha.compatible_first hi
      · exact LawfulValue.compatible_trans
          (LawfulValue.compatible_trans (ha.compatible_first a.last_mem) hcomp) (hall s hs i hi)

lemma WellFormed.isTrain {s : SequenceSet V} (h : s.WellFormed) :
    Sequence.Train s.interp s.sequences := by
  have hkinds := checkKinds_eq_ok_iff.mp h.kinds
  refine ⟨h.sequences, fun x hx => (hkinds x hx).1, ?_,
    (rising_of_isChain h.sequences (checkRising_eq_ok_iff.mp h.rising)).1⟩
  exact Sequence.isDiscrete_eq_false_iff.mp (hkinds s.first (List.mem_cons_self ..)).2

end

end SequenceSet

namespace Temporal

variable {V : Type} [TemporalValue V]

/-- A value that passes the checks with which values are built. -/
def WellFormed : Temporal V → Prop
  | instant _ => True
  | sequence s => s.WellFormed
  | sequenceSet s => s.WellFormed

lemma wellFormed_instant (i : Instant V) : (instant i).WellFormed := trivial

def Covers (v : Temporal V) (n : Int) : Prop := ∃ s ∈ v.sequences, s.Covers n

/-- The value is equal to itself at every instant: none of them is a NaN. -/
def Proper (v : Temporal V) : Prop := ∀ i ∈ v.instants, (i.value == i.value) = true

lemma mem_instants_iff {v : Temporal V} {i : Instant V} :
    i ∈ v.instants ↔ ∃ s ∈ v.sequences, i ∈ s.instants := by
  cases v with
  | instant j => simp [instants, sequences, Sequence.instants, Sequence.ofInstant]
  | sequence s => simp [instants, sequences]
  | sequenceSet s => simp [instants, sequences]

lemma firstInstant_mem (v : Temporal V) : v.firstInstant ∈ v.instants := by
  cases v with
  | instant i => exact List.mem_singleton.mpr rfl
  | sequence s => exact List.mem_cons_self ..
  | sequenceSet s => exact List.mem_append_left _ (List.mem_cons_self ..)

lemma lastInstant_mem (v : Temporal V) : v.lastInstant ∈ v.instants := by
  cases v with
  | instant i => exact List.mem_singleton.mpr rfl
  | sequence s => exact s.last_mem
  | sequenceSet s =>
    have hlast : s.rest.getLastD s.first ∈ s.sequences := List.getLastD_mem_cons
    exact List.mem_flatMap.mpr ⟨_, hlast, Sequence.last_mem _⟩

lemma exists_mem_sequences (v : Temporal V) : ∃ s, s ∈ v.sequences := by
  cases v with
  | instant i => exact ⟨_, List.mem_singleton.mpr rfl⟩
  | sequence s => exact ⟨s, List.mem_singleton.mpr rfl⟩
  | sequenceSet s => exact ⟨s.first, List.mem_cons_self ..⟩

/-- A value that is interpolated is short if the microseconds from its first to its last instant fit
in 64 bits. -/
def Short (v : Temporal V) : Prop :=
  v.interp = .linear → v.lastInstant.time.micros - v.firstInstant.time.micros < 2 ^ 63

/-- Points in time that rise are in normal form. -/
lemma pointPeriods_spec {first : Timestamp} {rest : List Timestamp}
    (h : (first :: rest).Pairwise fun a b => a.place < b.place) :
    (pointPeriods first rest).WellFormed ∧
      ∀ n, (pointPeriods first rest).Covers n ↔ ∃ t ∈ first :: rest, t.place = n := by
  have hspans : (pointPeriods first rest).spans = (first :: rest).map Period.singleton := rfl
  constructor
  · refine SpanSet.wellFormed_ofOrdered ⟨?_, ?_⟩
    · intro p hp
      rw [← List.map_cons] at hp
      obtain ⟨t, -, rfl⟩ := List.mem_map.mp hp
      exact Period.singleton_valid t
    · rw [← List.map_cons, List.pairwise_map]
      refine h.imp fun {a b} hab => ?_
      change a.place + 1 < b.place
      have := a.place_emod
      have := b.place_emod
      omega
  · intro n
    unfold SpanSet.Covers Span.AnyCovers
    rw [hspans]
    simp only [List.mem_map, exists_exists_and_eq_and, Period.covers_singleton]
    exact exists_congr fun t => and_congr_right fun _ => eq_comm

variable [LawfulValue V]

lemma WellFormed.sequences {v : Temporal V} (h : v.WellFormed) :
    ∀ s ∈ v.sequences, s.WellFormed := by
  cases v with
  | instant i =>
    intro s hs
    obtain rfl := List.mem_singleton.mp hs
    exact Sequence.wellFormed_ofInstant i (by simp)
  | sequence s =>
    intro x hx
    obtain rfl := List.mem_singleton.mp hx
    exact h
  | sequenceSet s => exact SequenceSet.WellFormed.sequences h

lemma WellFormed.interp_eq {v : Temporal V} (h : v.WellFormed) :
    ∀ s ∈ v.sequences, s.interp = v.interp := by
  cases v with
  | instant i =>
    intro s hs
    obtain rfl := List.mem_singleton.mp hs
    rfl
  | sequence s =>
    intro x hx
    obtain rfl := List.mem_singleton.mp hx
    rfl
  | sequenceSet s => exact (SequenceSet.WellFormed.isTrain h).interp_eq

lemma WellFormed.rising {v : Temporal V} (h : v.WellFormed) :
    v.sequences.Pairwise Sequence.Before := by
  cases v with
  | instant i => simp [Temporal.sequences]
  | sequence s => simp [Temporal.sequences]
  | sequenceSet s => exact (SequenceSet.WellFormed.isTrain h).rising

lemma WellFormed.isTrain {v : Temporal V} (h : v.WellFormed) (hd : v.isDiscrete = false) :
    Sequence.Train v.interp v.sequences :=
  ⟨h.sequences, h.interp_eq, by simpa [isDiscrete] using hd, h.rising⟩

/-- No sequence of a value starts before its first or ends after its last instant. -/
lemma WellFormed.sequences_within {v : Temporal V} (h : v.WellFormed) {s : Sequence V}
    (hs : s ∈ v.sequences) :
    v.firstInstant.time.place ≤ s.lo ∧ s.hi ≤ v.lastInstant.time.place := by
  cases v with
  | instant i =>
    obtain rfl := List.mem_singleton.mp hs
    exact Sequence.within_ends _
  | sequence x =>
    obtain rfl := List.mem_singleton.mp hs
    exact Sequence.within_ends _
  | sequenceSet x =>
    have hwf := h.sequences
    have hrising := h.rising
    constructor
    · refine x.first.within_ends.1.trans ?_
      rcases List.mem_cons.mp hs with rfl | hs
      · exact le_refl _
      · have hbefore := List.rel_of_pairwise_cons hrising hs
        have := (hwf x.first (List.mem_cons_self ..)).lo_le_hi
        unfold Sequence.Before at hbefore
        omega
    · refine le_trans ?_ x.last.within_ends.2
      have hsplit : (sequenceSet x).sequences = _ := x.sequences_eq_concat
      rw [hsplit] at hs hrising hwf
      rcases List.mem_append.mp hs with hs | hs
      · have hbefore := (List.pairwise_append.mp hrising).2.2 s hs _ (List.mem_singleton_self _)
        have := (hwf x.last (by simp)).lo_le_hi
        unfold Sequence.Before at hbefore
        omega
      · rw [List.mem_singleton.mp hs]

lemma WellFormed.confined {v : Temporal V} (h : v.WellFormed) (hshort : v.Short) :
    Sequence.Confined v.sequences := by
  rintro ⟨s, hs, hlin⟩
  exact ⟨_, _, hshort ((h.interp_eq s hs).symm.trans hlin), fun s hs => h.sequences_within hs⟩

lemma WellFormed.shortRun {v : Temporal V} (h : v.WellFormed) (hshort : v.Short)
    {s : Sequence V} (hs : s ∈ v.sequences) : Sequence.ShortRun s.interp s.first s.rest :=
  (h.confined hshort).shortRun_self hs

lemma WellFormed.compatible_first {v : Temporal V} (h : v.WellFormed) {i : Instant V}
    (hi : i ∈ v.instants) : TemporalValue.compatible v.firstInstant.value i.value = .ok () := by
  cases v with
  | instant j =>
    obtain rfl := List.mem_singleton.mp hi
    exact LawfulValue.compatible_self _
  | sequence s => exact Sequence.WellFormed.compatible_first h hi
  | sequenceSet s =>
    obtain ⟨x, hx, hi⟩ := List.mem_flatMap.mp hi
    exact (SequenceSet.rising_of_isChain h.sequences
      (SequenceSet.checkRising_eq_ok_iff.mp (SequenceSet.WellFormed.rising h))).2 x hx i hi

/-- The time of a sequence is its period, or the points of its instants if it is discrete. -/
lemma time_sequence_spec {s : Sequence V} (h : s.WellFormed) :
    (sequence s).time.WellFormed ∧ ∀ n, (sequence s).time.Covers n ↔ s.Covers n := by
  cases hd : s.isDiscrete with
  | true =>
    have htime : (sequence s).time =
        pointPeriods s.first.time (s.rest.map Instant.time) := if_pos hd
    have hmap : (s.first.time :: s.rest.map Instant.time).Pairwise
        fun a b => a.place < b.place := by
      rw [← List.map_cons, List.pairwise_map]
      exact h.rising.imp fun hab => hab.1
    obtain ⟨hwf, hc⟩ := pointPeriods_spec hmap
    rw [htime]
    refine ⟨hwf, fun n => ?_⟩
    rw [hc, Sequence.covers_of_discrete hd, ← List.map_cons]
    simp only [List.mem_map, exists_exists_and_eq_and]
    rfl
  | false =>
    have htime : (sequence s).time = .ofSpan s.period :=
      if_neg (by rw [hd]; exact Bool.false_ne_true)
    rw [htime]
    refine ⟨SpanSet.wellFormed_ofSpan h.period_valid, fun n => ?_⟩
    rw [SpanSet.covers_ofSpan, Sequence.covers_of_continuous hd]
    rfl

/-- The time of a set covers the periods of its sequences. -/
lemma time_sequenceSet_spec {s : SequenceSet V} (h : s.WellFormed) :
    (sequenceSet s).time.WellFormed ∧
      ∀ n, (sequenceSet s).time.Covers n ↔ ∃ x ∈ s.sequences, x.Covers n := by
  have hvalid : ∀ p ∈ s.first.period :: s.rest.map Sequence.period, p.Valid := by
    intro p hp
    rw [← List.map_cons] at hp
    obtain ⟨x, hx, rfl⟩ := List.mem_map.mp hp
    exact (h.sequences x hx).period_valid
  have hsome := SpanSet.ofSpans?_ofSpans s.first.period (s.rest.map Sequence.period)
  refine ⟨SpanSet.wellFormed_of_mem_ofSpans? hvalid hsome, fun n => ?_⟩
  change (SpanSet.ofSpans _ _).Covers n ↔ _
  rw [← SpanSet.someCovers_some, ← hsome, SpanSet.someCovers_ofSpans? hvalid]
  unfold Span.AnyCovers
  rw [← List.map_cons]
  simp only [List.mem_map, exists_exists_and_eq_and]
  refine exists_congr fun x => and_congr_right fun hx => ?_
  rw [h.isTrain.covers_iff hx]
  rfl

/-- The time of a value is in normal form and covers the places at which the value is defined. -/
theorem WellFormed.time_spec {v : Temporal V} (h : v.WellFormed) :
    v.time.WellFormed ∧ ∀ n, v.time.Covers n ↔ v.Covers n := by
  cases v with
  | instant i =>
    refine ⟨SpanSet.wellFormed_ofSpan (Period.singleton_valid _), fun n => ?_⟩
    change (SpanSet.ofSpan (Period.singleton i.time)).Covers n ↔
      ∃ s ∈ [Sequence.ofInstant i .discrete], s.Covers n
    rw [SpanSet.covers_ofSpan, Period.covers_singleton]
    simp [Sequence.covers_ofInstant]
  | sequence s =>
    obtain ⟨hwf, hcovers⟩ := time_sequence_spec h
    refine ⟨hwf, fun n => ?_⟩
    rw [hcovers]
    simp [Covers, Temporal.sequences]
  | sequenceSet s => exact time_sequenceSet_spec h

lemma WellFormed.time_eq {W : Type} [TemporalValue W] [LawfulValue W] {v : Temporal V}
    {w : Temporal W} (hv : v.WellFormed) (hw : w.WellFormed)
    (h : ∀ n, v.Covers n ↔ w.Covers n) : v.time = w.time := by
  refine hv.time_spec.1.eq_of_covers hw.time_spec.1 fun n => ?_
  rw [hv.time_spec.2, hw.time_spec.2, h]

/-- The union of the times of some values is where any of them is defined. -/
lemma unionOfTimes_spec {given : List (Temporal V)} (hwf : ∀ v ∈ given, v.WellFormed) :
    (∀ set ∈ SpanSet.ofSpans? (given.flatMap fun v => v.time.spans), set.WellFormed) ∧
      ∀ n, SpanSet.SomeCovers (SpanSet.ofSpans? (given.flatMap fun v => v.time.spans)) n ↔
        ∃ v ∈ given, v.Covers n := by
  have hvalid : ∀ p ∈ given.flatMap fun v => v.time.spans, p.Valid := by
    intro p hp
    obtain ⟨v, hv, hp⟩ := List.mem_flatMap.mp hp
    exact (hwf v hv).time_spec.1.normal.valid p hp
  refine ⟨fun set hset => SpanSet.wellFormed_of_mem_ofSpans? hvalid hset, fun n => ?_⟩
  rw [SpanSet.someCovers_ofSpans? hvalid]
  constructor
  · rintro ⟨p, hp, hn⟩
    obtain ⟨v, hv, hp⟩ := List.mem_flatMap.mp hp
    exact ⟨v, hv, ((hwf v hv).time_spec.2 n).mp ⟨p, hp, hn⟩⟩
  · rintro ⟨v, hv, hn⟩
    obtain ⟨p, hp, hn⟩ := ((hwf v hv).time_spec.2 n).mpr hn
    exact ⟨p, List.mem_flatMap.mpr ⟨v, hv, hp⟩, hn⟩

end Temporal

end TemporalAlgebra
