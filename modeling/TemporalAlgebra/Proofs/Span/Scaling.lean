import TemporalAlgebra.Proofs.Number.Integers
import TemporalAlgebra.Proofs.Span.Shifting

/-!
# Numbers taken back to a domain

A domain of bounded integers takes a number to the integer nearest to it and refuses a number whose
nearest integer it does not have. Where the end of the domain is itself no number of 53 bits, the
integer behind the greatest element is not refused but taken for that element. So a scaled span has
the bound that was computed, or the greatest one in place of the one behind it.
-/
namespace TemporalAlgebra

open LawfulDomain SpanDomain

/-- A finite number and the integer nearest to it; of two it is the one farther from zero. -/
structure NearestTo (v : Float) (n : ℤ) : Prop where
  finite : Binary64.isFinite v = true
  rounds : Binary64.RoundsAway (Binary64.value v) n

lemma nearestTo_iff {v : Float} {n : ℤ} : NearestTo v n ↔ Binary64.nearest? v = some n := by
  rw [Binary64.nearest?_eq_some_iff]
  exact ⟨fun h => ⟨h.finite, h.rounds⟩, fun h => ⟨h.1, h.2⟩⟩

lemma NearestTo.unique {v : Float} {m n : ℤ} (hm : NearestTo v m) (hn : NearestTo v n) : m = n :=
  Option.some.inj ((nearestTo_iff.mp hm).symm.trans (nearestTo_iff.mp hn))

section

variable {w : ℕ} {what : String} {v : Float}

/-- The number is nearest to the integer behind the greatest one, and that is beyond 53 bits. -/
def PastEnd (w : ℕ) (v : Float) : Prop := 53 < w ∧ NearestTo v (2 ^ w)

lemma ofReal_eq_ok_iff {x : Signed w} :
    ofReal what v = .ok x ↔ NearestTo v x.val ∨ PastEnd w v ∧ x.val = 2 ^ w - 1 := by
  unfold ofReal PastEnd
  simp only [nearestTo_iff]
  cases hn : Binary64.nearest? v with
  | none => simp
  | some n =>
    have hlower := x.lower
    have hupper := x.upper
    dsimp only
    split_ifs with h53 hrange hrange <;>
      simp only [Except.ok.injEq, refuse_ne_ok, Option.some.injEq, false_iff, Signed.ext_iff,
        Signed.val_clamp] <;> omega

lemma ofReal_cases (w : ℕ) (what : String) (v : Float) :
    (∃ x : Signed w, ofReal what v = .ok x) ∨
      (ofReal what v : Result (Signed w)) = refuse (outOfRange what) := by
  unfold ofReal
  cases Binary64.nearest? v with
  | none => exact Or.inr rfl
  | some n =>
    dsimp only
    split_ifs
    all_goals first | exact Or.inl ⟨_, rfl⟩ | exact Or.inr rfl

end

/-- A domain of the integers from `-2 ^ bits` to `2 ^ bits - 1`, to which numbers are converted. -/
class ConvertingDomain (α : Type) [SpanDomain α] [LawfulDomain α] where
  bits : ℕ
  what : String
  word : Signed bits ≃ α
  key_word : ∀ a, key (word a) = a.val
  ofNative_eq : ∀ v, (ofNative v : Result α) = (ofReal what v).map word

instance : ConvertingDomain Integer where
  bits := 31
  what := "Integer"
  word := Equiv.refl Integer
  key_word _ := rfl
  ofNative_eq v := by
    change (ofReal "Integer" v : Result Integer) = (ofReal "Integer" v).map id
    exact (congrFun Except.map_id _).symm

instance : ConvertingDomain Bigint where
  bits := 63
  what := "Bigint"
  word := Equiv.refl Bigint
  key_word _ := rfl
  ofNative_eq v := by
    change (ofReal "Bigint" v : Result Bigint) = (ofReal "Bigint" v).map id
    exact (congrFun Except.map_id _).symm

instance : ConvertingDomain Date where
  bits := 31
  what := "Date"
  word := ⟨Date.mk, Date.ticks, fun _ => rfl, fun _ => rfl⟩
  key_word _ := rfl
  ofNative_eq _ := rfl

instance : ConvertingDomain Timestamp where
  bits := 63
  what := "Timestamp"
  word := ⟨Timestamp.mk, Timestamp.ticks, fun _ => rfl, fun _ => rfl⟩
  key_word _ := rfl
  ofNative_eq _ := rfl

open ConvertingDomain

variable {α : Type} [SpanDomain α] [LawfulDomain α]

/-- What a number is taken for: the element nearest to it, or the greatest element where the
number passes for the integer behind that one. -/
def Reached (passes : Float → Prop) (v : Float) (x : α) : Prop :=
  NearestTo v (key x) ∨ passes v ∧ ∀ y : α, key y ≤ key x

/-- A number has no nearest integer, or one that neither fits nor passes. -/
def Missed (bits : ℕ) (passes : Float → Prop) (v : Float) : Prop :=
  Binary64.isFinite v = false ∨ ∃ n, NearestTo v n ∧ ¬passes v ∧ (n < -2 ^ bits ∨ 2 ^ bits ≤ n)

section

variable [ConvertingDomain α] {v : Float} {x : α}

lemma key_bounds (x : α) : -2 ^ bits α ≤ key x ∧ key x < 2 ^ bits α := by
  obtain ⟨a, rfl⟩ := (word (α := α)).surjective x
  rw [key_word]
  exact ⟨a.lower, a.upper⟩

lemma exists_key_eq {n : ℤ} (hlower : -2 ^ bits α ≤ n) (hupper : n < 2 ^ bits α) :
    ∃ x : α, key x = n :=
  ⟨word ⟨n, hlower, hupper⟩, key_word _⟩

lemma greatest_iff : (∀ y : α, key y ≤ key x) ↔ key x = 2 ^ bits α - 1 := by
  have hbounds := key_bounds x
  have hpos : (0 : ℤ) < 2 ^ bits α := Int.pow_pos (by decide)
  constructor
  · intro h
    obtain ⟨y, hy⟩ := exists_key_eq (α := α) (n := 2 ^ bits α - 1) (by omega) (by omega)
    have := h y
    omega
  · intro h y
    have := key_bounds y
    omega

lemma ofNative_eq_ok_iff : ofNative v = .ok x ↔ Reached (PastEnd (bits α)) v x := by
  obtain ⟨a, rfl⟩ := (word (α := α)).surjective x
  have hmap : (ofReal (what α) v).map word = .ok (word a) ↔
      (ofReal (what α) v : Result (Signed (bits α))) = .ok a := by
    cases (ofReal (what α) v : Result (Signed (bits α))) <;> simp [Except.map]
  unfold Reached
  rw [ofNative_eq, hmap, ofReal_eq_ok_iff, greatest_iff, key_word]

lemma ofNative_eq_refuse_iff_forall :
    (ofNative v : Result α) = refuse (outOfRange (what α)) ↔
      ∀ x : α, ¬Reached (PastEnd (bits α)) v x := by
  have hcases : (∃ x : α, ofNative v = .ok x) ∨
      (ofNative v : Result α) = refuse (outOfRange (what α)) := by
    rw [ofNative_eq]
    rcases ofReal_cases (bits α) (what α) v with ⟨a, ha⟩ | ha
    · exact Or.inl ⟨word a, by rw [ha]; rfl⟩
    · exact Or.inr (by rw [ha]; rfl)
  simp only [← ofNative_eq_ok_iff]
  constructor
  · intro h x hx
    exact refuse_ne_ok (h.symm.trans hx)
  · intro h
    exact hcases.resolve_left (not_exists.mpr h)

/-- A number is refused if its nearest integer is missed. -/
lemma ofNative_eq_refuse_iff :
    (ofNative v : Result α) = refuse (outOfRange (what α)) ↔
      Missed (bits α) (PastEnd (bits α)) v := by
  rw [ofNative_eq_refuse_iff_forall]
  unfold Missed
  have hpos : (0 : ℤ) < 2 ^ bits α := Int.pow_pos (by decide)
  cases hfinite : Binary64.isFinite v with
  | false =>
    refine iff_of_true ?_ (Or.inl rfl)
    rintro x (h | h)
    · exact Bool.false_ne_true (hfinite.symm.trans h.finite)
    · exact Bool.false_ne_true (hfinite.symm.trans h.1.2.finite)
  | true =>
    obtain ⟨n, hn⟩ : ∃ n, NearestTo v n := ⟨_, nearestTo_iff.mpr (Binary64.nearest?_eq hfinite)⟩
    constructor
    · intro h
      refine Or.inr ⟨n, hn, fun hover => ?_, ?_⟩
      · obtain ⟨x, hx⟩ := exists_key_eq (α := α) (n := 2 ^ bits α - 1) (by omega) (by omega)
        exact h x (Or.inr ⟨hover, greatest_iff.mpr hx⟩)
      · by_contra hfits
        obtain ⟨x, hx⟩ := exists_key_eq (α := α) (n := n) (by omega) (by omega)
        exact h x (Or.inl (hx ▸ hn))
    · rintro (h | ⟨m, hm, hover, hout⟩) x (hx | hx)
      · cases h
      · cases h
      · obtain rfl := hm.unique hx
        have := key_bounds x
        omega
      · exact hover hx.1

end

/-- The bounds of one span are reached from those of another one that are moved, and are of the
same kinds. -/
structure Span.Stretches (passes : Float → Prop) (move : α → Float) (a b : Span α) : Prop where
  lower : Reached passes (move a.lower) b.lower
  upper : Reached passes (move a.upper) b.upper
  lowerInc : b.lowerInc = a.lowerInc
  upperInc : b.upperInc = a.upperInc

namespace Span

variable [SuccessorDomain α] {a b : Span α}

lemma Valid.bounds_of_new (ha : a.Valid) {lower upper : α}
    (h : new lower upper a.lowerInc a.upperInc = .ok b) :
    b = ⟨lower, upper, a.lowerInc, a.upperInc⟩ := by
  obtain ⟨-, hmake⟩ := make_eq_ok_iff.mp (reported_eq_ok.mp h)
  cases hd : SpanDomain.discrete α with
  | false =>
    rw [if_neg (by rw [hd]; exact Bool.false_ne_true)] at hmake
    exact (Except.ok.inj hmake).symm
  | true =>
    obtain ⟨hl, hu, -⟩ := (valid_iff_of_discrete hd).mp ha
    rw [if_pos hd, hl, hu] at hmake
    obtain ⟨hbl, hbu, -, hlower, hupper⟩ := canonical_eq_ok hd hmake
    obtain ⟨l, u, li, ui⟩ := b
    rw [if_pos rfl, add_zero] at hlower
    rw [if_neg Bool.false_ne_true, add_zero] at hupper
    dsimp only at hbl hbu hlower hupper
    rw [hl, hu, hbl, hbu, key_injective hlower, key_injective hupper]

/-- Where the upper bound of a scaled span is computed to lie. -/
def scaledUpper (s : Span α) (factor : Float) : Float :=
  native s.lower + (native s.upper - native s.lower) * factor

variable [ConvertingDomain α] {factor : Float}

omit [LawfulDomain α] [SuccessorDomain α] [ConvertingDomain α] in
lemma requireFactor_eq_ok : requireFactor factor = .ok () ↔
    Binary64.isFinite factor = true ∧ (0.0 : Float) < factor := by
  unfold requireFactor
  rw [require_eq_ok, Bool.and_eq_true, decide_eq_true_iff]

/-- The lower bound of a scaled span stays, the upper one is reached from where it is computed. -/
lemma Valid.scale_spec (ha : a.Valid) (h : a.scale factor = .ok b) :
    b.lower = a.lower ∧ b.lowerInc = a.lowerInc ∧ b.upperInc = a.upperInc ∧
      Reached (PastEnd (bits α)) (a.scaledUpper factor) b.upper := by
  unfold scale at h
  obtain ⟨-, hscale⟩ := check_bind_eq_ok.mp h
  obtain ⟨upper, hupper, hnew⟩ := bind_eq_ok.mp hscale
  obtain rfl := ha.bounds_of_new hnew
  exact ⟨rfl, rfl, rfl, ofNative_eq_ok_iff.mp hupper⟩

omit [SuccessorDomain α] in
lemma scale_refused (hfactor : Binary64.isFinite factor = true) (hpos : (0.0 : Float) < factor)
    (h : Missed (bits α) (PastEnd (bits α)) (a.scaledUpper factor)) :
    a.scale factor = refuse (outOfRange (what α)) := by
  unfold scale
  rw [bind_of_ok (requireFactor_eq_ok.mpr ⟨hfactor, hpos⟩)]
  exact bind_of_error (ofNative_eq_refuse_iff.mpr h)

end Span

end TemporalAlgebra
