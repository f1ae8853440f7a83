import Mathlib.Tactic.Common
import TemporalAlgebra.Number.Binary64

/-!
# Equal numbers

Numbers that are equal are the same number, or zeros of either sign. So equality is symmetric and
transitive, and a length or a difference within a tolerance does not tell equal numbers apart. What
is computed from a NaN is a NaN.
-/
namespace TemporalAlgebra.Binary64

open Float.Model (UnpackedFloat Format)

def shape (x : Float) : UnpackedFloat := x.toModel.unpack

def Same (a b : UnpackedFloat) : Prop := a = b ∨ ∃ s t, a = .zero s ∧ b = .zero t

lemma Same.refl (a : UnpackedFloat) : Same a a := Or.inl rfl

lemma Same.symm {a b : UnpackedFloat} (h : Same a b) : Same b a := by
  rcases h with rfl | ⟨s, t, rfl, rfl⟩
  · exact Same.refl a
  · exact Or.inr ⟨t, s, rfl, rfl⟩

lemma Same.trans {a b c : UnpackedFloat} (hab : Same a b) (hbc : Same b c) : Same a c := by
  rcases hab with rfl | ⟨s, t, rfl, rfl⟩
  · exact hbc
  · rcases hbc with rfl | ⟨t', u, -, rfl⟩
    · exact Or.inr ⟨s, t, rfl, rfl⟩
    · exact Or.inr ⟨s, u, rfl, rfl⟩

lemma Same.nan_iff {a b : UnpackedFloat} (h : Same a b) : a = .notANumber ↔ b = .notANumber := by
  rcases h with rfl | ⟨s, t, rfl, rfl⟩
  · exact Iff.rfl
  · simp

lemma compare_self {a : UnpackedFloat} (h : a ≠ .notANumber) : a.compare a = some .eq := by
  cases a with
  | notANumber => exact absurd rfl h
  | infinity s => cases s <;> rfl
  | zero s => rfl
  | finite s m e hm =>
    cases s with
    | negative =>
      change some ((compare e e).then (compare m m)).swap = some .eq
      simp
    | positive =>
      change some ((compare e e).then (compare m m)) = some .eq
      simp

lemma compare_eq_iff (a b : UnpackedFloat) :
    a.compare b = some .eq ↔ Same a b ∧ a ≠ .notANumber := by
  constructor
  · intro h
    -- Numbers of different kinds or signs are not equal.
    cases a with
    | notANumber => cases b <;> cases h
    | infinity s =>
      refine ⟨Or.inl ?_, fun hn => by cases hn⟩
      cases b with
      | infinity t =>
        cases s <;> cases t
        · rfl
        · cases h
        · cases h
        · rfl
      | _ => cases s <;> cases h
    | zero s =>
      refine ⟨Or.inr ?_, fun hn => by cases hn⟩
      cases b with
      | zero t => exact ⟨s, t, rfl, rfl⟩
      | notANumber => cases h
      | infinity t => cases t <;> cases h
      | finite t n f hn => cases t <;> cases h
    | finite s m e hm =>
      refine ⟨Or.inl ?_, fun hn => by cases hn⟩
      cases b with
      | finite t n f hn =>
        cases s <;> cases t
        · change some ((compare e f).then (compare m n)).swap = some .eq at h
          obtain ⟨rfl, rfl⟩ : e = f ∧ m = n := by simpa [Ordering.then_eq_eq] using h
          rfl
        · cases h
        · cases h
        · change some ((compare e f).then (compare m n)) = some .eq at h
          obtain ⟨rfl, rfl⟩ : e = f ∧ m = n := by simpa [Ordering.then_eq_eq] using h
          rfl
      | infinity t => cases t <;> cases h
      | zero t => cases s <;> cases h
      | notANumber => cases s <;> cases h
  · rintro ⟨rfl | ⟨s, t, rfl, rfl⟩, hn⟩
    · exact compare_self hn
    · rfl

lemma beq_iff (x y : Float) :
    (x == y) = true ↔ Same (shape x) (shape y) ∧ shape x ≠ .notANumber := by
  rw [← compare_eq_iff]
  change (UnpackedFloat.compare (shape x) (shape y) == some .eq) = true ↔ _
  exact beq_iff_eq

lemma beq_self_iff (x : Float) : (x == x) = true ↔ shape x ≠ .notANumber := by
  rw [beq_iff]
  exact and_iff_right (Same.refl _)

lemma beq_symm {x y : Float} (h : (x == y) = true) : (y == x) = true := by
  rw [beq_iff] at h ⊢
  exact ⟨h.1.symm, fun hn => h.2 (h.1.nan_iff.mpr hn)⟩

lemma beq_trans {x y z : Float} (hxy : (x == y) = true) (hyz : (y == z) = true) :
    (x == z) = true := by
  rw [beq_iff] at hxy hyz ⊢
  exact ⟨hxy.1.trans hyz.1, hxy.2⟩

def kept (a : UnpackedFloat) : UnpackedFloat := (Float.Model.pack a).unpack

lemma kept_nan : kept .notANumber = .notANumber := rfl

lemma kept_zero (s : UnpackedFloat.Sign) : kept (.zero s) = .zero s := by
  cases s <;> rfl

lemma Same.kept {a b : UnpackedFloat} (h : Same a b) : Same (kept a) (kept b) := by
  rcases h with rfl | ⟨s, t, rfl, rfl⟩
  · exact Same.refl _
  · exact Or.inr ⟨s, t, kept_zero s, kept_zero t⟩

lemma shape_sub (x y : Float) : shape (x - y) = kept (.sub .binary64 (shape x) (shape y)) := rfl

lemma shape_add (x y : Float) : shape (x + y) = kept (.add .binary64 (shape x) (shape y)) := rfl

lemma shape_abs (x : Float) : shape x.abs = kept (shape x).abs := rfl

lemma zero_sub_zero (s t : UnpackedFloat.Sign) :
    ∃ u, UnpackedFloat.sub .binary64 (.zero s) (.zero t) = .zero u := by
  cases s <;> cases t <;> exact ⟨_, rfl⟩

lemma Same.sub_right {a b : UnpackedFloat} (h : Same a b) (c : UnpackedFloat) :
    Same (.sub .binary64 c a) (.sub .binary64 c b) := by
  rcases h with rfl | ⟨s, t, rfl, rfl⟩
  · exact Same.refl _
  · cases c with
    | zero u =>
      obtain ⟨v, hv⟩ := zero_sub_zero u s
      obtain ⟨w, hw⟩ := zero_sub_zero u t
      exact Or.inr ⟨v, w, hv, hw⟩
    | _ => exact Same.refl _

lemma Same.sub_left {a b : UnpackedFloat} (h : Same a b) (c : UnpackedFloat) :
    Same (.sub .binary64 a c) (.sub .binary64 b c) := by
  rcases h with rfl | ⟨s, t, rfl, rfl⟩
  · exact Same.refl _
  · cases c with
    | zero u =>
      obtain ⟨v, hv⟩ := zero_sub_zero s u
      obtain ⟨w, hw⟩ := zero_sub_zero t u
      exact Or.inr ⟨v, w, hv, hw⟩
    | _ => exact Same.refl _

lemma shape_sub_left {x y : Float} (h : Same (shape x) (shape y)) (z : Float) :
    Same (shape (x - z)) (shape (y - z)) := (h.sub_left _).kept

lemma shape_sub_right {x y : Float} (h : Same (shape x) (shape y)) (z : Float) :
    Same (shape (z - x)) (shape (z - y)) := (h.sub_right _).kept

lemma abs_eq {x y : Float} (h : Same (shape x) (shape y)) : x.abs = y.abs := by
  have habs : (shape x).abs = (shape y).abs := by
    rcases h with h | ⟨s, t, hx, hy⟩
    · rw [h]
    · rw [hx, hy]
      rfl
  exact congrArg (fun a => Float.ofModel (Float.Model.pack a)) habs

lemma isNaN_eq {x y : Float} (h : Same (shape x) (shape y)) : x.isNaN = y.isNaN := by
  change (shape x).isNaN = (shape y).isNaN
  rcases h with h | ⟨s, t, hx, hy⟩
  · rw [h]
  · rw [hx, hy]
    rfl

lemma isInf_eq {x y : Float} (h : Same (shape x) (shape y)) : x.isInf = y.isInf := by
  change (shape x).isInf = (shape y).isInf
  rcases h with h | ⟨s, t, hx, hy⟩
  · rw [h]
  · rw [hx, hy]
    rfl

lemma hypot_eq {x y x' y' : Float} (hx : Same (shape x) (shape x'))
    (hy : Same (shape y) (shape y')) : hypot x y = hypot x' y' := by
  unfold hypot
  rw [abs_eq hx, abs_eq hy, isInf_eq hx, isInf_eq hy, isNaN_eq hx, isNaN_eq hy]

lemma nan_sub_left {x : Float} (h : shape x = .notANumber) (y : Float) :
    shape (x - y) = .notANumber := by
  rw [shape_sub, h]
  exact kept_nan

lemma nan_sub_right {x : Float} (h : shape x = .notANumber) (y : Float) :
    shape (y - x) = .notANumber := by
  rw [shape_sub, h]
  cases shape y <;> exact kept_nan

lemma nan_add_left {x : Float} (h : shape x = .notANumber) (y : Float) :
    shape (x + y) = .notANumber := by
  rw [shape_add, h]
  exact kept_nan

lemma nan_mul_right {x : Float} (h : shape x = .notANumber) (y : Float) :
    shape (y * x) = .notANumber := by
  change kept (.mul .binary64 (shape y) (shape x)) = _
  rw [h]
  cases shape y <;> exact kept_nan

lemma nan_abs {x : Float} (h : shape x = .notANumber) : shape x.abs = .notANumber := by
  rw [shape_abs, h]
  exact kept_nan

lemma not_le_of_nan {x : Float} (h : shape x = .notANumber) (y : Float) : ¬x ≤ y := by
  have hle : UnpackedFloat.le (shape x) (shape y) = false := by
    rw [h]
    rfl
  change ¬decide (UnpackedFloat.le (shape x) (shape y) = true) = true
  simp [hle]

lemma hypot_of_nan {x y : Float} (h : shape x = .notANumber ∨ shape y = .notANumber) :
    hypot x y = infinity ∨ shape (hypot x y) = .notANumber := by
  have hnan : (x.isNaN || y.isNaN) = true := by
    rw [Bool.or_eq_true]
    change (shape x).isNaN = true ∨ (shape y).isNaN = true
    rcases h with h | h
    · rw [h]
      exact Or.inl rfl
    · rw [h]
      exact Or.inr rfl
  unfold hypot
  simp only [hnan, if_true]
  split
  · exact Or.inl rfl
  · exact Or.inr rfl

lemma hypot_infinity (y : Float) : hypot infinity y = infinity := by
  have hinf : (infinity.isInf || y.isInf) = true := by
    rw [Bool.or_eq_true]
    exact Or.inl rfl
  unfold hypot
  simp only [hinf, if_true]

/-- The length of a vector with a NaN is within no bound but an infinite one. -/
lemma not_hypot_le_of_nan {x y bound : Float} (h : shape x = .notANumber ∨ shape y = .notANumber)
    (hbound : ¬infinity ≤ bound) : ¬hypot x y ≤ bound := by
  rcases hypot_of_nan h with hi | hn
  · rw [hi]
    exact hbound
  · exact not_le_of_nan hn _

lemma orderKey_injective {x y : Float} (h : orderKey x = orderKey y) : x = y := by
  have hx := x.toBits.toNat_lt
  have hy := y.toBits.toNat_lt
  have hbits : x.toBits.toNat = y.toBits.toNat := by
    unfold orderKey at h
    dsimp only at h
    split at h <;> split at h <;> omega
  have hmodel : x.toModel.toBits = y.toModel.toBits := UInt64.toNat_inj.mp hbits
  obtain ⟨⟨a, ha⟩⟩ := x
  obtain ⟨⟨b, hb⟩⟩ := y
  obtain rfl : a = b := hmodel
  rfl

end TemporalAlgebra.Binary64
