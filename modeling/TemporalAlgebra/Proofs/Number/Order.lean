import Mathlib.Data.Prod.Lex
import TemporalAlgebra.Proofs.Number.Binary64

/-!
# The order of numbers

Numbers other than NaN stand in a row, in which both zeros have one place. NaN stands before and
after nothing.
-/
namespace TemporalAlgebra.Binary64

open Float.Model (UnpackedFloat)

def kind : UnpackedFloat → Int
  | .infinity .negative => -2
  | .finite .negative _ _ _ => -1
  | .zero _ | .notANumber => 0
  | .finite .positive _ _ _ => 1
  | .infinity .positive => 2

/-- Where a number stands among those of its kind: by its exponent, then by its mantissa. -/
def withinKind : UnpackedFloat → Int ×ₗ Int
  | .finite .negative m e _ => toLex (-e, -m)
  | .finite .positive m e _ => toLex (e, m)
  | .infinity _ | .zero _ | .notANumber => toLex (0, 0)

/-- Where a number other than NaN stands. -/
def standing (a : UnpackedFloat) : Int ×ₗ Int ×ₗ Int := toLex (kind a, withinKind a)

lemma then_eq_lt_iff {e f : Int} {m n : Nat} :
    (compare e f).then (compare m n) = .lt ↔ e < f ∨ e = f ∧ m < n := by
  rw [Ordering.then_eq_lt, Int.compare_eq_lt, Int.compare_eq_eq, Nat.compare_eq_lt]

lemma then_swap_eq_lt_iff {e f : Int} {m n : Nat} :
    ((compare e f).then (compare m n)).swap = .lt ↔ f < e ∨ f = e ∧ n < m := by
  rw [Ordering.swap_then, Int.compare_swap, Nat.compare_swap, then_eq_lt_iff]

variable {a b : UnpackedFloat}

lemma compare_of_kind_ne (ha : a ≠ .notANumber) (hb : b ≠ .notANumber) (h : kind a ≠ kind b) :
    a.compare b = some (compare (kind a) (kind b)) := by
  cases a with
  | notANumber => exact absurd rfl ha
  | infinity s =>
    cases b with
    | notANumber => exact absurd rfl hb
    | infinity t => cases s <;> cases t <;> rfl
    | zero t => cases s <;> rfl
    | finite t n f hn => cases s <;> cases t <;> rfl
  | zero s =>
    cases b with
    | notANumber => exact absurd rfl hb
    | infinity t => cases t <;> rfl
    | zero t => exact absurd rfl h
    | finite t n f hn => cases t <;> rfl
  | finite s m e hm =>
    cases b with
    | notANumber => exact absurd rfl hb
    | infinity t => cases s <;> cases t <;> rfl
    | zero t => cases s <;> rfl
    | finite t n f hn => cases s <;> cases t <;> first | rfl | exact absurd rfl h

lemma compare_of_kind_eq (ha : a ≠ .notANumber) (hb : b ≠ .notANumber) (h : kind a = kind b) :
    a.compare b = some .lt ↔ withinKind a < withinKind b := by
  cases a with
  | notANumber => exact absurd rfl ha
  | infinity s =>
    cases b with
    | notANumber => exact absurd rfl hb
    | infinity t => cases s <;> cases t <;> cases h <;> exact iff_of_false nofun (lt_irrefl _)
    | zero t => cases s <;> cases h
    | finite t n f hn => cases s <;> cases t <;> cases h
  | zero s =>
    cases b with
    | notANumber => exact absurd rfl hb
    | infinity t => cases t <;> cases h
    | zero t => exact iff_of_false nofun (lt_irrefl _)
    | finite t n f hn => cases t <;> cases h
  | finite s m e hm =>
    cases b with
    | notANumber => exact absurd rfl hb
    | infinity t => cases s <;> cases t <;> cases h
    | zero t => cases s <;> cases h
    | finite t n f hn =>
      -- Of two numbers with one sign the exponents and mantissas decide.
      cases s with
      | negative =>
        cases t with
        | negative =>
          change some ((compare e f).then (compare m n)).swap = some .lt ↔
            toLex (-e, -(m : Int)) < toLex (-f, -(n : Int))
          rw [Option.some_inj, then_swap_eq_lt_iff, Prod.Lex.toLex_lt_toLex]
          omega
        | positive => cases h
      | positive =>
        cases t with
        | negative => cases h
        | positive =>
          change some ((compare e f).then (compare m n)) = some .lt ↔
            toLex (e, (m : Int)) < toLex (f, (n : Int))
          rw [Option.some_inj, then_eq_lt_iff, Prod.Lex.toLex_lt_toLex]
          omega

lemma compare_eq_lt_iff :
    a.compare b = some .lt ↔ a ≠ .notANumber ∧ b ≠ .notANumber ∧ standing a < standing b := by
  by_cases ha : a = .notANumber
  · subst ha
    exact iff_of_false nofun fun h => h.1 rfl
  by_cases hb : b = .notANumber
  · subst hb
    exact iff_of_false (by cases a <;> nofun) fun h => h.2.1 rfl
  rw [and_iff_right ha, and_iff_right hb, standing, standing, Prod.Lex.toLex_lt_toLex]
  by_cases h : kind a = kind b
  · rw [compare_of_kind_eq ha hb h, or_iff_right h.not_lt, and_iff_right h]
  · rw [compare_of_kind_ne ha hb h, Option.some_inj, Int.compare_eq_lt,
      or_iff_left fun hboth => h hboth.1]

lemma compare_swap (a b : UnpackedFloat) : b.compare a = (a.compare b).map Ordering.swap := by
  cases a with
  | notANumber => cases b <;> rfl
  | infinity s =>
    cases b with
    | notANumber => cases s <;> rfl
    | infinity t => cases s <;> cases t <;> rfl
    | zero t => cases s <;> rfl
    | finite t n f hn => cases s <;> rfl
  | zero s =>
    cases b with
    | notANumber => rfl
    | infinity t => cases t <;> rfl
    | zero t => rfl
    | finite t n f hn => cases t <;> rfl
  | finite s m e hm =>
    cases b with
    | notANumber => rfl
    | infinity t => cases t <;> rfl
    | zero t => cases s <;> rfl
    | finite t n f hn =>
      have hswap : (compare f e).then (compare n m) =
          ((compare e f).then (compare m n)).swap := by
        rw [Ordering.swap_then, Int.compare_swap, Nat.compare_swap]
      cases s with
      | negative =>
        cases t with
        | negative => exact congrArg (fun o => some (Ordering.swap o)) hswap
        | positive => rfl
      | positive =>
        cases t with
        | negative => rfl
        | positive => exact congrArg some hswap

lemma compare_isSome (ha : a ≠ .notANumber) (hb : b ≠ .notANumber) : ∃ o, a.compare b = some o := by
  cases a with
  | notANumber => exact absurd rfl ha
  | infinity s =>
    cases b with
    | notANumber => exact absurd rfl hb
    | infinity t => exact ⟨_, rfl⟩
    | zero t => cases s <;> exact ⟨_, rfl⟩
    | finite t n f hn => cases s <;> exact ⟨_, rfl⟩
  | zero s =>
    cases b with
    | notANumber => exact absurd rfl hb
    | infinity t => cases t <;> exact ⟨_, rfl⟩
    | zero t => exact ⟨_, rfl⟩
    | finite t n f hn => cases t <;> exact ⟨_, rfl⟩
  | finite s m e hm =>
    cases b with
    | notANumber => exact absurd rfl hb
    | infinity t => cases t <;> exact ⟨_, rfl⟩
    | zero t => cases s <;> exact ⟨_, rfl⟩
    | finite t n f hn => cases s <;> cases t <;> exact ⟨_, rfl⟩

variable {x y z : Float}

lemma lt_iff : x < y ↔
    shape x ≠ .notANumber ∧ shape y ≠ .notANumber ∧ standing (shape x) < standing (shape y) := by
  rw [← compare_eq_lt_iff]
  change decide ((UnpackedFloat.compare (shape x) (shape y) == some .lt) = true) = true ↔ _
  rw [decide_eq_true_iff, beq_iff_eq]

lemma not_nan_of_lt (h : x < y) :
    shape x ≠ .notANumber ∧ shape y ≠ .notANumber := ⟨(lt_iff.mp h).1, (lt_iff.mp h).2.1⟩

lemma lt_of_lt_of_not_lt (hxy : x < y) (hz : shape z ≠ .notANumber)
    (hzy : ¬ z < y) : x < z := by
  obtain ⟨hx, hy, hlt⟩ := lt_iff.mp hxy
  refine lt_iff.mpr ⟨hx, hz, hlt.trans_le (not_lt.mp fun h => hzy (lt_iff.mpr ⟨hz, hy, h⟩))⟩

lemma lt_trans (hxy : x < y) (hyz : y < z) : x < z := by
  obtain ⟨hx, -, hlt⟩ := lt_iff.mp hxy
  obtain ⟨-, hz, hlt'⟩ := lt_iff.mp hyz
  exact lt_iff.mpr ⟨hx, hz, hlt.trans hlt'⟩

lemma lt_or_beq_of_le (h : x ≤ y) : x < y ∨ (x == y) = true := by
  have hle : UnpackedFloat.le (shape x) (shape y) = true := of_decide_eq_true h
  unfold UnpackedFloat.le at hle
  rw [Option.any_eq_true] at hle
  obtain ⟨o, ho, hor⟩ := hle
  cases o with
  | lt => exact Or.inl (lt_iff.mpr (compare_eq_lt_iff.mp ho))
  | eq => exact Or.inr ((beq_iff x y).mpr ((compare_eq_iff _ _).mp ho))
  | gt => cases hor

lemma le_of_lt_or_beq (h : x < y ∨ (x == y) = true) : x ≤ y := by
  have hle : UnpackedFloat.le (shape x) (shape y) = true := by
    unfold UnpackedFloat.le
    rcases h with hlt | heq
    · rw [compare_eq_lt_iff.mpr (lt_iff.mp hlt)]
      rfl
    · rw [(compare_eq_iff _ _).mpr ((beq_iff x y).mp heq)]
      rfl
  exact decide_eq_true hle

/-- Numbers are in order as they stand. -/
lemma le_iff : x ≤ y ↔
    shape x ≠ .notANumber ∧ shape y ≠ .notANumber ∧ standing (shape x) ≤ standing (shape y) := by
  constructor
  · intro h
    have hnot : ¬y < x := by
      intro hlt
      have hgt : (shape x).compare (shape y) = some .gt := by
        rw [compare_swap (shape y), compare_eq_lt_iff.mpr (lt_iff.mp hlt)]
        rfl
      have hle : UnpackedFloat.le (shape x) (shape y) = true := of_decide_eq_true h
      unfold UnpackedFloat.le at hle
      rw [hgt] at hle
      cases hle
    obtain ⟨hx, hy⟩ : shape x ≠ .notANumber ∧ shape y ≠ .notANumber := by
      rcases lt_or_beq_of_le h with hlt | heq
      · exact not_nan_of_lt hlt
      · exact ⟨((beq_iff x y).mp heq).2, ((beq_iff y x).mp (beq_symm heq)).2⟩
    exact ⟨hx, hy, not_lt.mp fun hlt => hnot (lt_iff.mpr ⟨hy, hx, hlt⟩)⟩
  · rintro ⟨hx, hy, hle⟩
    obtain ⟨o, ho⟩ := compare_isSome hx hy
    have hnot : o ≠ .gt := by
      rintro rfl
      have hlt : (shape y).compare (shape x) = some .lt := by
        rw [compare_swap, ho]
        rfl
      exact absurd (compare_eq_lt_iff.mp hlt).2.2 (not_lt.mpr hle)
    have hsome : UnpackedFloat.le (shape x) (shape y) = true := by
      unfold UnpackedFloat.le
      rw [ho]
      cases o with
      | lt => rfl
      | eq => rfl
      | gt => exact absurd rfl hnot
    exact decide_eq_true hsome

protected lemma not_lt_of_le (h : x ≤ y) : ¬y < x := fun hlt =>
  absurd (lt_iff.mp hlt).2.2 (not_lt.mpr (le_iff.mp h).2.2)

protected lemma le_of_not_lt (hx : shape x ≠ .notANumber) (hy : shape y ≠ .notANumber) (h : ¬y < x) :
    x ≤ y :=
  le_iff.mpr ⟨hx, hy, not_lt.mp fun hlt => h (lt_iff.mpr ⟨hy, hx, hlt⟩)⟩

protected lemma lt_of_lt_of_le (hxy : x < y) (hyz : y ≤ z) : x < z := by
  obtain ⟨hx, -, hlt⟩ := lt_iff.mp hxy
  obtain ⟨-, hz, hle⟩ := le_iff.mp hyz
  exact lt_iff.mpr ⟨hx, hz, hlt.trans_le hle⟩

protected lemma lt_of_le_of_lt (hxy : x ≤ y) (hyz : y < z) : x < z := by
  obtain ⟨hx, -, hle⟩ := le_iff.mp hxy
  obtain ⟨-, hz, hlt⟩ := lt_iff.mp hyz
  exact lt_iff.mpr ⟨hx, hz, hle.trans_lt hlt⟩

end TemporalAlgebra.Binary64
