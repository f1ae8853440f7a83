/-!
# Bounded integers

`Signed w` holds the integers from `-2 ^ w` to `2 ^ w - 1`. Arithmetic is done on the values and
the result is brought back by `Signed.ofInt?`, which refuses what does not fit, or by
`Signed.clamp`, which takes the nearest end of the range.
-/
namespace TemporalAlgebra

-- Powers are the built-in ones, whatever other instances are in scope.
attribute [instance (1100), default_instance (10100)] instPowNat

/-- Integers from `-2 ^ w` to `2 ^ w - 1`. -/
structure Signed (w : Nat) where
  val : Int
  lower : -2 ^ w ≤ val
  upper : val < 2 ^ w
deriving DecidableEq

abbrev Integer := Signed 31

abbrev Bigint := Signed 63

namespace Signed

variable {w : Nat}

instance : Inhabited (Signed w) where
  default := ⟨0, by have : (0 : Int) < 2 ^ w := Int.pow_pos (by decide); omega,
    Int.pow_pos (by decide)⟩

@[ext] theorem ext {a b : Signed w} (h : a.val = b.val) : a = b := by
  cases a; cases b; simp_all

/-- The integer, if it is in range. -/
def ofInt? (n : Int) : Option (Signed w) :=
  if h : -2 ^ w ≤ n ∧ n < 2 ^ w then some ⟨n, h.1, h.2⟩ else none

/-- The nearest integer in range. -/
def clamp (n : Int) : Signed w :=
  if h : -2 ^ w ≤ n ∧ n < 2 ^ w then ⟨n, h.1, h.2⟩
  else
    have pos : (0 : Int) < 2 ^ w := Int.pow_pos (by decide)
    if n < 0 then ⟨-2 ^ w, Int.le_refl _, by omega⟩ else ⟨2 ^ w - 1, by omega, by omega⟩

def minimum : Signed w := ⟨-2 ^ w, Int.le_refl _, by
  have : (0 : Int) < 2 ^ w := Int.pow_pos (by decide); omega⟩

def maximum : Signed w := ⟨2 ^ w - 1, by
  have : (0 : Int) < 2 ^ w := Int.pow_pos (by decide); omega, by omega⟩

instance : Ord (Signed w) := ⟨fun a b => compare a.val b.val⟩

instance : LT (Signed w) := ⟨fun a b => a.val < b.val⟩

instance : LE (Signed w) := ⟨fun a b => a.val ≤ b.val⟩

instance (a b : Signed w) : Decidable (a < b) := inferInstanceAs (Decidable (a.val < b.val))

instance (a b : Signed w) : Decidable (a ≤ b) := inferInstanceAs (Decidable (a.val ≤ b.val))

/-- The sum, if it is in range. -/
def add? (a b : Signed w) : Option (Signed w) := ofInt? (a.val + b.val)

/-- The difference, if it is in range. -/
def sub? (a b : Signed w) : Option (Signed w) := ofInt? (a.val - b.val)

/-- The product, if it is in range. -/
def mul? (a b : Signed w) : Option (Signed w) := ofInt? (a.val * b.val)

/-- The quotient cut toward zero, if it is in range. The divisor is not zero. -/
def div? (a b : Signed w) : Option (Signed w) := ofInt? (Int.tdiv a.val b.val)

theorem ofInt?_eq_some {n : Int} {a : Signed w} : ofInt? n = some a ↔ n = a.val := by
  unfold ofInt?
  constructor
  · intro h
    split at h
    · cases h; rfl
    · cases h
  · rintro rfl
    rw [dif_pos ⟨a.lower, a.upper⟩]

theorem ofInt?_eq_none {n : Int} :
    (ofInt? n : Option (Signed w)) = none ↔ ¬(-2 ^ w ≤ n ∧ n < 2 ^ w) := by
  unfold ofInt?
  split <;> simp_all

@[simp] theorem clamp_val (a : Signed w) : clamp a.val = a := by
  unfold clamp
  rw [dif_pos ⟨a.lower, a.upper⟩]

theorem lt_iff {a b : Signed w} : a < b ↔ a.val < b.val := Iff.rfl

theorem le_iff {a b : Signed w} : a ≤ b ↔ a.val ≤ b.val := Iff.rfl

end Signed

end TemporalAlgebra
