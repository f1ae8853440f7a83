/-!
# Words

Natural numbers and integers as a fixed count of bytes, least byte first or last.
-/
namespace TemporalAlgebra.Binary

-- Powers are the built-in ones, whatever other instances are in scope.
attribute [instance (1100), default_instance (10100)] instPowNat

abbrev Bytes := List UInt8

/-- The `width` low bytes of a number, least byte first. -/
def toLittle : Nat → Nat → Bytes
  | 0, _ => []
  | width + 1, n => UInt8.ofNat (n % 256) :: toLittle width (n / 256)

/-- The number with the given bytes, least byte first. -/
def ofLittle : Bytes → Nat
  | [] => 0
  | b :: rest => b.toNat + 256 * ofLittle rest

/-- The `width` low bytes of a number in the given order. -/
def toBytes (little : Bool) (width n : Nat) : Bytes :=
  if little then toLittle width n else (toLittle width n).reverse

/-- The number with the given bytes in the given order. -/
def ofBytes (little : Bool) (bytes : Bytes) : Nat :=
  ofLittle (if little then bytes else bytes.reverse)

/-- The two's complement of an integer as a natural number of `width` bytes. -/
def complement (width : Nat) (n : Int) : Nat := (n % (256 ^ width : Nat)).toNat

/-- The integer of a two's complement of `width` bytes. -/
def signed (width n : Nat) : Int :=
  if 2 * n < 256 ^ width then n else (n : Int) - (256 ^ width : Nat)

@[simp] theorem length_toLittle (width n : Nat) : (toLittle width n).length = width := by
  induction width generalizing n with
  | zero => rfl
  | succ width ih => simp [toLittle, ih]

@[simp] theorem length_toBytes (little : Bool) (width n : Nat) :
    (toBytes little width n).length = width := by
  cases little <;> simp [toBytes]

end TemporalAlgebra.Binary
