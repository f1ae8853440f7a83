import TemporalAlgebra.Number.Signed

/-!
# Binary floating point numbers of 64 bits

A finite number is read as `± mantissa * 2 ^ exponent`, and everything that needs its exact
value (rounding to integers, the total order, conversion to bounded integers) is done there in
integer arithmetic. Sums, products and comparisons are those of `Float`.
-/
namespace TemporalAlgebra.Binary64

/-- What the 64 bits of a number say. -/
inductive Parts where
  | nan
  | infinite (negative : Bool)
  /-- The number `mantissa * 2 ^ exponent`, with its sign. -/
  | finite (negative : Bool) (mantissa : Nat) (exponent : Int)
deriving DecidableEq, Repr

def parts (x : Float) : Parts :=
  let bits := x.toBits.toNat
  let negative := decide (2 ^ 63 ≤ bits)
  let exponent : Nat := bits / 2 ^ 52 % 2 ^ 11
  let fraction : Nat := bits % 2 ^ 52
  if exponent = 2047 then
    if fraction = 0 then .infinite negative else .nan
  else if exponent = 0 then .finite negative fraction (-1074)
  else .finite negative (fraction + 2 ^ 52) ((exponent : Int) - 1075)

def infinity : Float := 1.0 / 0.0

/-- Neither infinite nor a NaN. -/
def isFinite (x : Float) : Bool :=
  match parts x with
  | .finite .. => true
  | _ => false

/-- Position in the total order: the negative numbers by falling bits, then the positive ones by
rising bits, so that `-0.0` stands before `0.0` and NaN last. -/
def orderKey (x : Float) : Int :=
  let bits := x.toBits.toNat
  if 2 ^ 63 ≤ bits then -(bits - 2 ^ 63 : Nat) - 1 else bits

theorem orderKey_lt (x : Float) : orderKey x < 2 ^ 63 := by
  have h : x.toBits.toNat < 2 ^ 64 := x.toBits.toNat_lt
  unfold orderKey
  simp only
  split <;> omega

/-- How many positions of the total order lie above a number. -/
def positionsAbove (x : Float) : Nat := (2 ^ 63 - orderKey x).toNat

theorem positionsAbove_lt {x y : Float} (h : orderKey x < orderKey y) :
    positionsAbove y < positionsAbove x := by
  have := orderKey_lt y
  unfold positionsAbove
  omega

def totalOrder (x y : Float) : Ordering := compare (orderKey x) (orderKey y)

/-- Ways to take a magnitude to an integer. -/
inductive Rounding where
  | down
  | up
  | halfUp
deriving DecidableEq, Repr

/-- The integer next to `mantissa * 2 ^ exponent`. -/
def Rounding.magnitude (mode : Rounding) (mantissa : Nat) (exponent : Int) : Nat :=
  if 0 ≤ exponent then mantissa * 2 ^ exponent.toNat
  else
    let unit := 2 ^ (-exponent).toNat
    match mode with
    | .down => mantissa / unit
    | .up => (mantissa + (unit - 1)) / unit
    | .halfUp => (mantissa + unit / 2) / unit

def withSign (negative : Bool) (n : Nat) : Int := if negative then -(n : Int) else n

/-- The nearest integer, halves away from zero; none for infinities and NaN. -/
def nearest? (x : Float) : Option Int :=
  match parts x with
  | .finite negative m e => some (withSign negative (Rounding.halfUp.magnitude m e))
  | _ => none

/-- The greatest integer at or below a finite number. -/
def floor? (x : Float) : Option Int :=
  match parts x with
  | .finite true m e => some (withSign true (Rounding.up.magnitude m e))
  | .finite false m e => some (withSign false (Rounding.down.magnitude m e))
  | _ => none

/-- The least integer at or above a finite number. -/
def ceil? (x : Float) : Option Int :=
  match parts x with
  | .finite true m e => some (withSign true (Rounding.down.magnitude m e))
  | .finite false m e => some (withSign false (Rounding.up.magnitude m e))
  | _ => none

/-- The number nearest to an integer, ties to even. -/
def ofInt (n : Int) : Float := Float.ofInt n

/-- An integral value as a number; a zero keeps the sign of `x`. Infinities and NaN stay. -/
def integral (x : Float) (value : Option Int) : Float :=
  match value with
  | none => x
  | some 0 => if x.toBits.toNat < 2 ^ 63 then 0.0 else -0.0
  | some n => ofInt n

/-- Largest integral number at or below `x`. -/
def floor (x : Float) : Float := integral x (floor? x)

/-- Smallest integral number at or above `x`. -/
def ceil (x : Float) : Float := integral x (ceil? x)

/-- Integral number nearest to `x`, halves away from zero. -/
def round (x : Float) : Float := integral x (nearest? x)

/-- A finite number without fractional part. -/
def isIntegral (x : Float) : Bool :=
  match floor? x, ceil? x with
  | some a, some b => a == b
  | _, _ => false

/-- The nearest integer brought into the range of `Signed w`; zero for NaN. -/
def toSigned {w : Nat} (x : Float) : Signed w :=
  match parts x with
  | .nan => Signed.clamp 0
  | .infinite negative => if negative then Signed.minimum else Signed.maximum
  | .finite negative m e => Signed.clamp (withSign negative (Rounding.halfUp.magnitude m e))

/-- The smaller number; a NaN gives way to the other operand. -/
def min (x y : Float) : Float := if x.isNaN then y else if y < x then y else x

/-- The larger number; a NaN gives way to the other operand. -/
def max (x y : Float) : Float := if x.isNaN then y else if x < y then y else x

/-- The nearest number between two ends. -/
def clamp (x lo hi : Float) : Float :=
  let raised := if x < lo then lo else x
  if hi < raised then hi else raised

/-- The sum of the numbers from left to right. The sum of none is `-0.0`. -/
def sum (xs : List Float) : Float := xs.foldl (· + ·) (-0.0)

/-- Powers by squaring, low bit first: `product` times `base ^ n`. -/
def powerFrom (product base : Float) (n : Nat) : Float :=
  let product := if n % 2 = 1 then product * base else product
  if h : n / 2 = 0 then product
  else powerFrom product (base * base) (n / 2)
termination_by n
decreasing_by omega

/-- Integral power; negative exponents take the reciprocal. -/
def power (base : Float) (n : Int) : Float :=
  let p := powerFrom 1.0 base n.natAbs
  if n < 0 then 1.0 / p else p

/-- Length of the vector `(x, y)` for `0 ≤ y ≤ x` of moderate size: the square root of the sum
of squares less a correction of its rounding error. -/
def lengthKernel (x y : Float) : Float :=
  let h := (x * x + y * y).sqrt
  let (t1, t2) :=
    if h <= 2.0 * y then
      let d := h - y
      (x * (2.0 * d - x), (d - 2.0 * (x - y)) * d)
    else
      let d := h - x
      (2.0 * d * (x - 2.0 * y), (4.0 * d - y) * y + d * d)
  h - (t1 + t2) / (2.0 * h)

/-- The power of two `2 ^ n` as a number, for `-1022 ≤ n ≤ 1023`. -/
def twoPower (n : Int) : Float := Float.ofBits (UInt64.ofNat ((n + 1023).toNat * 2 ^ 52))

/-- Length of the vector `(x, y)`. Large and small vectors are scaled first. -/
def hypot (x y : Float) : Float :=
  let ax := if x.abs < y.abs then y.abs else x.abs
  let ay := if x.abs < y.abs then x.abs else y.abs
  if x.isInf || y.isInf then infinity
  else if x.isNaN || y.isNaN then 0.0 / 0.0
  else
    let tiny := twoPower (-54)
    let scale := twoPower (-600)
    if twoPower 511 < ax then
      if ay <= ax * tiny then ax + ay
      else lengthKernel (ax * scale) (ay * scale) / scale
    else if ay < twoPower (-459) then
      if ay / tiny <= ax then ax + ay
      else lengthKernel (ax / scale) (ay / scale) * scale
    else if ay <= ax * tiny then ax + ay
    else lengthKernel ax ay

end TemporalAlgebra.Binary64
