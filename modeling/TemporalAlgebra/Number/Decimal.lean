import TemporalAlgebra.Number.Binary64

/-!
# Decimal text of numbers

Integers in decimal, numbers rounded to a fixed count of places (the exact binary value, ties to
even), numbers in the fewest digits that read back, and the numerals that are read.
-/
namespace TemporalAlgebra.Decimal

/-- The decimal digit of a value below ten. -/
def digitChar (d : Nat) : Char := Char.ofNat (48 + d % 10)

def digitsOnto (n : Nat) (rest : List Char) : List Char :=
  if h : n < 10 then digitChar n :: rest
  else digitsOnto (n / 10) (digitChar (n % 10) :: rest)
termination_by n
decreasing_by omega

/-- Decimal digits of a natural number, without leading zeros. -/
def digits (n : Nat) : List Char := digitsOnto n []

def ofNat (n : Nat) : String := String.ofList (digits n)

def ofInt (n : Int) : String := if n < 0 then "-" ++ ofNat n.natAbs else ofNat n.natAbs

/-- Digits of `n` with zeros in front up to `width` characters. -/
def padded (width n : Nat) : List Char :=
  List.replicate (width - (digits n).length) '0' ++ digits n

def dropTrailingZeros (cs : List Char) : List Char :=
  (cs.reverse.dropWhile (· == '0')).reverse

/-- The quotient rounded to the nearest natural number, ties to even. -/
def roundDiv (num den : Nat) : Nat :=
  let q := num / den
  let r := num % den
  if 2 * r < den then q
  else if den < 2 * r then q + 1
  else q + q % 2

/-- `mantissa * 2 ^ exponent * 10 ^ places`, rounded to a natural number, ties to even. -/
def scaled (mantissa : Nat) (exponent : Int) (places : Nat) : Nat :=
  if 0 ≤ exponent then mantissa * 2 ^ exponent.toNat * 10 ^ places
  else roundDiv (mantissa * 10 ^ places) (2 ^ (-exponent).toNat)

/-- Text of `n / 10 ^ places` without trailing zeros after the point. -/
def trimmed (n places : Nat) : List Char :=
  let fraction := dropTrailingZeros (if places = 0 then [] else padded places (n % 10 ^ places))
  digits (n / 10 ^ places) ++ if fraction.isEmpty then [] else '.' :: fraction

/-- Text of `n / 10 ^ places` with all decimals, and without a point if there are none. -/
def withPlaces (n places : Nat) : List Char :=
  digits (n / 10 ^ places) ++ if places = 0 then [] else '.' :: padded places (n % 10 ^ places)

/-- Text of `± mantissa * 2 ^ exponent` rounded to `places` decimals, all of which are shown. What is
rounded to zero keeps its sign. -/
def roundedText (negative : Bool) (mantissa : Nat) (exponent : Int) (places : Nat) : List Char :=
  let text := withPlaces (scaled mantissa exponent places) places
  if negative then '-' :: text else text

def dropTrailingPoints (cs : List Char) : List Char :=
  (cs.reverse.dropWhile (· == '.')).reverse

/-- Drop the zeros at the end of a text with a point, and the point if it is left at the end. -/
def trimPlaces (cs : List Char) : List Char :=
  if '.' ∈ cs then dropTrailingPoints (dropTrailingZeros cs) else cs

/-- Text of a number with at most `places` decimals and no trailing zeros; a number that rounds to
zero has no sign. -/
def fixed (x : Float) (places : Nat) : String :=
  match Binary64.parts x with
  | .nan => "NaN"
  | .infinite negative => if negative then "-Infinity" else "Infinity"
  | .finite negative m e =>
    let text := trimPlaces (roundedText negative m e places)
    String.ofList (if text = ['-', '0'] then ['0'] else text)

/-- A decimal number `coefficient * 10 ^ exponent`. -/
structure Scientific where
  coefficient : Nat
  exponent : Int
deriving DecidableEq, Repr

/-- The fraction `a / b` for `n * 10 ^ e`, as numerator and denominator. -/
def fractionOf (n : Nat) (base : Nat) (e : Int) : Nat × Nat :=
  if 0 ≤ e then (n * base ^ e.toNat, 1) else (n, base ^ (-e).toNat)

/-- The nearest multiple of `10 ^ grid` to `num / den` that lies strictly between `lo / den` and
`hi / den`, or on one of these ends when `closed`. Of two equally near the larger is taken. -/
def onGrid? (num lo hi den : Nat) (closed : Bool) (grid : Int) : Option Nat :=
  let (up, down) := fractionOf 1 10 grid
  -- in units of `10 ^ grid` the number is `num * down / (den * up)`
  let scale := den * up
  let below := num * down / scale
  let inside (k : Nat) : Bool :=
    if closed then decide (lo * down ≤ k * scale ∧ k * scale ≤ hi * down)
    else decide (lo * down < k * scale ∧ k * scale < hi * down)
  let aboveIsNearer := decide (num * down * 2 ≥ (2 * below + 1) * scale)
  if inside below then
    if inside (below + 1) && aboveIsNearer then some (below + 1) else some below
  else if inside (below + 1) then some (below + 1)
  else none

/-- First grid, from coarse to fine, on which a number is found. -/
def firstGrid (num lo hi den : Nat) (closed : Bool) : Int → Nat → Scientific
  | grid, 0 => ⟨num / den, grid⟩
  | grid, steps + 1 =>
    match onGrid? num lo hi den closed grid with
    | some k => ⟨k, grid⟩
    | none => firstGrid num lo hi den closed (grid - 1) steps

/-- Remove trailing zeros of the coefficient. -/
def Scientific.reduce (d : Scientific) : Nat → Scientific
  | 0 => d
  | fuel + 1 =>
    if d.coefficient % 10 = 0 ∧ d.coefficient ≠ 0 then
      Scientific.reduce ⟨d.coefficient / 10, d.exponent + 1⟩ fuel
    else d

/-- The fewest digits that read back as `mantissa * 2 ^ exponent`, the nearest of these. The
numbers that read back fill the interval up to half way to both neighbours; its ends belong to it
when the mantissa is even. -/
def shortest (mantissa : Nat) (exponent : Int) : Scientific :=
  if mantissa = 0 then ⟨0, 0⟩
  else
    -- in quarters of the last place: the half way points lie at `± 2`, below a power of two at `- 1`
    let narrow := mantissa = 2 ^ 52 ∧ exponent ≠ -1074
    let (quarter, den) := fractionOf 1 2 (exponent - 2)
    let num := 4 * mantissa * quarter
    let hi := num + 2 * quarter
    let lo := num - (if narrow then 1 else 2) * quarter
    let magnitude := (digits (num / den)).length
    let start : Int := if num / den = 0 then -((digits (den / num)).length : Int) + 2 else magnitude
    (firstGrid num lo hi den (mantissa % 2 == 0) start 24).reduce 24

def Scientific.positional (d : Scientific) : List Char :=
  if 0 ≤ d.exponent then
    if d.coefficient = 0 then ['0']
    else digits d.coefficient ++ List.replicate d.exponent.toNat '0'
  else
    let places := (-d.exponent).toNat
    digits (d.coefficient / 10 ^ places) ++ '.' :: padded places (d.coefficient % 10 ^ places)

/-- Text of a decimal number with one digit before the point and the power of ten after `e`. -/
def Scientific.withExponent (d : Scientific) : List Char :=
  let ds := digits d.coefficient
  let power := d.exponent + ds.length - 1
  let body :=
    match ds with
    | [] => []
    | [c] => [c]
    | c :: rest => c :: '.' :: rest
  body ++ 'e' :: (ofInt power).toList

/-- Text of a number in the fewest digits that read back, always positional: `1`, `0.5`, `inf`. -/
def plain (x : Float) : String :=
  match Binary64.parts x with
  | .nan => "NaN"
  | .infinite negative => if negative then "-inf" else "inf"
  | .finite negative m e =>
    let text := (shortest m e).positional
    String.ofList (if negative then '-' :: text else text)

/-- Text of a number that shows its kind: `1.0`, and a power of ten for sizes below `1e-4` and
from `1e16` on. -/
def explicit (x : Float) : String :=
  match Binary64.parts x with
  | .nan => "NaN"
  | .infinite negative => if negative then "-inf" else "inf"
  | .finite negative m e =>
    let d := shortest m e
    let size := x.abs
    let text :=
      if m != 0 && (size < 1e-4 || 1e16 <= size) then d.withExponent
      else if 0 ≤ d.exponent then d.positional ++ ['.', '0']
      else d.positional
    String.ofList (if negative then '-' :: text else text)

def isDigit (c : Char) : Bool := decide ('0' ≤ c ∧ c ≤ '9')

def value (cs : List Char) : Nat := cs.foldl (fun n c => 10 * n + (c.toNat - 48)) 0

/-- Read a natural number: at least one digit and nothing else. -/
def readNat? (cs : List Char) : Option Nat :=
  if cs.isEmpty then none else if cs.all isDigit then some (value cs) else none

/-- Read an integer: a sign or none, then digits. -/
def readInt? : List Char → Option Int
  | '-' :: cs => (readNat? cs).map fun n => -(n : Int)
  | '+' :: cs => (readNat? cs).map Int.ofNat
  | cs => (readNat? cs).map Int.ofNat

/-- Read an integer of the range of `Signed w`. -/
def readSigned? {w : Nat} (cs : List Char) : Option (Signed w) :=
  (readInt? cs).bind Signed.ofInt?

/-- The number nearest to `coefficient * 10 ^ exponent`. -/
def nearestFloat (coefficient : Nat) (exponent : Int) : Float :=
  let size := exponent + (digits coefficient).length
  if coefficient = 0 then 0.0
  else if 310 < size then Binary64.infinity
  else if size < -330 then 0.0
  else if 0 ≤ exponent then Float.ofScientific coefficient false exponent.toNat
  else Float.ofScientific coefficient true (-exponent).toNat

/-- Read an unsigned numeral: digits with at most one point among them, at least one digit, and
perhaps a power of ten. -/
def readUnsigned? (cs : List Char) : Option Float :=
  let whole := cs.takeWhile isDigit
  let rest := cs.dropWhile isDigit
  let (fraction, rest) :=
    match rest with
    | '.' :: more => (more.takeWhile isDigit, more.dropWhile isDigit)
    | _ => ([], rest)
  if whole.isEmpty && fraction.isEmpty then none
  else
    let coefficient := value (whole ++ fraction)
    let shift : Int := fraction.length
    match rest with
    | [] => some (nearestFloat coefficient (-shift))
    | c :: more =>
      if c == 'e' || c == 'E' then
        (readInt? more).map fun power => nearestFloat coefficient (power - shift)
      else none

def lowerAscii (cs : List Char) : List Char := cs.map Char.toLower

/-- Read a number: a numeral, `inf`, `infinity` or `nan` in any case, after a sign or none. -/
def readFloat? (cs : List Char) : Option Float :=
  let unsigned (cs : List Char) : Option Float :=
    let word := String.ofList (lowerAscii cs)
    if word == "inf" || word == "infinity" then some Binary64.infinity
    else if word == "nan" then some (0.0 / 0.0)
    else readUnsigned? cs
  match cs with
  | '-' :: rest => (unsigned rest).map fun x => -x
  | '+' :: rest => unsigned rest
  | _ => unsigned cs

end TemporalAlgebra.Decimal
