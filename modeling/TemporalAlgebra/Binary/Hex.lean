import TemporalAlgebra.Binary.Word
import TemporalAlgebra.Number.Decimal
import TemporalAlgebra.Text.Split

/-!
# Hexadecimal text

Bytes as pairs of hexadecimal digits, written in upper case and read in either.
-/
namespace TemporalAlgebra.Binary

def hexDigit (upper : Bool) (n : Nat) : Char :=
  if n < 10 then Char.ofNat (48 + n) else Char.ofNat ((if upper then 55 else 87) + n)

/-- The hexadecimal digits of a number in a fixed width. -/
def hexDigits (upper : Bool) : Nat → Nat → List Char
  | 0, _ => []
  | width + 1, n => hexDigits upper width (n / 16) ++ [hexDigit upper (n % 16)]

/-- Bytes as text in upper case. -/
def toHex (bytes : Bytes) : String :=
  String.ofList (bytes.flatMap fun b => hexDigits true 2 b.toNat)

/-- The value of a hexadecimal digit. -/
def hexValue? (b : Nat) : Option Nat :=
  if 48 ≤ b ∧ b ≤ 57 then some (b - 48)
  else if 65 ≤ b ∧ b ≤ 70 then some (b - 55)
  else if 97 ≤ b ∧ b ≤ 102 then some (b - 87)
  else none

/-- Digits of a number in hexadecimal, without leading zeros. -/
def hexNumber (n : Nat) : List Char :=
  if n < 16 then hexDigits false 1 n else hexDigits false 2 n

/-- A byte between quotes, as the character of that code; what is not seen in print is escaped. -/
def quotedByte (b : Nat) : String :=
  let inner : List Char :=
    if b = 0 then ['\\', '0']
    else if b = 9 then ['\\', 't']
    else if b = 10 then ['\\', 'n']
    else if b = 13 then ['\\', 'r']
    else if b = 39 then ['\\', '\'']
    else if b = 92 then ['\\', '\\']
    else if b < 32 ∨ (127 ≤ b ∧ b ≤ 160) ∨ b = 173 then
      ['\\', 'u', '\x7b'] ++ hexNumber b ++ ['\x7d']
    else [Char.ofNat b]
  String.ofList ('\'' :: inner ++ ['\''])

/-- The bytes of pairs of digits from a position on. -/
def pairs (position : Nat) : Bytes → Result Bytes
  | high :: low :: rest => do
    let digit (b : UInt8) (position : Nat) : Result Nat :=
      orRefuse (hexValue? b.toNat) (.binaryInput ("Invalid hex string: Invalid character " ++
        quotedByte b.toNat ++ " at position " ++ Decimal.ofNat position))
    let h ← digit high position
    let l ← digit low (position + 1)
    let bytes ← pairs (position + 2) rest
    return UInt8.ofNat (h * 16 + l) :: bytes
  | _ => .ok []

/-- Read bytes from hexadecimal text. -/
def ofHex (cs : List Char) : Result Bytes := do
  let bytes := cs.flatMap String.utf8EncodeChar
  require (bytes.length % 2 == 0) (.binaryInput "Invalid hex string: Odd number of digits")
  pairs 0 bytes

end TemporalAlgebra.Binary
