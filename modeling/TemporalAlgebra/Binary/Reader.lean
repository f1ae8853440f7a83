import TemporalAlgebra.Binary.Writer

/-!
# Reading binary forms

A reader walks over bytes that it checks to be there, in the byte order that the form names. After
a refusal it stands where it was refused.
-/
namespace TemporalAlgebra.Binary

/-- What is left to read, and in which order. -/
structure Cursor where
  bytes : Bytes
  little : Bool := true
deriving DecidableEq, Repr

abbrev Reader (α : Type) := ExceptT Failure (StateM Cursor) α

namespace Reader

def fail {α : Type} (text : String) : Reader α := throw (.refused (.binaryInput text) 0)

/-- Check that `n` bytes are left. -/
def need (n : Nat) : Reader Unit := do
  let cursor ← get
  if cursor.bytes.length < n then
    fail ("Unexpected end of input: need " ++ Decimal.ofNat n ++ " bytes, " ++
      Decimal.ofNat cursor.bytes.length ++ " left")

/-- The next `n` bytes. -/
def take (n : Nat) : Reader Bytes := do
  need n
  let cursor ← get
  set { cursor with bytes := cursor.bytes.drop n }
  return cursor.bytes.take n

/-- A natural number of `width` bytes. -/
def nat (width : Nat) : Reader Nat := do
  let bytes ← take width
  return ofBytes (← get).little bytes

def int (width : Nat) : Reader Int := do
  return signed width (← nat width)

/-- A number from its bits. -/
def float : Reader Float := do
  return Float.ofBits (UInt64.ofNat (← nat 8))

/-- Read the mark of the byte order and go on in that order. -/
def order : Reader Unit := do
  match ← nat 1 with
  | 0 => modify fun cursor => { cursor with little := false }
  | 1 => modify fun cursor => { cursor with little := true }
  | other => fail ("Invalid endian flag " ++ Decimal.ofNat other)

/-- A count of elements of at least `size` bytes each. -/
def count (size : Nat) : Reader Nat := do
  let n ← nat 4
  if n = 0 then fail "Empty collection"
  need (min (n * size) (2 ^ 64 - 1))
  return n

/-- Nothing may be left. -/
def finish : Reader Unit := do
  let cursor ← get
  if !cursor.bytes.isEmpty then
    fail (Decimal.ofNat cursor.bytes.length ++ " trailing bytes after value")

/-- Read the number of a type, which has to be that of `expected`. -/
def type (expected : TypeTag) : Reader Unit := do
  let id ← nat 2
  match TypeTag.ofId? id with
  | none => fail ("Unknown type tag " ++ Decimal.ofNat id)
  | some found =>
    if found ≠ expected then
      fail ("Expected " ++ expected.name ++ " but found " ++ found.name)

/-- Read `n` values. -/
def many {α : Type} (read : Reader α) : Nat → Reader (List α)
  | 0 => return []
  | n + 1 => do
    let a ← read
    let rest ← many read n
    return a :: rest

/-- An outcome as a reader. A refusal that is not yet one of the binary form becomes one with the
whole text of its cause. -/
def ofResult {α : Type} (outcome : Result α) : Reader α :=
  let mark (e : Error) : Error :=
    match e with
    | .binaryInput _ => e
    | other => .binaryInput other.message
  match withCause mark outcome with
  | .ok a => pure a
  | .error f => throw f

def whole {α : Type} (read : Reader α) (bytes : Bytes) : Result α :=
  let all : Reader α := do
    let a ← read
    finish
    return a
  (StateT.run (ExceptT.run all) ⟨bytes, true⟩).1

end Reader

/-- Types with a binary form. -/
class BinaryForm (α : Type) where
  write : α → Variant → Result Bytes
  read : Reader α

namespace BinaryForm

variable {α : Type} [BinaryForm α]

def encode (a : α) (v : Variant) : Result Bytes := reported (write a v)

/-- The binary form of a value as hexadecimal text. -/
def encodeHex (a : α) (v : Variant) : Result String := do
  return toHex (← encode a v)

def decode (bytes : Bytes) : Result α := reported (Reader.whole read bytes)

/-- The value of a binary form in hexadecimal text, with white space around it or not. -/
def decodeHex (text : String) : Result α := do
  let bytes ← reported (ofHex (Text.trim text.toList))
  decode bytes

end BinaryForm

end TemporalAlgebra.Binary
