import TemporalAlgebra.Binary.Hex
import TemporalAlgebra.Binary.Utf8
import TemporalAlgebra.Catalog

/-!
# Writing binary forms

A variant chooses the byte order and whether spatial values carry their reference system. Written
parts are byte sequences that are put one behind the other.
-/
namespace TemporalAlgebra.Binary

/-- Choices for a binary form, as a set of flags. -/
structure Variant where
  bits : UInt8
deriving DecidableEq, Repr

namespace Variant

/-- Least byte first. -/
def littleEndian : Variant := ⟨0x08⟩

/-- Least byte last. -/
def bigEndian : Variant := ⟨0x10⟩

/-- Spatial values carry their reference system. -/
def extended : Variant := ⟨0x04⟩

/-- The variant that is used without a choice. -/
def standard : Variant := littleEndian

/-- The choices of two variants together. -/
def or (a b : Variant) : Variant := ⟨a.bits ||| b.bits⟩

def named : List (String × Variant) :=
  [("NDR", littleEndian), ("XDR", bigEndian), ("EXT", extended), ("EXTENDED", extended),
    ("DEFAULT", standard)]

/-- Whether all choices of `other` are made. -/
def contains (v other : Variant) : Bool := v.bits &&& other.bits == other.bits

/-- Whether the least byte comes first. -/
def little (v : Variant) : Bool := !v.contains bigEndian

/-- Whether spatial values carry their reference system. -/
def isExtended (v : Variant) : Bool := v.contains extended

end Variant

/-- The mark of the byte order, which starts every binary form. -/
def putOrder (v : Variant) : Bytes := [if v.little then 1 else 0]

/-- A natural number in `width` bytes. -/
def putNat (v : Variant) (width n : Nat) : Bytes := toBytes v.little width n

def putInt (v : Variant) (width : Nat) (n : Int) : Bytes := putNat v width (complement width n)

/-- The bits of a number in eight bytes. -/
def putFloat (v : Variant) (x : Float) : Bytes := putNat v 8 x.toBits.toNat

/-- A count of elements, which has to fit in four bytes. -/
def putCount (v : Variant) (n : Nat) : Result Bytes :=
  if n < 2 ^ 32 then .ok (putNat v 4 n)
  else refuse (.binaryOutput ("Too many elements: " ++ Decimal.ofNat n))

def putType (v : Variant) (t : TypeTag) : Bytes := putNat v 2 t.id

end TemporalAlgebra.Binary
