import TemporalAlgebra.ValueSet

/-!
# Binary forms of spans and sets

A span is written as its flags and its bounds; a set as the count of its elements and the elements.
-/
namespace TemporalAlgebra

open Binary

namespace BoundFlags

def lowerFlag : Nat := 1

def upperFlag : Nat := 2

def write (lowerInc upperInc : Bool) : Bytes :=
  [UInt8.ofNat ((if lowerInc then lowerFlag else 0) + if upperInc then upperFlag else 0)]

/-- Text of a byte of flags in a refusal. -/
def text (flags : Nat) : String := "0x" ++ String.ofList (hexDigits false 2 flags)

/-- Read flags; all others have to be unset. -/
def read : Reader (Bool × Bool) := do
  let flags ← Reader.nat 1
  if 4 ≤ flags then Reader.fail ("Invalid bound flags " ++ text flags)
  return (flags % 2 == 1, flags / 2 % 2 == 1)

end BoundFlags

variable {α : Type} [SpanDomain α]

/-- A span without the head of its binary form. -/
def Span.writeBody (s : Span α) (v : Variant) : Bytes :=
  BoundFlags.write s.lowerInc s.upperInc ++ SpanDomain.write s.lower v ++
    SpanDomain.write s.upper v

/-- Read a span without the head of its binary form. -/
def Span.readBody : Reader (Span α) := do
  let (lowerInc, upperInc) ← BoundFlags.read
  let lower ← SpanDomain.readForm
  let upper ← SpanDomain.readForm
  Reader.ofResult (Span.make lower upper lowerInc upperInc)

/-- Bytes of an encoded value of a domain. -/
def SpanDomain.valueSize (α : Type) [SpanDomain α] : Nat :=
  (SpanDomain.baseType α).info.width.getD 1

instance : BinaryForm (Span α) where
  write s v := .ok (putOrder v ++ putType v (SpanDomain.spanType α) ++ s.writeBody v)
  read := do
    Reader.order
    Reader.type (SpanDomain.spanType α)
    Span.readBody

instance : BinaryForm (SpanSet α) where
  write s v := do
    let count ← putCount v s.spans.length
    return putOrder v ++ putType v (SpanDomain.spanSetType α) ++ count ++
      s.spans.flatMap fun x => x.writeBody v
  read := do
    Reader.order
    Reader.type (SpanDomain.spanSetType α)
    let n ← Reader.count (1 + 2 * SpanDomain.valueSize α)
    let spans ← Reader.many Span.readBody n
    Reader.ofResult (orRefuse (SpanSet.ofSpans? spans) (.binaryInput "Empty collection"))

instance : BinaryForm (ValueSet α) where
  write s v := do
    let count ← putCount v s.values.length
    return putOrder v ++ putType v (SpanDomain.setType α) ++ count ++
      s.values.flatMap fun x => SpanDomain.write x v
  read := do
    Reader.order
    Reader.type (SpanDomain.setType α)
    let n ← Reader.count (SpanDomain.valueSize α)
    let values ← Reader.many SpanDomain.readForm n
    Reader.ofResult (ValueSet.make values)

end TemporalAlgebra
