import TemporalAlgebra.Temporal.Basic
import TemporalAlgebra.Value.Scalar

/-!
# Binary form of temporal values

The form starts with the byte order, the type and one byte of flags, which holds the form of the
value, its interpolation, and whether elevations and a reference system are there. Sequences are
written as a count, their bounds and their instants.
-/
namespace TemporalAlgebra

open Binary

section

variable {V : Type} [TemporalValue V]

/-- An instant: its value, then its timestamp. -/
def Instant.writeBody (i : Instant V) (v : Variant) : Bytes :=
  BaseValue.write i.value v ++ putInt v 8 i.time.micros

/-- Read an instant. -/
def Instant.readBody (context : ValueContext) : Reader (Instant V) := do
  let value ← BaseValue.readForm context
  let time ← Reader.int 8
  return ⟨value, .nearest time⟩

def Instant.leastSize (V : Type) [TemporalValue V] : Nat :=
  8 + (BaseValue.baseType V).info.width.getD 8

/-- A sequence: the count of its instants, its bounds and its instants. -/
def Sequence.writeBody (s : Sequence V) (v : Variant) : Result Bytes := do
  let count ← putCount v s.instants.length
  return count ++ BoundFlags.write s.lowerInc s.upperInc ++ s.instants.flatMap fun i =>
    i.writeBody v

def Sequence.readBody (interp : Interpolation) (context : ValueContext) :
    Reader (Sequence V) := do
  let n ← Reader.count (Instant.leastSize V)
  let (lowerInc, upperInc) ← BoundFlags.read
  let instants ← Reader.many (Instant.readBody context) n
  Reader.ofResult (Sequence.make instants lowerInc upperInc interp false)

/-- What the byte of flags says. -/
structure TemporalFlags where
  subtype : Nat
  interp : Nat
  hasZ : Bool
  hasGeodetic : Bool := false
  hasSrid : Bool

namespace TemporalFlags

/-- Flags as one number. -/
def code (f : TemporalFlags) : Nat :=
  f.subtype + 4 * f.interp + (if f.hasZ then 0x10 else 0) +
    (if f.hasGeodetic then 0x20 else 0) + if f.hasSrid then 0x40 else 0

/-- The flags of a number, which has no others. -/
def ofCode? (n : Nat) : Option TemporalFlags :=
  if n < 0x80 then
    some ⟨n % 4, n / 4 % 4, n / 0x10 % 2 == 1, n / 0x20 % 2 == 1, n / 0x40 % 2 == 1⟩
  else none

end TemporalFlags

namespace Temporal

def flags (t : Temporal V) (withSrid : Bool) : TemporalFlags :=
  { subtype := t.subtype.code
    interp := match t with
      | instant _ => 0
      | other => other.interp.code
    hasZ := (TemporalValue.context t.firstInstant.value).hasZ
    hasSrid := withSrid }

/-- A value behind its flags. -/
def writeBody (t : Temporal V) (v : Variant) : Result Bytes :=
  match t with
  | instant i => .ok (i.writeBody v)
  | sequence s => s.writeBody v
  | sequenceSet s => do
    let count ← putCount v s.sequences.length
    let bodies ← s.sequences.mapM fun x => x.writeBody v
    return count ++ bodies.flatten

def readSet (interp : Interpolation) (context : ValueContext) : Reader (SequenceSet V) := do
  let n ← Reader.count (4 + 1 + Instant.leastSize V)
  let sequences ← Reader.many (Sequence.readBody interp context) n
  Reader.ofResult (SequenceSet.make sequences false)

/-- Read a value behind its flags. -/
def readBody (flags : TemporalFlags) : Reader (Temporal V) := do
  let some subtype := Subtype.ofCode? flags.subtype
    | Reader.fail ("Invalid temporal subtype " ++ Decimal.ofNat flags.subtype)
  let srid : Integer ← if flags.hasSrid then SpanDomain.readWord 4 else pure unknownSrid
  let context : ValueContext := ⟨srid, flags.hasZ⟩
  let interp : Reader Interpolation :=
    match Interpolation.ofCode? flags.interp with
    | some i => pure i
    | none => Reader.fail ("Invalid interpolation code " ++ Decimal.ofNat flags.interp)
  match subtype with
  | .instant => return instant (← Instant.readBody context)
  | .sequence => return sequence (← Sequence.readBody (← interp) context)
  | .sequenceSet => return sequenceSet (← readSet (← interp) context)

end Temporal

instance : BinaryForm (Temporal V) where
  write t v := do
    let srid := (TemporalValue.context t.firstInstant.value).srid
    let withSrid := v.isExtended && srid != unknownSrid
    let body ← t.writeBody v
    return putOrder v ++ putType v (TemporalValue.temporalType V) ++
      putNat v 1 (t.flags withSrid).code ++ (if withSrid then putInt v 4 srid.val else []) ++ body
  read := do
    Reader.order
    Reader.type (TemporalValue.temporalType V)
    let n ← Reader.nat 1
    let some flags := TemporalFlags.ofCode? n
      | Reader.fail ("Invalid temporal flags " ++ BoundFlags.text n)
    Temporal.readBody flags

end

end TemporalAlgebra
