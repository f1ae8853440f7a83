import TemporalAlgebra.Box.STBox
import TemporalAlgebra.Box.TBox
import TemporalAlgebra.SpanSet.Form

/-!
# Binary forms of boxes

A box is written as flags that say which extents it has, then the extents. Boxes carry no type.
-/
namespace TemporalAlgebra

open Binary

namespace BoxFlags

/-- Flag of an extent in values or in space. -/
def x : Nat := 0x01

/-- Flag of an extent in time. -/
def t : Nat := 0x02

def z : Nat := 0x10

def geodetic : Nat := 0x20

def srid : Nat := 0x40

def combine (flags : List (Bool × Nat)) : Nat :=
  flags.foldl (fun n (on, flag) => if on then n ||| flag else n) 0

def has (flags flag : Nat) : Bool := flags &&& flag != 0

/-- Whether no other flags are set. -/
def only (allowed flags : Nat) : Bool := flags &&& (0xFF - allowed) == 0

end BoxFlags

instance : BinaryForm TBox where
  write b v :=
    .ok (putOrder v ++
      [UInt8.ofNat (BoxFlags.combine [(b.hasX, BoxFlags.x), (b.hasT, BoxFlags.t)])] ++
      (match b.span with
        | some s => s.writeBody v
        | none => []) ++
      match b.period with
        | some p => p.writeBody v
        | none => [])
  read := do
    Reader.order
    let flags ← Reader.nat 1
    if !BoxFlags.only (BoxFlags.x ||| BoxFlags.t) flags then
      Reader.fail ("Invalid temporal box flags " ++ BoundFlags.text flags)
    let span ← if BoxFlags.has flags BoxFlags.x then some <$> Span.readBody else pure none
    let period ← if BoxFlags.has flags BoxFlags.t then some <$> Span.readBody else pure none
    if span.isNone && period.isNone then
      Reader.fail "A temporal box needs a value or a time dimension"
    return ⟨span, period⟩

namespace STBox

def writeSpace (s : Space) (v : Variant) : Bytes :=
  let extent (e : Extent) : Bytes := putFloat v e.min ++ putFloat v e.max
  extent s.x ++ extent s.y ++ (s.z.map extent).getD []

def readExtent : Reader Extent := do
  let min ← Reader.float
  let max ← Reader.float
  return ⟨min, max⟩

/-- Read a spatial extent, with elevations or without. -/
def readSpaceForm (elevated : Bool) : Reader Space := do
  let x ← readExtent
  let y ← readExtent
  let z ← if elevated then some <$> readExtent else pure none
  return ⟨x, y, z⟩

/-- The box of the parts of a binary form. The reference system belongs to the spatial extent. -/
def ofParts (space : Option Space) (period : Option Period) (srid : Integer) (geodetic : Bool) :
    Result STBox := do
  match space, period with
  | some s, _ => return { ← ofSpace s srid with period := period, geodetic := geodetic }
  | none, some p => return (ofPeriod p).withGeodetic geodetic
  | none, none =>
    refuse (.binaryInput "A spatiotemporal box needs a spatial or a time dimension")

end STBox

instance : BinaryForm STBox where
  write b v :=
    let withSrid := v.isExtended && b.srid.val != 0
    let flags := BoxFlags.combine [(b.hasX, BoxFlags.x), (b.hasT, BoxFlags.t),
      (b.hasZ, BoxFlags.z), (b.geodetic, BoxFlags.geodetic), (withSrid, BoxFlags.srid)]
    .ok (putOrder v ++ [UInt8.ofNat flags] ++
      (if withSrid then putInt v 4 b.srid.val else []) ++
      (match b.space with
        | some s => STBox.writeSpace s v
        | none => []) ++
      match b.period with
        | some p => p.writeBody v
        | none => [])
  read := do
    Reader.order
    let flags ← Reader.nat 1
    let allowed := BoxFlags.x ||| BoxFlags.t ||| BoxFlags.z ||| BoxFlags.geodetic ||| BoxFlags.srid
    if !BoxFlags.only allowed flags then
      Reader.fail ("Invalid spatiotemporal box flags " ++ BoundFlags.text flags)
    let srid ← if BoxFlags.has flags BoxFlags.srid then SpanDomain.readWord 4 else pure unknownSrid
    let space ←
      if BoxFlags.has flags BoxFlags.x then
        some <$> STBox.readSpaceForm (BoxFlags.has flags BoxFlags.z)
      else pure none
    let period ← if BoxFlags.has flags BoxFlags.t then some <$> Span.readBody else pure none
    Reader.ofResult (STBox.ofParts space period srid (BoxFlags.has flags BoxFlags.geodetic))

end TemporalAlgebra
