import TemporalAlgebra.Box.Basic
import TemporalAlgebra.Point

/-!
# Boxes of space and time

A spatiotemporal box has an extent in the plane or in space, an extent in time, or both. It bounds
temporal points.
-/
namespace TemporalAlgebra

/-- The numbers from `min` to `max`. -/
structure Extent where
  min : Float
  max : Float
deriving BEq

namespace Extent

def ofNumber (x : Float) : Extent := ⟨x, x⟩

/-- What stands for an absent extent where a number is wanted. -/
def absent : Extent := ⟨0.0, 0.0⟩

/-- Neither end may be NaN, and the ends have to be in order. -/
def check (e : Extent) (axis : String) : Result Unit :=
  require (!(e.min.isNaN || e.max.isNaN || decide (e.max < e.min)))
    (.invalidArgValue ("Invalid " ++ axis ++ " extent [" ++ Decimal.plain e.min ++ ", " ++
      Decimal.plain e.max ++ "]"))

def hull (a b : Extent) : Extent := ⟨Binary64.min a.min b.min, Binary64.max a.max b.max⟩

def common (a b : Extent) : Extent := ⟨Binary64.max a.min b.min, Binary64.min a.max b.max⟩

/-- Whether two extents have a number in common. -/
def meets (a b : Extent) : Bool := decide (a.min <= b.max) && decide (b.min <= a.max)

def contains (a b : Extent) : Bool := decide (a.min <= b.min) && decide (b.max <= a.max)

def containsNumber (e : Extent) (x : Float) : Bool := decide (e.min <= x) && decide (x <= e.max)

end Extent

/-- An extent in the plane, or in space when there are elevations. -/
structure Space where
  x : Extent
  y : Extent
  z : Option Extent
deriving BEq

/-- An extent in space and an extent in time, either of which may be absent. -/
structure STBox where
  space : Option Space
  period : Option Period
  /-- Number of the spatial reference system. -/
  srid : Integer
  geodetic : Bool
deriving BEq

namespace STBox

/-- A spatial box with checked extents. -/
def ofSpace (space : Space) (srid : Integer) : Result STBox := do
  space.x.check "x"
  space.y.check "y"
  if let some z := space.z then z.check "z"
  return ⟨some space, none, srid, false⟩

/-- A box in the plane; a refusal is reported. -/
def newPlane (x y : Extent) (srid : Integer) : Result STBox :=
  reported (ofSpace ⟨x, y, none⟩ srid)

/-- A box in space; a refusal is reported. -/
def newSpace (x y z : Extent) (srid : Integer) : Result STBox :=
  reported (ofSpace ⟨x, y, some z⟩ srid)

/-- A box with an extent in time only. -/
def ofPeriod (p : Period) : STBox := ⟨none, some p, unknownSrid, false⟩

def ofPoint (p : Point) : STBox :=
  ⟨some ⟨.ofNumber p.x, .ofNumber p.y, p.z.map .ofNumber⟩, none, p.srid, false⟩

def withPeriod (b : STBox) (p : Period) : STBox := { b with period := some p }

def withSrid (b : STBox) (srid : Integer) : STBox := { b with srid := srid }

/-- The box on the sphere or in the plane. -/
def withGeodetic (b : STBox) (geodetic : Bool) : STBox := { b with geodetic := geodetic }

def ofPointTime (p : Point) (t : Timestamp) : STBox := (ofPoint p).withPeriod (.singleton t)

/-- Whether the box has an extent in space. -/
def hasX (b : STBox) : Bool := b.space.isSome

def z (b : STBox) : Option Extent := b.space.bind Space.z

def hasZ (b : STBox) : Bool := b.z.isSome

/-- Whether the box has an extent in time. -/
def hasT (b : STBox) : Bool := b.period.isSome

/-- Extent along the first axis, zero when absent. -/
def xExtent (b : STBox) : Extent := (b.space.map Space.x).getD .absent

/-- Extent along the second axis, zero when absent. -/
def yExtent (b : STBox) : Extent := (b.space.map Space.y).getD .absent

/-- Extent along the third axis, zero when absent. -/
def zExtent (b : STBox) : Extent := b.z.getD .absent

/-- Whether a point lies in the spatial extent; it does when there is none. Elevations count when
the box and the point have them. -/
def containsPoint (b : STBox) (p : Point) : Bool :=
  match b.space with
  | none => true
  | some s =>
    s.x.containsNumber p.x && s.y.containsNumber p.y &&
      (match s.z, p.z with
        | some e, some z => e.containsNumber z
        | _, _ => true)

/-- The smallest box over two boxes; the first one decides whether there are elevations. -/
def hull (a b : STBox) : STBox :=
  let period := TemporalBox.hullOfPresent Span.hull a.period b.period
  match a.space, b.space with
  | some s, some t =>
    let z :=
      match s.z, t.z with
      | some e, some f => some (e.hull f)
      | e, _ => e
    { a with space := some ⟨s.x.hull t.x, s.y.hull t.y, z⟩, period := period }
  | none, some t => { a with space := some t, srid := b.srid, period := period }
  | _, none => { a with period := period }

/-- Spatial boxes have to agree on the reference system, and all boxes on the surface. -/
def requireSystem (a b : STBox) : Result Unit := do
  require (!(a.hasX && b.hasX && a.srid != b.srid))
    (.invalidArg ("Operation on mixed SRID " ++ Decimal.ofInt a.srid.val ++ " and " ++
      Decimal.ofInt b.srid.val))
  require (a.geodetic == b.geodetic) (.invalidArg "Operation on mixed planar and geodetic boxes")

/-- The boxes have to have an extent in common. -/
def requireCommon (a b : STBox) : Result Unit := do
  requireSystem a b
  require ((a.hasX && b.hasX) || (a.hasT && b.hasT))
    (.invalidArg "The boxes must share at least one dimension")

/-- The union of boxes with the same extents. -/
def union (a b : STBox) : Result STBox := do
  requireSystem a b
  require (a.hasX == b.hasX && a.hasZ == b.hasZ && a.hasT == b.hasT)
    (.invalidArg "The boxes must have the same dimensions")
  return a.hull b

/-- Whether relations hold on every extent in common. -/
def onCommon (ofExtents : Extent → Extent → Bool) (ofPeriods : Period → Period → Bool)
    (a b : STBox) : Bool :=
  let ofSpaces (s t : Space) : Bool :=
    ofExtents s.x t.x && ofExtents s.y t.y && TemporalBox.whereBoth ofExtents s.z t.z
  TemporalBox.whereBoth ofSpaces a.space b.space &&
    TemporalBox.whereBoth ofPeriods a.period b.period

/-- Whether boxes meet on every extent in common. -/
def meets (a b : STBox) : Bool := onCommon Extent.meets Span.overlaps a b

/-- The common part on the extents in common, none when they are apart. -/
def intersection (a b : STBox) : Result (Option STBox) := do
  requireCommon a b
  if !a.meets b then return none
  let period := (TemporalBox.commonWhereBoth Span.intersection a.period b.period).join
  match a.space, b.space with
  | some s, some t =>
    let z :=
      match s.z, t.z with
      | some e, some f => some (e.common f)
      | _, _ => none
    return some ⟨some ⟨s.x.common t.x, s.y.common t.y, z⟩, period, a.srid, a.geodetic⟩
  | _, _ => return some ⟨none, period, unknownSrid, a.geodetic⟩

/-- Whether boxes with an extent in common meet. -/
def overlaps (a b : STBox) : Result Bool := do
  requireCommon a b
  return a.meets b

/-- Whether `b` lies within `a` on the extents in common. -/
def contains (a b : STBox) : Result Bool := do
  requireCommon a b
  return onCommon Extent.contains Span.contains a b

/-- Whether `a` lies within `b` on the extents in common. -/
def contained (a b : STBox) : Result Bool := b.contains a

/-- Whether each box lies within the other on the extents in common. -/
def same (a b : STBox) : Result Bool := do
  let there ← a.contains b
  if there then b.contains a else return false

/-- Whether a relation holds of the extents along an axis of the plane, which both boxes must
have. -/
def byPlane (axis : Space → Extent) (relation : Extent → Extent → Bool) (a b : STBox) :
    Result Bool := do
  requireSystem a b
  match a.space, b.space with
  | some s, some t => return relation (axis s) (axis t)
  | _, _ => refuse (.invalidArg "The boxes must have an XY dimension")

/-- Whether a relation holds of the elevations, which both boxes must have. -/
def byElevation (relation : Extent → Extent → Bool) (a b : STBox) : Result Bool := do
  requireSystem a b
  match a.z, b.z with
  | some e, some f => return relation e f
  | _, _ => refuse (.invalidArg "The boxes must have a Z dimension")

/-- Whether `a` ends before `b` starts along the first axis. -/
def left : STBox → STBox → Result Bool := byPlane Space.x fun e f => decide (e.max < f.min)

/-- Whether `a` ends no later than `b` along the first axis. -/
def overleft : STBox → STBox → Result Bool := byPlane Space.x fun e f => decide (e.max <= f.max)

/-- Whether `a` starts after `b` ends along the first axis. -/
def right : STBox → STBox → Result Bool := byPlane Space.x fun e f => decide (f.max < e.min)

/-- Whether `a` starts no earlier than `b` along the first axis. -/
def overright : STBox → STBox → Result Bool := byPlane Space.x fun e f => decide (f.min <= e.min)

/-- Whether `a` ends before `b` starts along the second axis. -/
def below : STBox → STBox → Result Bool := byPlane Space.y fun e f => decide (e.max < f.min)

/-- Whether `a` ends no later than `b` along the second axis. -/
def overbelow : STBox → STBox → Result Bool := byPlane Space.y fun e f => decide (e.max <= f.max)

/-- Whether `a` starts after `b` ends along the second axis. -/
def above : STBox → STBox → Result Bool := byPlane Space.y fun e f => decide (f.max < e.min)

/-- Whether `a` starts no earlier than `b` along the second axis. -/
def overabove : STBox → STBox → Result Bool := byPlane Space.y fun e f => decide (f.min <= e.min)

/-- Whether `a` ends before `b` starts in elevation. -/
def front : STBox → STBox → Result Bool := byElevation fun e f => decide (e.max < f.min)

/-- Whether `a` starts after `b` ends in elevation. -/
def back : STBox → STBox → Result Bool := byElevation fun e f => decide (f.max < e.min)

/-- Whether a relation holds of the extents in time, which both boxes must have. -/
def byTime (relation : Period → Period → Bool) (a b : STBox) : Result Bool := do
  requireSystem a b
  match a.period, b.period with
  | some p, some q => return relation p q
  | _, _ => refuse (.invalidArg "The boxes must have a time dimension")

/-- All relations of boxes by name. -/
def relations : List (String × (STBox → STBox → Result Bool)) :=
  [("overlaps", overlaps), ("contains", contains), ("contained", contained), ("same", same),
    ("left", left), ("overleft", overleft), ("right", right), ("overright", overright),
    ("below", below), ("overbelow", overbelow), ("above", above), ("overabove", overabove),
    ("front", front), ("back", back), ("before", byTime Span.left),
    ("overbefore", byTime Span.overleft), ("after", byTime Span.right),
    ("overafter", byTime Span.overright)]

/-- Text of a spatial extent, with at most `places` decimals. -/
def spaceText (s : Space) (places : Nat) : String :=
  let f (x : Float) : String := Decimal.fixed x places
  match s.z with
  | some z => "((" ++ f s.x.min ++ "," ++ f s.y.min ++ "," ++ f z.min ++ "),(" ++ f s.x.max ++ "," ++
      f s.y.max ++ "," ++ f z.max ++ "))"
  | none => "((" ++ f s.x.min ++ "," ++ f s.y.min ++ "),(" ++ f s.x.max ++ "," ++ f s.y.max ++ "))"

/-- Text of a box, with at most `places` decimals. -/
def text (b : STBox) (places : Nat) : String :=
  let name := if b.geodetic then "GEODSTBOX " else "STBOX "
  match b.space, b.period with
  | some s, some p =>
    Point.sridText b.srid ++ name ++ (if s.z.isSome then "ZT(" else "XT(") ++
      spaceText s places ++ "," ++ p.text places ++ ")"
  | some s, none =>
    Point.sridText b.srid ++ name ++ (if s.z.isSome then "Z" else "X") ++ spaceText s places
  | none, some p => name ++ "T(" ++ p.text places ++ ")"
  | none, none => name ++ "()"

/-- Order by period, then by space: absent spaces first, then the lower and the upper ends. -/
def order (a b : STBox) : Ordering :=
  let byEnd (f : STBox → Float) : Ordering := Binary64.totalOrder (f a) (f b)
  (TemporalBox.orderAbsentFirst Span.order a.period b.period).then <|
  (compare a.hasX b.hasX).then <|
  (byEnd fun c => c.xExtent.min).then <|
  (byEnd fun c => c.yExtent.min).then <|
  (byEnd fun c => c.zExtent.min).then <|
  (byEnd fun c => c.xExtent.max).then <|
  (byEnd fun c => c.yExtent.max).then <|
  (byEnd fun c => c.zExtent.max).then <|
  compare a.srid b.srid

instance : TemporalBox STBox where
  period := STBox.period
  setPeriod := STBox.withPeriod
  hull := STBox.hull
  overlaps := STBox.meets
  order := STBox.order
  text := STBox.text

/-- Read the coordinates of a corner, `count` of them. -/
def readCorner (error : Error) (count : Nat) (cs : List Char) : Result (List Float) := do
  let inner ← orRefuse (Text.unwrap '(' ')' (Text.trim cs)) error
  let coordinates ← (Text.splitAll ',' inner).mapM fun part =>
    orRefuse (Decimal.readFloat? (Text.trim part)) error
  require (coordinates.length == count) error
  return coordinates

def ofCorners (srid : Integer) : List Float → List Float → Error → Result STBox
  | [x1, y1], [x2, y2], _ => ofSpace ⟨⟨x1, x2⟩, ⟨y1, y2⟩, none⟩ srid
  | [x1, y1, z1], [x2, y2, z2], _ => ofSpace ⟨⟨x1, x2⟩, ⟨y1, y2⟩, some ⟨z1, z2⟩⟩ srid
  | _, _, error => refuse error

/-- Read the spatial box between two corners with `count` coordinates each. -/
def readSpace (error : Error) (srid : Integer) (count : Nat) (cs : List Char) : Result STBox := do
  match ← Text.splitTopLevel cs with
  | [low, high] =>
    let low ← readCorner error count low
    let high ← readCorner error count high
    ofCorners srid low high error
  | _ => refuse error

def dropName (cs : List Char) : Option (Bool × List Char) :=
  let upper := cs.map Char.toUpper
  if (Text.dropStart "GEODSTBOX".toList upper).isSome then some (true, cs.drop 9)
  else if (Text.dropStart "STBOX".toList upper).isSome then some (false, cs.drop 5)
  else none

/-- Read a box: perhaps `SRID=n;`, then `STBOX` or `GEODSTBOX`, then one of `X`, `Z`, `T`, `XT`,
`ZT` and the extents in parentheses. -/
def read (input : List Char) : Result STBox := do
  let error : Error :=
    .textInput ("Could not parse spatiotemporal box '" ++ String.ofList input ++ "'")
  let (srid, body) ← splitSrid input
  let (geodetic, body) ← orRefuse (dropName body) error
  let (dims, after) ← orRefuse (Text.splitOnce '(' (Text.trimStart body)) error
  let inner ←
    match (Text.trimEnd after).reverse with
    | ')' :: back => pure back.reverse
    | _ => refuse error
  let srid := srid.getD unknownSrid
  let timed (count : Nat) : Result STBox := do
    match ← Text.splitTopLevel inner with
    | [space, period] =>
      let corners ← orRefuse (Text.unwrap '(' ')' (Text.trim space)) error
      let box ← readSpace error srid count corners
      return box.withPeriod (← Span.read period)
    | _ => refuse error
  let box ←
    match (Text.trim dims).map Char.toUpper with
    | ['X'] => readSpace error srid 2 inner
    | ['Z'] => readSpace error srid 3 inner
    | ['X', 'T'] => timed 2
    | ['Z', 'T'] => timed 3
    | ['T'] => return (ofPeriod (← Span.read inner)).withGeodetic geodetic
    | _ => refuse error
  return box.withGeodetic geodetic

/-- Read a box from a string and report a refusal. -/
def parse (input : String) : Result STBox := reported (read input.toList)

end STBox

end TemporalAlgebra
