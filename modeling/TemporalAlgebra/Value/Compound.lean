import TemporalAlgebra.Box.STBox
import TemporalAlgebra.Value.Scalar

/-!
# Points and pairs as values

Points move along straight segments and are bounded by a box of space and time. Pairs of numbers
carry the sum and the count of an average.
-/
namespace TemporalAlgebra

open Binary

namespace Point

/-- A vector of space. -/
structure Vector where
  x : Float
  y : Float
  z : Float

/-- The vector to a point; its elevation is zero in the plane. -/
def vector (p : Point) : Vector := ⟨p.x, p.y, p.z.getD 0.0⟩

def Vector.sub (a b : Vector) : Vector := ⟨a.x - b.x, a.y - b.y, a.z - b.z⟩

def Vector.dot (a b : Vector) : Float := Binary64.sum [a.x * b.x, a.y * b.y, a.z * b.z]

/-- Fraction of the way along a segment at which it comes within the tolerance of a point. -/
def locate (start stop p : Point) : Option Float :=
  let d := stop.vector.sub start.vector
  let size := d.dot d
  if size == 0.0 then none
  else
    let r := ((p.vector.sub start.vector).dot d) / size
    if -tolerance <= r ∧ r <= 1.0 + tolerance then
      let r := Binary64.clamp r 0.0 1.0
      if (start.lerp stop r).distance p <= tolerance then some r else none
    else none

/-- Fraction strictly inside two segments that run side by side at which they are closest: the
minimum of the square of their relative position, which changes linearly. -/
def closest (start1 stop1 start2 stop2 : Point) : Option Float :=
  let d0 := start1.vector.sub start2.vector
  let dv := (stop1.vector.sub stop2.vector).sub d0
  let size := dv.dot dv
  if size == 0.0 then none else inside? (-(d0.dot dv) / size)

/-- Fraction strictly inside two segments that run side by side at which they meet. -/
def crossing (start1 stop1 start2 stop2 : Point) : Option Float := do
  let r ← closest start1 stop1 start2 stop2
  if (start1.lerp stop1 r).distance (start2.lerp stop2 r) <= tolerance then some r else none

/-- The refusal of values in different reference systems. -/
def mixedSrid (a b : Integer) : Error :=
  .invalidArg ("Operation on mixed SRID " ++ Decimal.ofInt a.val ++ " and " ++ Decimal.ofInt b.val)

/-- Points go together when they have one reference system and both or none have elevations. -/
def compatible (p q : Point) : Result Unit := do
  require (p.srid == q.srid) (mixedSrid p.srid q.srid)
  require (p.hasZ == q.hasZ) (.invalidArg "Operation on mixed 2D/3D dimensions")

/-- Order by first, second and third coordinate, points of the plane first, then by reference
system. -/
def order (p q : Point) : Ordering :=
  (Binary64.totalOrder p.x q.x).then <|
  (Binary64.totalOrder p.y q.y).then <|
  (TemporalBox.orderAbsentFirst Binary64.totalOrder p.z q.z).then <|
  compare p.srid q.srid

/-- Read a point of a whole whose reference system is known. -/
def readIn (context : ValueContext) (cs : List Char) : Result Point := do
  let p ← read cs
  if p.srid.val = 0 then return p.withSrid context.srid
  else
    require (context.srid.val == 0 || p.srid == context.srid)
      (.invalidArg ("Point SRID " ++ Decimal.ofInt p.srid.val ++ " differs from SRID " ++
        Decimal.ofInt context.srid.val))
    return p

end Point

instance : MetricValue Point where
  baseType := .geometry
  order := Point.order
  read := Point.readIn
  text := Point.text
  write p v := putFloat v p.x ++ putFloat v p.y ++ (p.z.map (putFloat v)).getD []
  readForm context := do
    let x ← Reader.float
    let y ← Reader.float
    let z ← if context.hasZ then some <$> Reader.float else pure none
    return ⟨x, y, z, context.srid⟩
  Box := STBox
  temporalType := .tgeompoint
  continuous := true
  instantBox := STBox.ofPointTime
  interpolate := Point.lerp
  collinear start middle stop ratio :=
    decide ((start.lerp stop ratio).distance middle <= tolerance)
  locate := Point.locate
  crossing := Point.crossing
  compatible := Point.compatible
  context p := ⟨p.srid, p.hasZ⟩
  gap p q := some (p.distance q)
  distance := Point.distance
  closest := Point.closest

/-- Two numbers side by side. -/
structure Pair where
  a : Float
  b : Float
deriving BEq

namespace Pair

/-- The pair at a fraction of the way between two pairs. -/
def lerp (start stop : Pair) (ratio : Float) : Pair :=
  ⟨TemporalAlgebra.lerp start.a stop.a ratio, TemporalAlgebra.lerp start.b stop.b ratio⟩

def add (p q : Pair) : Pair := ⟨p.a + q.a, p.b + q.b⟩

/-- Read a pair: two numbers in parentheses. -/
def read (cs : List Char) : Result Pair := do
  let error : Error := .textInput ("Invalid double2 '" ++ String.ofList cs ++ "'")
  let inner ← orRefuse (Text.unwrap '(' ')' (Text.trim cs)) error
  let (a, b) ← orRefuse (Text.splitOnce ',' inner) error
  return ⟨← SpanDomain.readNumber a, ← SpanDomain.readNumber b⟩

end Pair

instance : TemporalValue Pair where
  baseType := .double2
  order p q := (Binary64.totalOrder p.a q.a).then (Binary64.totalOrder p.b q.b)
  read _ := Pair.read
  text p places := "(" ++ Decimal.fixed p.a places ++ ", " ++ Decimal.fixed p.b places ++ ")"
  write p v := putFloat v p.a ++ putFloat v p.b
  readForm _ := do
    let a ← Reader.float
    let b ← Reader.float
    return ⟨a, b⟩
  Box := Period
  temporalType := .tdouble2
  continuous := true
  instantBox _ t := Period.singleton t
  interpolate := Pair.lerp
  collinear start middle stop ratio :=
    let expected := start.lerp stop ratio
    nearlyEqual middle.a expected.a && nearlyEqual middle.b expected.b

end TemporalAlgebra
