import TemporalAlgebra.Span.Basic

/-!
# Points

Points in the plane or in space with the number of their spatial reference system, zero when it is
not known.
-/
namespace TemporalAlgebra

/-- A point in the plane, or in space when it has an elevation. -/
structure Point where
  x : Float
  y : Float
  z : Option Float
  /-- Number of the spatial reference system. -/
  srid : Integer
deriving BEq

/-- The number of a reference system that is not known. -/
def unknownSrid : Integer := Signed.clamp 0

/-- Split `SRID=n;` off the start of a text, if it starts so. -/
def splitSrid (cs : List Char) : Result (Option Integer × List Char) := do
  let body := Text.trimStart cs
  match ← Text.dropWord "SRID=" body with
  | none => return (none, body)
  | some tail =>
    let (number, rest) ← orRefuse (Text.splitOnce ';' tail)
      (.textInput ("Missing ';' after SRID in '" ++ String.ofList cs ++ "'"))
    let srid ← orRefuse (Decimal.readSigned? (Text.trim number))
      (.textInput ("Invalid SRID '" ++ String.ofList number ++ "'"))
    return (some srid, Text.trimStart rest)

namespace Point

def hasZ (p : Point) : Bool := p.z.isSome

def withSrid (p : Point) (srid : Integer) : Point := { p with srid := srid }

def isFinite (p : Point) : Bool :=
  Binary64.isFinite p.x && Binary64.isFinite p.y && p.z.all Binary64.isFinite

/-- Distance of two points, in space when both have an elevation. -/
def distance (p q : Point) : Float :=
  let planar := Binary64.hypot (p.x - q.x) (p.y - q.y)
  match p.z, q.z with
  | some z1, some z2 => Binary64.hypot planar (z1 - z2)
  | _, _ => planar

/-- The point at a fraction of the way from `p` to `q`. -/
def lerp (p q : Point) (ratio : Float) : Point :=
  let z :=
    match p.z, q.z with
    | some z1, some z2 => some (z1 + (z2 - z1) * ratio)
    | _, _ => none
  ⟨p.x + (q.x - p.x) * ratio, p.y + (q.y - p.y) * ratio, z, p.srid⟩

/-- Text of a point without its reference system, with at most `places` decimals. -/
def text (p : Point) (places : Nat) : String :=
  let plane := Decimal.fixed p.x places ++ " " ++ Decimal.fixed p.y places
  match p.z with
  | some z => "POINT Z(" ++ plane ++ " " ++ Decimal.fixed z places ++ ")"
  | none => "POINT(" ++ plane ++ ")"

/-- Text in front of a spatial value whose reference system is known. -/
def sridText (srid : Integer) : String :=
  if srid.val = 0 then "" else "SRID=" ++ Decimal.ofInt srid.val ++ ";"

def display (p : Point) : String := sridText p.srid ++ p.text usualPlaces

/-- Read a point: `POINT(x y)`, `POINT Z(x y z)` or `POINT(x y z)`, perhaps after `SRID=n;`. -/
def read (input : List Char) : Result Point := do
  let (srid, body) ← splitSrid (Text.trim input)
  let quoted := "'" ++ String.ofList input ++ "'"
  let rest ← orRefuse (Text.dropStart "POINT".toList (body.map Char.toUpper))
    (.textInput ("Could not parse point " ++ quoted))
  let rest := Text.trimStart rest
  let (explicitZ, rest) :=
    match rest with
    | 'Z' :: more => (true, Text.trimStart more)
    | _ => (false, rest)
  let inner ← orRefuse (Text.unwrap '(' ')' rest)
    (.textInput ("Missing parentheses in point " ++ quoted))
  let coordinates ← (Text.words inner).mapM fun word =>
    orRefuse (Decimal.readFloat? word)
      (.textInput ("Invalid coordinate '" ++ String.ofList word ++ "' in " ++ quoted))
  let srid := srid.getD unknownSrid
  match coordinates, explicitZ with
  | [x, y], false => return ⟨x, y, none, srid⟩
  | [x, y, z], _ => return ⟨x, y, some z, srid⟩
  | _, _ => refuse (.textInput ("Wrong number of coordinates in point " ++ quoted))

def parse (input : String) : Result Point := read input.toList

end Point

end TemporalAlgebra
