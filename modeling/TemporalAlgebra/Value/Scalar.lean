import TemporalAlgebra.Value.Basic

/-!
# Truth values, numbers and texts

Truth values and texts are bounded by the period alone, numbers by a box of values and time. Only
floating point numbers are continuous.
-/
namespace TemporalAlgebra

open Binary

/-- Read a truth value: `t`, `true`, `f` or `false` in any case. -/
def readTruth (cs : List Char) : Result Bool :=
  let word := String.ofList (Decimal.lowerAscii (Text.trim cs))
  if word == "t" || word == "true" then .ok true
  else if word == "f" || word == "false" then .ok false
  else refuse (.textInput ("Invalid boolean '" ++ word ++ "'"))

instance : TemporalValue Bool where
  baseType := .bool
  order a b := compare a b
  read _ := readTruth
  text b _ := if b then "t" else "f"
  write b _ := [if b then 1 else 0]
  readForm _ := do
    match ← Reader.nat 1 with
    | 0 => return false
    | 1 => return true
    | other => Reader.fail ("Invalid boolean byte " ++ Decimal.ofNat other)
  Box := Period
  temporalType := .tbool
  instantBox _ t := Period.singleton t

/-- The result of a computation with integers, if it fits. -/
def inRange (found : Option Integer) (operation : String) : Result Integer :=
  orRefuse found (.outOfRange ("Integer overflow in " ++ operation))

def integerOfFloat (x : Float) : Result Integer :=
  orRefuse ((Binary64.nearest? x).bind Signed.ofInt?)
    (.outOfRange ("Value " ++ Decimal.plain x ++ " does not fit in an integer"))

def integerDistance (a b : Integer) : Float :=
  (Binary64.ofInt a.val - Binary64.ofInt b.val).abs

instance : NumericValue Integer where
  baseType := .int
  order a b := compare a b
  read _ cs := SpanDomain.readInteger "integer" (Text.trim cs)
  text a _ := Decimal.ofInt a.val
  write a v := putInt v 4 a.val
  readForm _ := SpanDomain.readWord 4
  Box := TBox
  temporalType := .tint
  instantBox a t := TBox.ofValueTime (Binary64.ofInt a.val) t
  gap a b := some (integerDistance a b)
  distance := integerDistance
  closest _ _ _ _ := none
  zero := Signed.clamp 0
  toFloat a := Binary64.ofInt a.val
  ofFloat := integerOfFloat
  add a b := inRange (a.add? b) "addition"
  sub a b := inRange (a.sub? b) "subtraction"
  mul a b := inRange (a.mul? b) "multiplication"
  div a b := if b.val = 0 then refuse .divisionByZero else inRange (a.div? b) "division"
  debug a := Decimal.ofInt a.val
  numberBox b := b

/-- Value at a fraction of the way between two numbers. -/
def lerp (start stop ratio : Float) : Float := start + (stop - start) * ratio

/-- Fraction of the way from `start` to `stop` at which a number between them is reached. -/
def locateNumber (start stop x : Float) : Option Float :=
  if start == stop then none
  else
    let (lo, hi) := if start < stop then (start, stop) else (stop, start)
    if x < lo ∨ hi < x then none
    else some (Binary64.clamp ((x - start) / (stop - start)) 0.0 1.0)

instance : NumericValue Float where
  baseType := .float
  order := Binary64.totalOrder
  read _ := SpanDomain.readNumber
  text := Decimal.fixed
  write x v := putFloat v x
  readForm _ := Reader.float
  Box := TBox
  temporalType := .tfloat
  continuous := true
  instantBox := TBox.ofValueTime
  interpolate := lerp
  collinear start middle stop ratio := nearlyEqual middle (lerp start stop ratio)
  locate := locateNumber
  crossing start1 stop1 start2 stop2 := linearRoot (start1 - start2) (stop1 - stop2)
  gap x y := some (x - y).abs
  distance x y := (x - y).abs
  closest start1 stop1 start2 stop2 := linearRoot (start1 - start2) (stop1 - stop2)
  zero := 0.0
  toFloat x := x
  ofFloat x := .ok x
  add x y := .ok (x + y)
  sub x y := .ok (x - y)
  mul x y := .ok (x * y)
  div x y := if y == 0.0 then refuse .divisionByZero else .ok (x / y)
  debug := Decimal.explicit
  numberBox b := b

namespace Quoted

/-- Put a backslash before every `mark`. -/
def escape (mark : Char) : List Char → List Char
  | [] => []
  | c :: rest => if c == mark then '\\' :: c :: escape mark rest else c :: escape mark rest

/-- Drop the backslash before every `mark`, from left to right. -/
def unescape (mark : Char) : List Char → List Char
  | [] => []
  | [c] => [c]
  | c :: d :: rest =>
    if c == '\\' && d == mark then d :: unescape mark rest else c :: unescape mark (d :: rest)

/-- A text between quotes, with a backslash before quotes and backslashes. -/
def write (cs : List Char) : List Char := '"' :: escape '"' (escape '\\' cs) ++ ['"']

/-- The characters that a text without quotes must not have. -/
def isSpecial (c : Char) : Bool :=
  c == '"' || c == ',' || c == '@' || c == '\x7b' || c == '\x7d' || c == '[' || c == ']'

/-- Read a text between quotes, or one without special characters. White space around it does not
count. -/
def read (cs : List Char) : Result String :=
  let cs := Text.trim cs
  match Text.unwrap '"' '"' cs with
  | some inner => .ok (String.ofList (unescape '\\' (unescape '"' inner)))
  | none =>
    if cs.any isSpecial then
      refuse (.textInput ("Text value '" ++ String.ofList cs ++ "' must be quoted"))
    else .ok (String.ofList cs)

end Quoted

/-- Order of texts by their characters. -/
def orderText : List Char → List Char → Ordering
  | [], [] => .eq
  | [], _ :: _ => .lt
  | _ :: _, [] => .gt
  | c :: cs, d :: ds => (compare c.toNat d.toNat).then (orderText cs ds)

instance : TemporalValue String where
  baseType := .text
  order a b := orderText a.toList b.toList
  read _ := Quoted.read
  text s _ := String.ofList (Quoted.write s.toList)
  write s v :=
    let bytes := encodeText s.toList
    putNat v 8 bytes.length ++ bytes
  readForm _ := do
    let size ← Reader.nat 8
    let bytes ← Reader.take size
    match decodeText bytes with
    | .ok cs => return String.ofList cs
    | .error fault => Reader.fail ("Invalid UTF-8 text: " ++ fault.message)
  Box := Period
  temporalType := .ttext
  instantBox _ t := Period.singleton t

end TemporalAlgebra
