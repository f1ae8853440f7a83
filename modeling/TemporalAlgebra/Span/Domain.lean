import TemporalAlgebra.Binary.Reader
import TemporalAlgebra.Time.Date

/-!
# Domains of spans

The ordered types that spans, span sets and value sets range over: integers of 32 and of 64 bits,
floating point numbers, dates and timestamps. Integers and dates are discrete: every element but
the last has a successor.
-/
namespace TemporalAlgebra

open Binary

/-- An ordered type that spans range over. -/
class SpanDomain (α : Type) extends BEq α where
  /-- Shifts and widths. -/
  Delta : Type
  baseType : TypeTag
  setType : TypeTag
  spanType : TypeTag
  spanSetType : TypeTag
  /-- Spans of a discrete domain are kept in the form `[lower, upper)`. -/
  discrete : Bool
  /-- Factor from a difference of native positions to a distance. -/
  distanceUnit : Float
  order : α → α → Ordering
  /-- Next element of a discrete domain; the element itself in the others. -/
  successor : α → Result α
  addDelta : α → Delta → Result α
  /-- The delta from the second to the first element. -/
  delta : α → α → Result Delta
  /-- Position on the real line, in native units. -/
  native : α → Float
  /-- The element at a position, rounded in discrete domains. -/
  ofNative : Float → Result α
  deltaNative : Delta → Float
  isValid : α → Bool
  read : List Char → Result α
  /-- Text with at most so many decimals. -/
  text : α → Nat → String
  /-- Text that shows the kind of the element too. -/
  debug : α → String
  write : α → Variant → Bytes
  readForm : Reader α

namespace SpanDomain

def outOfRange (what : String) : Error := .outOfRange (what ++ " out of range")

/-- The integer nearest to a number, if the number lies between the ends of `Signed w` as numbers.
From 54 bits on the upper end is read as `2 ^ w`, which is brought back to the greatest element. -/
def ofReal {w : Nat} (what : String) (x : Float) : Result (Signed w) :=
  let upper : Int := if w ≤ 53 then 2 ^ w - 1 else 2 ^ w
  match Binary64.nearest? x with
  | some n =>
    if -2 ^ w ≤ n ∧ n ≤ upper then .ok (Signed.clamp n) else refuse (outOfRange what)
  | none => refuse (outOfRange what)

/-- Read an integer without white space. -/
def readInteger {w : Nat} (what : String) (cs : List Char) : Result (Signed w) :=
  orRefuse (Decimal.readSigned? cs)
    (.textInput ("Invalid " ++ what ++ " '" ++ String.ofList cs ++ "'"))

/-- Read a number with white space around it. -/
def readNumber (cs : List Char) : Result Float :=
  let cs := Text.trim cs
  orRefuse (Decimal.readFloat? cs) (.textInput ("Invalid float '" ++ String.ofList cs ++ "'"))

/-- Read an integer of `Signed w` in two's complement. -/
def readWord {w : Nat} (width : Nat) : Reader (Signed w) := do
  return Signed.clamp (← Reader.int width)

end SpanDomain

open SpanDomain in
instance : SpanDomain Integer where
  Delta := Integer
  baseType := .int
  setType := .intSet
  spanType := .intSpan
  spanSetType := .intSpanSet
  discrete := true
  distanceUnit := 1.0
  order a b := compare a b
  successor a := orRefuse (Signed.ofInt? (a.val + 1)) (SpanDomain.outOfRange "Integer")
  addDelta a d := orRefuse (a.add? d) (SpanDomain.outOfRange "Integer")
  delta a b := orRefuse (a.sub? b) (SpanDomain.outOfRange "Integer difference")
  native a := Binary64.ofInt a.val
  ofNative x := ofReal "Integer" x
  deltaNative d := Binary64.ofInt d.val
  isValid _ := true
  read cs := readInteger "integer" cs
  text a _ := Decimal.ofInt a.val
  debug a := Decimal.ofInt a.val
  write a v := putInt v 4 a.val
  readForm := readWord 4

open SpanDomain in
instance : SpanDomain Bigint where
  Delta := Bigint
  baseType := .bigint
  setType := .bigintSet
  spanType := .bigintSpan
  spanSetType := .bigintSpanSet
  discrete := true
  distanceUnit := 1.0
  order a b := compare a b
  successor a := orRefuse (Signed.ofInt? (a.val + 1)) (SpanDomain.outOfRange "Bigint")
  addDelta a d := orRefuse (a.add? d) (SpanDomain.outOfRange "Bigint")
  delta a b := orRefuse (a.sub? b) (SpanDomain.outOfRange "Bigint difference")
  native a := Binary64.ofInt a.val
  ofNative x := ofReal "Bigint" x
  deltaNative d := Binary64.ofInt d.val
  isValid _ := true
  read cs := readInteger "bigint" cs
  text a _ := Decimal.ofInt a.val
  debug a := Decimal.ofInt a.val
  write a v := putInt v 8 a.val
  readForm := readWord 8

open SpanDomain in
instance : SpanDomain Float where
  Delta := Float
  baseType := .float
  setType := .floatSet
  spanType := .floatSpan
  spanSetType := .floatSpanSet
  discrete := false
  distanceUnit := 1.0
  order := Binary64.totalOrder
  successor x := .ok x
  addDelta x d := .ok (x + d)
  delta x y := .ok (x - y)
  native x := x
  ofNative x := .ok x
  deltaNative d := d
  isValid x := !x.isNaN
  read := readNumber
  text := Decimal.fixed
  debug := Decimal.explicit
  write x v := putFloat v x
  readForm := Reader.float

open SpanDomain in
instance : SpanDomain Date where
  Delta := Integer
  baseType := .date
  setType := .dateSet
  spanType := .dateSpan
  spanSetType := .dateSpanSet
  discrete := true
  distanceUnit := 1.0
  order a b := compare a b
  successor a := orRefuse (Date.ofDays? (a.days + 1)) (SpanDomain.outOfRange "Date")
  addDelta a d := orRefuse (Date.ofDays? (a.days + d.val)) (SpanDomain.outOfRange "Date")
  delta a b := orRefuse (a.ticks.sub? b.ticks) (SpanDomain.outOfRange "Date difference")
  native a := Binary64.ofInt a.days
  ofNative x := (ofReal "Date" x).map Date.mk
  deltaNative d := Binary64.ofInt d.val
  isValid _ := true
  read := Date.read
  text a _ := a.text
  debug a := "Date(" ++ Decimal.ofInt a.days ++ ")"
  write a v := putInt v 4 a.days
  readForm := Date.mk <$> readWord 4

open SpanDomain in
instance : SpanDomain Timestamp where
  Delta := Interval
  baseType := .timestamptz
  setType := .tstzSet
  spanType := .tstzSpan
  spanSetType := .tstzSpanSet
  discrete := false
  distanceUnit := 1e-6
  order a b := compare a b
  successor t := .ok t
  addDelta := Timestamp.shift
  delta a b := do
    let n ← orRefuse (a.ticks.sub? b.ticks) (SpanDomain.outOfRange "Interval")
    return .ofMicros n.val
  native t := Binary64.ofInt t.micros
  ofNative x := (ofReal "Timestamp" x).map Timestamp.mk
  deltaNative d :=
    match d.micros? with
    | some n => Binary64.ofInt n.val
    | none => Binary64.ofInt d.wholeDays * Binary64.ofInt Timestamp.dayMicros
  isValid _ := true
  read cs := Timestamp.read (Text.dropEndWhile (· == '"') (cs.dropWhile (· == '"')))
  text t _ := t.text
  debug t := "TimestampTz(" ++ Decimal.ofInt t.micros ++ ")"
  write t v := putInt v 8 t.micros
  readForm := Timestamp.mk <$> readWord 8

end TemporalAlgebra
