import TemporalAlgebra.Number.Decimal
import TemporalAlgebra.Text.Blank

/-!
# The catalog of types

Every type that has a binary or text form is listed with its number, its name and what may be
done with its values. Numbers and names are stable.
-/
namespace TemporalAlgebra

/-- The listed types. -/
inductive TypeTag where
  | bool
  | date
  | dateSet
  | dateSpan
  | dateSpanSet
  | double2
  | float
  | floatSet
  | floatSpan
  | floatSpanSet
  | int
  | intSet
  | intSpan
  | intSpanSet
  | bigint
  | bigintSet
  | bigintSpan
  | bigintSpanSet
  | stbox
  | tbool
  | tbox
  | tdouble2
  | text
  | textSet
  | tfloat
  | timestamptz
  | tint
  | tstzSet
  | tstzSpan
  | tstzSpanSet
  | ttext
  | geometry
  | tgeompoint
deriving DecidableEq, Repr

/-- The families of types. -/
inductive TypeCategory where
  | base
  | set
  | span
  | spanSet
  | box
  | temporal
deriving DecidableEq, Repr

def TypeCategory.name : TypeCategory → String
  | base => "Base"
  | set => "Set"
  | span => "Span"
  | spanSet => "SpanSet"
  | box => "Box"
  | temporal => "Temporal"

/-- What is known of a type. -/
structure TypeInfo where
  /-- Type of the elements; none for base types and boxes. -/
  element : Option TypeTag
  category : TypeCategory
  /-- Whether values of the base type may be interpolated. -/
  continuous : Bool
  byValue : Bool
  /-- Bytes of an encoded base value, if their count is fixed. -/
  width : Option Nat
deriving DecidableEq, Repr

namespace TypeTag

/-- The listed types, by rising number. -/
def all : List TypeTag :=
  [.bool, .date, .dateSet, .dateSpan, .dateSpanSet, .double2, .float, .floatSet, .floatSpan,
   .floatSpanSet, .int, .intSet, .intSpan, .intSpanSet, .bigint, .bigintSet, .bigintSpan,
   .bigintSpanSet, .stbox, .tbool, .tbox, .tdouble2, .text, .textSet, .tfloat, .timestamptz,
   .tint, .tstzSet, .tstzSpan, .tstzSpanSet, .ttext, .geometry, .tgeompoint]

/-- Number of a type in binary forms. -/
def id : TypeTag → Nat
  | bool => 1
  | date => 2
  | dateSet => 5
  | dateSpan => 6
  | dateSpanSet => 7
  | double2 => 8
  | float => 11
  | floatSet => 12
  | floatSpan => 13
  | floatSpanSet => 14
  | int => 15
  | intSet => 18
  | intSpan => 19
  | intSpanSet => 20
  | bigint => 21
  | bigintSet => 22
  | bigintSpan => 23
  | bigintSpanSet => 24
  | stbox => 25
  | tbool => 26
  | tbox => 27
  | tdouble2 => 28
  | text => 31
  | textSet => 32
  | tfloat => 33
  | timestamptz => 34
  | tint => 35
  | tstzSet => 38
  | tstzSpan => 39
  | tstzSpanSet => 40
  | ttext => 41
  | geometry => 42
  | tgeompoint => 46

def name : TypeTag → String
  | bool => "bool"
  | date => "date"
  | dateSet => "dateset"
  | dateSpan => "datespan"
  | dateSpanSet => "datespanset"
  | double2 => "double2"
  | float => "float"
  | floatSet => "floatset"
  | floatSpan => "floatspan"
  | floatSpanSet => "floatspanset"
  | int => "int"
  | intSet => "intset"
  | intSpan => "intspan"
  | intSpanSet => "intspanset"
  | bigint => "bigint"
  | bigintSet => "bigintset"
  | bigintSpan => "bigintspan"
  | bigintSpanSet => "bigintspanset"
  | stbox => "stbox"
  | tbool => "tbool"
  | tbox => "tbox"
  | tdouble2 => "tdouble2"
  | text => "text"
  | textSet => "textset"
  | tfloat => "tfloat"
  | timestamptz => "timestamptz"
  | tint => "tint"
  | tstzSet => "tstzset"
  | tstzSpan => "tstzspan"
  | tstzSpanSet => "tstzspanset"
  | ttext => "ttext"
  | geometry => "geometry"
  | tgeompoint => "tgeompoint"

def ofId? (n : Nat) : Option TypeTag := all.find? fun t => t.id == n

/-- Look a type up by its number. -/
def ofId (n : Nat) : Result TypeTag :=
  orRefuse (ofId? n) (.invalidArgType ("Unknown type tag " ++ Decimal.ofNat n))

/-- Look a type up by its name, in any case and with white space around it. -/
def ofName (name : String) : Result TypeTag :=
  let wanted := String.ofList (Decimal.lowerAscii (Text.trim name.toList))
  orRefuse (all.find? fun t => t.name == wanted)
    (.invalidArgType ("Unknown type name '" ++ name ++ "'"))

def base (width : Option Nat) (byValue continuous : Bool) : TypeInfo :=
  ⟨none, .base, continuous, byValue, width⟩

def container (category : TypeCategory) (element : TypeTag) (continuous : Bool) : TypeInfo :=
  ⟨some element, category, continuous, false, none⟩

/-- What is known of a type. -/
def info : TypeTag → TypeInfo
  | bool => base (some 1) true false
  | date => base (some 4) true false
  | int => base (some 4) true false
  | bigint => base (some 8) true false
  | float => base (some 8) true true
  | timestamptz => base (some 8) true true
  | double2 => base (some 16) false true
  | text => base none false false
  | geometry => base none false true
  | intSet => container .set int false
  | bigintSet => container .set bigint false
  | floatSet => container .set float true
  | dateSet => container .set date false
  | tstzSet => container .set timestamptz true
  | textSet => container .set text false
  | intSpan => container .span int false
  | bigintSpan => container .span bigint false
  | floatSpan => container .span float true
  | dateSpan => container .span date false
  | tstzSpan => container .span timestamptz true
  | intSpanSet => container .spanSet int false
  | bigintSpanSet => container .spanSet bigint false
  | floatSpanSet => container .spanSet float true
  | dateSpanSet => container .spanSet date false
  | tstzSpanSet => container .spanSet timestamptz true
  | tbox => ⟨none, .box, true, false, none⟩
  | stbox => ⟨none, .box, true, false, none⟩
  | tbool => container .temporal bool false
  | tint => container .temporal int false
  | tfloat => container .temporal float true
  | ttext => container .temporal text false
  | tdouble2 => container .temporal double2 true
  | tgeompoint => container .temporal geometry true

end TypeTag

end TemporalAlgebra
