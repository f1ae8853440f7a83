import TemporalAlgebra.Box.Basic

/-!
# Boxes of values and time

A temporal box has an extent in values, an extent in time, or both. It bounds temporal numbers.
-/
namespace TemporalAlgebra

/-- An extent in values and an extent in time, either of which may be absent. -/
structure TBox where
  span : Option FloatSpan
  period : Option Period
deriving BEq

namespace TBox

/-- A box with at least one extent; a refusal is reported. -/
def new (span : Option FloatSpan) (period : Option Period) : Result TBox := reported do
  require (span.isSome || period.isSome)
    (.invalidArg "A temporal box needs a value or a time dimension")
  return ⟨span, period⟩

def ofValueTime (x : Float) (t : Timestamp) : TBox :=
  ⟨some ⟨x, x, true, true⟩, some (Period.singleton t)⟩

def ofSpan (s : FloatSpan) : TBox := ⟨some s, none⟩

def ofPeriod (p : Period) : TBox := ⟨none, some p⟩

/-- Whether the box has an extent in values. -/
def hasX (b : TBox) : Bool := b.span.isSome

/-- Whether the box has an extent in time. -/
def hasT (b : TBox) : Bool := b.period.isSome

def hull (a b : TBox) : TBox :=
  ⟨TemporalBox.hullOfPresent Span.hull a.span b.span,
    TemporalBox.hullOfPresent Span.hull a.period b.period⟩

/-- The boxes have to have the same extents. -/
def requireSame (a b : TBox) : Result Unit :=
  require (a.hasX == b.hasX && a.hasT == b.hasT)
    (.invalidArg "The boxes must have the same dimensions")

/-- The boxes have to have an extent in common. -/
def requireCommon (a b : TBox) : Result Unit :=
  require ((a.hasX && b.hasX) || (a.hasT && b.hasT))
    (.invalidArg "The boxes must share at least one dimension")

/-- The union of boxes with the same extents. -/
def union (a b : TBox) : Result TBox := do
  requireSame a b
  return a.hull b

/-- The common part on the extents in common, none when they are apart. -/
def intersection (a b : TBox) : Result (Option TBox) := do
  requireCommon a b
  match TemporalBox.commonWhereBoth Span.intersection a.span b.span with
  | none => return none
  | some span =>
    match TemporalBox.commonWhereBoth Span.intersection a.period b.period with
    | none => return none
    | some period => return some ⟨span, period⟩

/-- Whether a relation holds on every extent in common. -/
def onCommon (ofSpans : FloatSpan → FloatSpan → Bool) (ofPeriods : Period → Period → Bool)
    (a b : TBox) : Bool :=
  TemporalBox.whereBoth ofSpans a.span b.span && TemporalBox.whereBoth ofPeriods a.period b.period

/-- Whether boxes meet on every extent in common. -/
def meets (a b : TBox) : Bool := onCommon Span.overlaps Span.overlaps a b

/-- Whether boxes with an extent in common meet. -/
def overlaps (a b : TBox) : Result Bool := do
  requireCommon a b
  return a.meets b

/-- Whether `b` lies within `a` on the extents in common. -/
def contains (a b : TBox) : Result Bool := do
  requireCommon a b
  return onCommon Span.contains Span.contains a b

/-- Whether `a` lies within `b` on the extents in common. -/
def contained (a b : TBox) : Result Bool := b.contains a

/-- Whether boxes are equal on the extents in common. -/
def same (a b : TBox) : Result Bool := do
  requireCommon a b
  return onCommon (· == ·) (· == ·) a b

/-- The refusal of boxes without a needed extent. -/
def missing (what : String) : Error := .invalidArg ("The boxes must have a " ++ what ++ " dimension")

/-- Whether a relation holds of the extents in values, which both boxes must have. -/
def byValue (relation : FloatSpan → FloatSpan → Bool) (a b : TBox) : Result Bool :=
  match a.span, b.span with
  | some s, some t => .ok (relation s t)
  | _, _ => refuse (missing "value")

/-- Whether a relation holds of the extents in time, which both boxes must have. -/
def byTime (relation : Period → Period → Bool) (a b : TBox) : Result Bool :=
  match a.period, b.period with
  | some p, some q => .ok (relation p q)
  | _, _ => refuse (missing "time")

/-- All relations of boxes by name. -/
def relations : List (String × (TBox → TBox → Result Bool)) :=
  [("overlaps", overlaps), ("contains", contains), ("contained", contained), ("same", same),
    ("left", byValue Span.left), ("overleft", byValue Span.overleft),
    ("right", byValue Span.right), ("overright", byValue Span.overright),
    ("before", byTime Span.left), ("overbefore", byTime Span.overleft),
    ("after", byTime Span.right), ("overafter", byTime Span.overright)]

/-- Text of a box, with at most `places` decimals. -/
def text (b : TBox) (places : Nat) : String :=
  match b.span, b.period with
  | some s, some p => "TBOX XT(" ++ s.text places ++ "," ++ p.text places ++ ")"
  | some s, none => "TBOX X(" ++ s.text places ++ ")"
  | none, some p => "TBOX T(" ++ p.text places ++ ")"
  | none, none => "TBOX()"

def order (a b : TBox) : Ordering :=
  (TemporalBox.orderAbsentFirst Span.order a.period b.period).then
    (TemporalBox.orderAbsentFirst Span.order a.span b.span)

instance : TemporalBox TBox where
  period := TBox.period
  setPeriod b p := { b with period := some p }
  hull := TBox.hull
  overlaps := TBox.meets
  order := TBox.order
  text := TBox.text

/-- Split a text after its first closing bracket. -/
def splitAfterBracket : List Char → Option (List Char × List Char)
  | [] => none
  | c :: rest =>
    if c == ']' || c == ')' then some ([c], rest)
    else (splitAfterBracket rest).map fun (span, after) => (c :: span, after)

/-- Read a box: `TBOX XT(span,period)`, `TBOX X(span)` or `TBOX T(period)`. -/
def read (input : List Char) : Result TBox := do
  let error : Error := .textInput ("Could not parse temporal box '" ++ String.ofList input ++ "'")
  let body ← orRefuse (← Text.dropWord "TBOX" (Text.trim input)) error
  let (dims, after) ← orRefuse (Text.splitOnce '(' (Text.trimStart body)) error
  let inner ←
    match after.reverse with
    | ')' :: back => pure (Text.trim back.reverse)
    | _ => refuse error
  match (Text.trim dims).map Char.toUpper with
  | ['X', 'T'] =>
    let (span, after) ← orRefuse (splitAfterBracket inner) error
    let span ← Span.read span
    match Text.trimStart after with
    | ',' :: period => return ⟨some span, some (← Span.read period)⟩
    | _ => refuse error
  | ['X'] => return ofSpan (← Span.read inner)
  | ['T'] => return ofPeriod (← Span.read inner)
  | _ => refuse error

/-- Read a box from a string and report a refusal. -/
def parse (input : String) : Result TBox := reported (read input.toList)

end TBox

end TemporalAlgebra
