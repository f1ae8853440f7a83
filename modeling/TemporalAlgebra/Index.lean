import TemporalAlgebra.Box.STBox
import TemporalAlgebra.Box.TBox

/-!
# Indexes of boxes

An index finds the boxes that overlap a query. Every box is kept with an envelope, its extents as
numbers on a few axes. A search compares envelopes first and then the boxes themselves, since
bounds can be exclusive and numbers rounded.
-/
namespace TemporalAlgebra

/-- Boxes that an index can hold. -/
class Indexable (β : Type) where
  /-- Extents on the axes: value or first coordinate, second, third, time. They cover the box. -/
  axes : β → List (Option Extent)
  /-- Whether two boxes overlap. -/
  overlaps : β → β → Bool
  /-- Text that shows every field. -/
  debug : β → String

namespace Indexable

/-- Text of a record: its name and the texts of its named fields. -/
def debugFields (name : String) (fields : List (String × String)) : String :=
  name ++ " \x7b " ++ ", ".intercalate (fields.map fun (field, value) => field ++ ": " ++ value) ++
    " \x7d"

/-- Text of something that may be absent. -/
def debugOption {α : Type} (debug : α → String) : Option α → String
  | some a => "Some(" ++ debug a ++ ")"
  | none => "None"

def debugBool (b : Bool) : String := if b then "true" else "false"

def ofSpan {α : Type} [SpanDomain α] (s : Span α) : Extent :=
  ⟨SpanDomain.native s.lower, SpanDomain.native s.upper⟩

/-- Text of a span that shows every field. -/
def debugSpan {α : Type} [SpanDomain α] (s : Span α) : String :=
  debugFields "Span" [("lower", SpanDomain.debug s.lower), ("upper", SpanDomain.debug s.upper),
    ("lower_inc", debugBool s.lowerInc), ("upper_inc", debugBool s.upperInc)]

instance {α : Type} [SpanDomain α] : Indexable (Span α) where
  axes s := [some (ofSpan s), none, none, none]
  overlaps := Span.overlaps
  debug := debugSpan

instance : Indexable TBox where
  axes b := [b.span.map ofSpan, none, none, b.period.map ofSpan]
  overlaps := TBox.meets
  debug b := debugFields "TBox"
    [("span", debugOption debugSpan b.span), ("period", debugOption debugSpan b.period)]

instance : Indexable STBox where
  axes b := [b.space.map Space.x, b.space.map Space.y, b.z, b.period.map ofSpan]
  overlaps a b := a.srid == b.srid && a.meets b
  debug b := debugFields "STBox"
    [("xmin", Decimal.explicit b.xExtent.min), ("xmax", Decimal.explicit b.xExtent.max),
      ("ymin", Decimal.explicit b.yExtent.min), ("ymax", Decimal.explicit b.yExtent.max),
      ("zmin", Decimal.explicit b.zExtent.min), ("zmax", Decimal.explicit b.zExtent.max),
      ("period", debugOption debugSpan b.period), ("srid", Decimal.ofInt b.srid.val),
      ("has_x", debugBool b.hasX), ("has_z", debugBool b.hasZ),
      ("geodetic", debugBool b.geodetic)]

/-- Whether all extents of a box are finite. -/
def isBounded {β : Type} [Indexable β] (box : β) : Bool :=
  (axes box).all fun axis =>
    axis.all fun e => Binary64.isFinite e.min && Binary64.isFinite e.max

def dimensions {β : Type} [Indexable β] (box : β) : List Bool := (axes box).map Option.isSome

end Indexable

open Indexable

/-- A box of an index with its number. -/
structure BoxEntry (β : Type) where
  box : β
  id : Bigint

/-- Boxes with the same dimensions. -/
structure BoxIndex (β : Type) where
  entries : List (BoxEntry β) := []
  /-- The dimensions of all boxes; open until a first box was checked. -/
  dimensions? : Option (List Bool) := none

/-- Steps that change an index. After a refusal the index is as the step left it. -/
abbrev IndexStep (β α : Type) := ExceptT Failure (StateM (BoxIndex β)) α

namespace BoxIndex

variable {β : Type} [Indexable β]

def size (index : BoxIndex β) : Nat := index.entries.length

def isEmpty (index : BoxIndex β) : Bool := index.entries.isEmpty

/-- The refusal of a box that is not bounded. -/
def boundsError (box : β) : Error :=
  .invalidArgValue ("Cannot index a box with infinite bounds: " ++ debug box)

/-- The refusal of a box with other dimensions. -/
def dimensionsError : Error := .invalidArg "The boxes of an index must have the same dimensions"

/-- Check that a box is bounded and has the dimensions of the others. The first box that is checked
decides on them. -/
def entry (box : β) (id : Bigint) : IndexStep β (BoxEntry β) := do
  require (isBounded box) (boundsError box)
  match (← get).dimensions? with
  | some expected => require (expected == dimensions box) dimensionsError
  | none => modify fun index => { index with dimensions? := some (dimensions box) }
  return ⟨box, id⟩

def reporting {α : Type} (step : IndexStep β α) : IndexStep β α :=
  tryCatch step fun f => throw f.again

/-- Add a box; a refusal is reported. -/
def insert (box : β) (id : Bigint) : IndexStep β Unit := do
  let entry ← reporting (entry box id)
  modify fun index => { index with entries := entry :: index.entries }

/-- Check some boxes, then take them all. -/
def load (boxes : List (β × Bigint)) : IndexStep β Unit := do
  let entries ← boxes.mapM fun item => entry item.1 item.2
  modify fun index => { index with entries := entries }

/-- The index of some boxes; a refusal is reported. -/
def ofList (boxes : List (β × Bigint)) : Result (BoxIndex β) :=
  match (reporting (load boxes)).run.run {} with
  | (.ok (), index) => .ok index
  | (.error f, _) => .error f

/-- Envelope of a box, zero on axes that it lacks. -/
def envelope (box : β) : List Extent := (axes box).map fun axis => axis.getD .absent

def unbounded : Extent := ⟨-Binary64.infinity, Binary64.infinity⟩

/-- Envelope of a query, unbounded on axes that the query or the index lacks. -/
def window (index : BoxIndex β) (query : β) : List Extent :=
  List.zipWith (fun has axis => if has then axis.getD unbounded else unbounded)
    (index.dimensions?.getD []) (axes query)

def envelopesMeet (a b : List Extent) : Bool := (List.zipWith Extent.meets a b).all id

/-- How a tree of entries finds those whose envelopes meet a window. -/
abbrev Locator (β : Type) := List (BoxEntry β) → List Extent → List (BoxEntry β)

/-- Find entries by a look at all of them. -/
def scan : Locator β := fun entries window =>
  entries.filter fun e => envelopesMeet (envelope e.box) window

/-- The boxes that overlap a query, of those that are found by their envelopes. -/
def matching (locate : Locator β) (index : BoxIndex β) (query : β) : List (BoxEntry β) :=
  (locate index.entries (index.window query)).filter fun e => overlaps e.box query

/-- Numbers of the boxes that overlap a query, ascending and each one once. An unbounded query finds
nothing. -/
def searchBy (locate : Locator β) (index : BoxIndex β) (query : β) : List Bigint :=
  if isBounded query then
    ((matching locate index query).map BoxEntry.id).eraseDups.mergeSort fun a b =>
      (compare a b).isLE
  else []

def search : BoxIndex β → β → List Bigint := searchBy scan

end BoxIndex

end TemporalAlgebra
