import TemporalAlgebra.Span.Relation

/-!
# Bounding boxes

What the boxes that bound temporal values have in common: an extent in time, and growth, overlap and
order. A period is the box of values without extent of their own.
-/
namespace TemporalAlgebra

/-- Boxes that bound temporal values. -/
class TemporalBox (β : Type) extends BEq β where
  /-- Extent in time. -/
  period : β → Option Period
  /-- The box with another extent in time. -/
  setPeriod : β → Period → β
  /-- The box grown so that it covers another. -/
  hull : β → β → β
  /-- Whether two boxes meet in every dimension that both have. -/
  overlaps : β → β → Bool
  order : β → β → Ordering
  /-- Text with at most so many decimals. -/
  text : β → Nat → String

instance : TemporalBox Period where
  period p := some p
  setPeriod _ p := p
  hull := Span.hull
  overlaps := Span.overlaps
  order := Span.order
  text := Span.text

namespace TemporalBox

/-- Order of something that may be absent; the absent comes first. -/
def orderAbsentFirst {α : Type} (order : α → α → Ordering) : Option α → Option α → Ordering
  | some a, some b => order a b
  | none, none => .eq
  | none, some _ => .lt
  | some _, none => .gt

/-- The hull of two extents, either of which may be absent. -/
def hullOfPresent {α : Type} (hull : α → α → α) : Option α → Option α → Option α
  | some a, some b => some (hull a b)
  | some a, none => some a
  | none, other => other

/-- Whether a relation holds of two extents; it does when one is absent. -/
def whereBoth {α : Type} (relation : α → α → Bool) : Option α → Option α → Bool
  | some a, some b => relation a b
  | _, _ => true

/-- The common part of two extents: none in it when one is absent, nothing at all when they are
apart. -/
def commonWhereBoth {α : Type} (common : α → α → Option α) :
    Option α → Option α → Option (Option α)
  | some a, some b => (common a b).map some
  | _, _ => some none

end TemporalBox

end TemporalAlgebra
