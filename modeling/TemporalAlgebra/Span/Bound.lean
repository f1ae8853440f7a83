import TemporalAlgebra.Span.Domain

/-!
# Bounds

A bound sits at a value of the domain, or next to it: an exclusive lower bound just above its value
and an exclusive upper bound just below. So bounds of either kind are compared directly.
-/
namespace TemporalAlgebra

/-- Where a bound sits relative to its value. -/
inductive Side where
  | below
  | exact
  | above
deriving DecidableEq, Repr

/-- Sides by rising position. -/
def Side.rank : Side → Nat
  | below => 0
  | exact => 1
  | above => 2

/-- A position on the line of a domain. -/
structure Bound (α : Type) where
  value : α
  side : Side

namespace Bound

variable {α : Type} [SpanDomain α]

def point (value : α) : Bound α := ⟨value, .exact⟩

def lower (value : α) (inclusive : Bool) : Bound α := ⟨value, if inclusive then .exact else .above⟩

def upper (value : α) (inclusive : Bool) : Bound α := ⟨value, if inclusive then .exact else .below⟩

/-- Whether the bound includes its value. -/
def inclusive (b : Bound α) : Bool := b.side == .exact

/-- Order of positions: by value, then by side. -/
def order (a b : Bound α) : Ordering :=
  (SpanDomain.order a.value b.value).then (compare a.side.rank b.side.rank)

/-- Strictly before. -/
def before (a b : Bound α) : Bool := a.order b == .lt

/-- Before or at the same position. -/
def upTo (a b : Bound α) : Bool := a.order b != .gt

/-- The first of two positions. -/
def first (a b : Bound α) : Bound α := if b.before a then b else a

/-- The last of two positions. -/
def last (a b : Bound α) : Bound α := if a.before b then b else a

end Bound

end TemporalAlgebra
