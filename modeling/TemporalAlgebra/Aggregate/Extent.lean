import TemporalAlgebra.Temporal.Basic
import TemporalAlgebra.Value.Compound

/-!
# Extents

The smallest extent over all values seen so far, in time, in value or in space, and the union of the
spans seen so far. Nothing was seen before the first value.
-/
namespace TemporalAlgebra.Extents

/-- Smallest period over all values. -/
def period {V : Type} [TemporalValue V] (seen : Option Period) (v : Temporal V) : Period :=
  seen.elim v.timespan fun p => p.hull v.timespan

/-- Smallest box over all numbers. -/
def numberBox {V : Type} [NumericValue V] (seen : Option TBox) (v : Temporal V) : TBox :=
  let box := NumericValue.numberBox v.box
  seen.elim box fun b => b.hull box

/-- Smallest box over all moving points, which have to go together; a refusal is reported. -/
def pointBox (seen : Option STBox) (v : Temporal Point) : Result STBox :=
  match seen with
  | some b => reported (b.union v.box)
  | none => .ok v.box

/-- Smallest span over all spans. -/
def span {α : Type} [SpanDomain α] (seen : Option (Span α)) (s : Span α) : Span α :=
  seen.elim s fun t => t.hull s

/-- Union of all spans. -/
def spanUnion {α : Type} [SpanDomain α] (seen : Option (SpanSet α)) (s : Span α) : SpanSet α :=
  seen.elim (.ofSpan s) fun t => t.unionSpan s

end TemporalAlgebra.Extents
