import TemporalAlgebra.Temporal.Lift
import TemporalAlgebra.Temporal.Restrict

/-!
# Comparisons over time

Comparisons of two values, or of a value and a constant, as truth values over time, and whether they
hold ever or always.
-/
namespace TemporalAlgebra

/-- Comparisons by order. -/
inductive Inequality where
  | lt
  | le
  | gt
  | ge
deriving DecidableEq, Repr

/-- Comparisons of values: by equality of values or by their order. -/
inductive Comparison where
  | equal
  | different
  | inequality (i : Inequality)
deriving DecidableEq, Repr

def Inequality.named : List (String × Inequality) :=
  [("lt", lt), ("le", le), ("gt", gt), ("ge", ge)]

def Comparison.named : List (String × Comparison) :=
  [("eq", equal), ("ne", different)] ++
    Inequality.named.map fun (name, i) => (name, inequality i)

/-- Whether an inequality holds of two values in a given order. -/
def Inequality.holds (i : Inequality) (order : Ordering) : Bool :=
  match i with
  | lt => order.isLT
  | le => order.isLE
  | gt => order.isGT
  | ge => order.isGE

def Comparison.holds {V : Type} [BaseValue V] (c : Comparison) (x y : V) : Bool :=
  match c with
  | equal => x == y
  | different => x != y
  | inequality i => i.holds (BaseValue.order x y)

namespace Temporal

section

variable {V : Type} [TemporalValue V]

/-- A comparison to be lifted; it may change where the values meet. -/
def comparing (c : Comparison) : Lifting V Bool where
  apply x y := .ok (c.holds x y)
  turning := TemporalValue.crossing

def compareWith (c : Comparison) (a b : Temporal V) : Result (Option (Temporal Bool)) :=
  reported (liftWith (comparing c) a b)

/-- Compare a value and a constant over time. -/
def compareValue (c : Comparison) (a : Temporal V) (x : V) : Result (Temporal Bool) :=
  reported (liftValue (comparing c) a x)

def everEqual (v : Temporal V) (x : V) : Result Bool := return (← v.atValue x).isSome

def alwaysEqual (v : Temporal V) (x : V) : Result Bool := return (← v.minusValue x).isNone

def everDifferent (v : Temporal V) (x : V) : Result Bool := return !(← v.alwaysEqual x)

def alwaysDifferent (v : Temporal V) (x : V) : Result Bool := return !(← v.everEqual x)

end

variable {V : Type} [NumericValue V]

/-- The numbers of which an inequality with a bound holds. -/
def numbersWhere (i : Inequality) (bound : Float) : Result FloatSpan :=
  match i with
  | .lt => Span.new (-Binary64.infinity) bound false false
  | .le => Span.new (-Binary64.infinity) bound false true
  | .gt => Span.new bound Binary64.infinity false false
  | .ge => Span.new bound Binary64.infinity true false

/-- Whether an inequality with a constant ever holds. -/
def ever (i : Inequality) (v : Temporal V) (x : V) : Result Bool :=
  return (← v.atSpan (← numbersWhere i (NumericValue.toFloat x))).isSome

/-- Whether an inequality with a constant always holds. -/
def always (i : Inequality) (v : Temporal V) (x : V) : Result Bool :=
  return (← v.minusSpan (← numbersWhere i (NumericValue.toFloat x))).isNone

end Temporal

end TemporalAlgebra
