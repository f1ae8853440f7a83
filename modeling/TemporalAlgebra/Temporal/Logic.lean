import TemporalAlgebra.Temporal.Restrict
import TemporalAlgebra.Temporal.Lift
import TemporalAlgebra.Value.Scalar

/-!
# Logic over time

Conjunction, disjunction and negation of temporal truth values, and the time at which one is true.
-/
namespace TemporalAlgebra.Temporal

def and (a b : Temporal Bool) : Result (Option (Temporal Bool)) :=
  reported (liftWith { apply := fun x y => .ok (x && y) } a b)

def or (a b : Temporal Bool) : Result (Option (Temporal Bool)) :=
  reported (liftWith { apply := fun x y => .ok (x || y) } a b)

/-- Conjunction of a truth value and a constant. -/
def andValue (a : Temporal Bool) (x : Bool) : Result (Temporal Bool) :=
  a.mapValues fun y => .ok (y && x)

/-- Disjunction of a truth value and a constant. -/
def orValue (a : Temporal Bool) (x : Bool) : Result (Temporal Bool) :=
  a.mapValues fun y => .ok (y || x)

def not (a : Temporal Bool) : Result (Temporal Bool) := a.mapValues fun y => .ok (!y)

/-- Time at which a value is true, if it ever is. -/
def whenTrue (a : Temporal Bool) : Result (Option PeriodSet) := do
  return (← a.atValue true).map fun v => v.time

end TemporalAlgebra.Temporal
