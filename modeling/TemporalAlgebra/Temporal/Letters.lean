import TemporalAlgebra.Temporal.Lift
import TemporalAlgebra.Text.LetterCase
import TemporalAlgebra.Value.Scalar

/-!
# Texts over time

Concatenation and letter case of temporal texts.
-/
namespace TemporalAlgebra.Temporal

/-- The texts of two values, one behind the other. -/
def concat (a b : Temporal String) : Result (Option (Temporal String)) :=
  reported (liftWith { apply := fun s t => .ok (s ++ t) } a b)

/-- The texts of a value with a constant behind them. -/
def concatValue (a : Temporal String) (ending : String) : Result (Temporal String) :=
  a.mapValues fun s => .ok (s ++ ending)

def upper (a : Temporal String) : Result (Temporal String) :=
  a.mapValues fun s => .ok (String.ofList (Text.upper s.toList))

def lower (a : Temporal String) : Result (Temporal String) :=
  a.mapValues fun s => .ok (String.ofList (Text.lower s.toList))

end TemporalAlgebra.Temporal
