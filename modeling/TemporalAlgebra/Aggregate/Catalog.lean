import TemporalAlgebra.Aggregate.Functions

/-!
# Catalogue of aggregates

An aggregate is a state to start from, a way to add a value to it, and a way to finish. Those over
a trailing window have names that start with a `w` and take the size of the window.
-/
namespace TemporalAlgebra

/-- A way to aggregate temporal values over `V`. -/
structure Aggregate (V : Type) [TemporalValue V] where
  /-- Values of the state. -/
  State : Type
  [stateValue : TemporalValue State]
  /-- Values of the outcome. -/
  Outcome : Type
  [outcomeValue : TemporalValue Outcome]
  start : Result (Aggregator State)
  add : Temporal V → Aggregation State Unit
  finish : Aggregator State → Result (Option (Temporal Outcome))

attribute [instance] Aggregate.stateValue Aggregate.outcomeValue

namespace Aggregate

section

variable {V : Type} [TemporalValue V]

/-- The state after some values, or the first refusal. -/
def gather (g : Aggregate V) (state : Aggregator g.State) (values : List (Temporal V)) :
    Result (Aggregator g.State) :=
  match (values.forM g.add).run.run state with
  | (.ok _, state) => .ok state
  | (.error f, _) => .error f

def ofList (g : Aggregate V) (values : List (Temporal V)) :
    Result (Option (Temporal g.Outcome)) := do
  g.finish (← g.gather (← g.start) values)

/-- An aggregate whose state holds values like those added. -/
def ofValues (start : Result (Aggregator V)) : Aggregate V where
  State := V
  Outcome := V
  start
  add := Aggregator.add
  finish := Aggregator.finish

def ofCounts (start : Result (Aggregator Integer)) : Aggregate V where
  State := Integer
  Outcome := Integer
  start
  add := Aggregator.addCount
  finish := Aggregator.finish

/-- Aggregates of values of any type. -/
def ofAny? (name : String) (window : Interval) : Option (Aggregate V) :=
  match name with
  | "tmin" => some (ofValues (.ok Aggregator.minimum))
  | "tmax" => some (ofValues (.ok Aggregator.maximum))
  | "tcount" => some (ofCounts (.ok Aggregator.count))
  | "wcount" => some (ofCounts (Aggregator.windowCount window))
  | _ => none

end

section

variable {V : Type} [NumericValue V]

def ofAverages (start : Result (Aggregator Pair)) : Aggregate V where
  State := Pair
  Outcome := Float
  start
  add := Aggregator.addAverage
  finish := Aggregator.finishAverage

def ofNumbers? (name : String) (window : Interval) : Option (Aggregate V) :=
  match name with
  | "tsum" => some (ofValues (.ok Aggregator.sum))
  | "tavg" => some (ofAverages (.ok Aggregator.average))
  | "wmin" => some (ofValues (Aggregator.windowMinimum window))
  | "wmax" => some (ofValues (Aggregator.windowMaximum window))
  | "wsum" => some (ofValues (Aggregator.windowSum window))
  | "wavg" => some (ofAverages (Aggregator.windowAverage window))
  | _ => ofAny? name window

end

def ofTruth? (name : String) (window : Interval) : Option (Aggregate Bool) :=
  match name with
  | "tand" => some (ofValues (.ok Aggregator.conjunction))
  | "tor" => some (ofValues (.ok Aggregator.disjunction))
  | _ => ofAny? name window

end Aggregate

end TemporalAlgebra
