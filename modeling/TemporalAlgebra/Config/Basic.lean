import TemporalAlgebra.Number.Decimal

/-!
# Configuration

What can be chosen: the decimals of printed numbers, the shape of the skip lists behind
aggregations, and how the room of growing sequences is made.
-/
namespace TemporalAlgebra

/-- Shape of the skip list behind an aggregation. -/
structure SkipListConfig where
  /-- Greatest height of a tower. -/
  maxLevel : Nat := 32
  /-- Count of elements that there is room for at first. -/
  initialCapacity : Nat := 64
  /-- Seed of the heights of towers. -/
  seed : Option Nat := none
deriving DecidableEq, Repr

/-- How the room of a growing sequence is made. -/
structure AppendConfig where
  /-- Room of a sequence that starts to grow. -/
  initialMaxcount : Nat := 64
  /-- Factor by which the room grows when it is used up. -/
  growthFactor : Nat := 2
deriving DecidableEq, Repr

/-- All choices. -/
structure Config where
  /-- Decimals of a printed number. -/
  floatDigits : Nat := 15
  skipList : SkipListConfig := {}
  append : AppendConfig := {}
deriving DecidableEq, Repr

namespace Config

/-- Why a configuration is refused. -/
inductive Fault where
  | floatDigits (found : Nat)
  | maxLevel
  | initialCapacity
  | initialMaxcount
  | growthFactor
deriving DecidableEq, Repr

/-- Text of a refusal. -/
def Fault.message : Fault → String
  | floatDigits found => "Float digits must be at most 17, got " ++ Decimal.ofNat found
  | maxLevel => "Skip list max level must be in [1, 64]"
  | initialCapacity => "Skip list initial capacity must be at least 2"
  | initialMaxcount => "Initial maxcount must be greater than zero"
  | growthFactor => "Growth factor must be at least 2"

def fault? (c : Config) : Option Fault :=
  if 17 < c.floatDigits then some (.floatDigits c.floatDigits)
  else if c.skipList.maxLevel = 0 ∨ 64 < c.skipList.maxLevel then some .maxLevel
  else if c.skipList.initialCapacity < 2 then some .initialCapacity
  else if c.append.initialMaxcount = 0 then some .initialMaxcount
  else if c.append.growthFactor < 2 then some .growthFactor
  else none

/-- The configuration itself, if it has no fault. -/
def validate (c : Config) : Except Fault Config :=
  match c.fault? with
  | some fault => .error fault
  | none => .ok c

end Config

/-- Room for a sequence that has used up room for `capacity` instants. -/
def AppendConfig.grow (c : AppendConfig) (capacity : Nat) : Nat :=
  max (max capacity 1 * max c.growthFactor 2) c.initialMaxcount

end TemporalAlgebra
