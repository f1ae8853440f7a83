import TemporalAlgebra.Catalog

/-!
# Interpolation

How a value is defined between the instants at which it was recorded.
-/
namespace TemporalAlgebra

/-- How values are defined between recorded instants. -/
inductive Interpolation where
  /-- Only the recorded instants have a value. -/
  | discrete
  /-- A value holds until the next instant. -/
  | step
  /-- Values change linearly from instant to instant. -/
  | linear
deriving DecidableEq, Repr

namespace Interpolation

/-- Code in the binary form, which is also the rank in the order of interpolations. -/
def code : Interpolation → Nat
  | discrete => 1
  | step => 2
  | linear => 3

def ofCode? : Nat → Option Interpolation
  | 1 => some discrete
  | 2 => some step
  | 3 => some linear
  | _ => none

def name : Interpolation → String
  | discrete => "Discrete"
  | step => "Step"
  | linear => "Linear"

@[simp] theorem ofCode?_code (i : Interpolation) : ofCode? i.code = some i := by
  cases i <;> rfl

theorem code_inj {i j : Interpolation} : i.code = j.code ↔ i = j := by
  cases i <;> cases j <;> decide

end Interpolation

end TemporalAlgebra
