import TemporalAlgebra.SpanSet.Basic

/-!
# Value sets

A value set holds distinct values of a domain in rising order.
-/
namespace TemporalAlgebra

/-- Distinct values in rising order, at least one. -/
structure ValueSet (α : Type) where
  first : α
  rest : List α
deriving BEq

namespace ValueSet

variable {α : Type} [SpanDomain α]

def values (s : ValueSet α) : List α := s.first :: s.rest

def last (s : ValueSet α) : α := s.rest.getLastD s.first

/-- The ordered values after `current` that differ from the one before them. -/
def distinctAfter (current : α) : List α → List α
  | [] => []
  | x :: rest =>
    if SpanDomain.order x current == .eq then distinctAfter current rest
    else x :: distinctAfter x rest

def ofValues? (values : List α) : Option (ValueSet α) :=
  match values.mergeSort fun a b => SpanDomain.order a b != .gt with
  | [] => none
  | first :: rest => some ⟨first, distinctAfter first rest⟩

/-- Build a set. Refused are no values at all, and values that are NaN. -/
def make (values : List α) : Result (ValueSet α) := do
  let found ← orRefuse (ofValues? values) (.invalidArgValue "A set needs at least one value")
  require (values.all SpanDomain.isValid) (.invalidArgValue "Set values cannot be NaN")
  return found

def new (values : List α) : Result (ValueSet α) := reported (make values)

/-- Whether a value belongs to the set: the first value not below it is equal to it. -/
def contains (s : ValueSet α) (x : α) : Bool :=
  (s.values.dropWhile fun y => SpanDomain.order y x == .lt).head?.any fun y =>
    SpanDomain.order y x == .eq

def toSpan (s : ValueSet α) : Result (Span α) := Span.new s.first s.last true true

def toSpanSet (s : ValueSet α) : Result (SpanSet α) := do
  let spans ← s.values.mapM Span.point
  SpanSet.new spans

def shift (s : ValueSet α) (d : SpanDomain.Delta α) : Result (ValueSet α) := do
  let values ← s.values.mapM fun x => SpanDomain.addDelta x d
  new values

/-- Text of a set, with at most `places` decimals. -/
def text (s : ValueSet α) (places : Nat) : String :=
  "\x7b" ++ String.intercalate ", " (s.values.map fun x => SpanDomain.text x places) ++ "\x7d"

/-- Read a set: values between braces. -/
def read (cs : List Char) : Result (ValueSet α) := do
  let inner ← Text.stripBraces "set" cs
  let values ← (← Text.splitTopLevel inner).mapM SpanDomain.read
  make values

/-- Read a set from a string and report a refusal. -/
def parse (input : String) : Result (ValueSet α) := reported (read input.toList)

end ValueSet

end TemporalAlgebra
