import TemporalAlgebra.Config.Basic
import TemporalAlgebra.Error

/-!
# Skip lists

A skip list keeps its elements in order in towers of different heights. A search walks along the
tops of the high towers first and descends level by level, so that it need not visit every element.
The order may call elements equal that overlap.
-/
namespace TemporalAlgebra

/-- An element and the count of levels on which it is linked. -/
structure Tower (α : Type) where
  value : α
  height : Nat

/-- Elements in order, in towers. -/
structure SkipList (α : Type) where
  order : α → α → Ordering
  maxLevel : Nat
  /-- The towers from left to right. -/
  towers : List (Tower α)
  /-- Heights of the towers to come. -/
  heights : Nat → Nat
  /-- Count of towers built so far. -/
  built : Nat

namespace SkipList

/-- Heights by the ruler sequence, in which half of the towers rise above each level. -/
def rulerHeight (n : Nat) : Nat :=
  if h : n = 0 ∨ n % 2 = 1 then 1 else rulerHeight (n / 2) + 1
termination_by n
decreasing_by omega

variable {α : Type}

/-- The empty list with given heights of towers to come. -/
def ofHeights (order : α → α → Ordering) (maxLevel : Nat) (heights : Nat → Nat) : SkipList α :=
  ⟨order, max maxLevel 1, [], heights, 0⟩

def ofConfig (order : α → α → Ordering) (config : SkipListConfig) : SkipList α :=
  ofHeights order config.maxLevel fun n => rulerHeight (config.seed.getD 0 + n + 1)

def toList (s : SkipList α) : List α := s.towers.map Tower.value

def size (s : SkipList α) : Nat := s.towers.length

def isEmpty (s : SkipList α) : Bool := s.towers.isEmpty

def level (s : SkipList α) : Nat := s.towers.foldl (fun n t => max n t.height) 1

/-- Whether the element of a tower comes before a key. -/
def precedes (s : SkipList α) (t : Tower α) (key : α) : Bool := s.order t.value key == .lt

/-- Walk along one level over the towers ahead, past all that come before a key. -/
def advance (s : SkipList α) (key : α) (level : Nat) (ahead : List (Tower α)) : List (Tower α) :=
  match _h : ahead.dropWhile fun t => decide (t.height ≤ level) with
  | [] => ahead
  | t :: rest => if s.precedes t key then advance s key level rest else ahead
termination_by ahead.length
decreasing_by
  have := (List.dropWhile_sublist (fun t : Tower α => decide (t.height ≤ level))
    (l := ahead)).length_le
  rw [_h, List.length_cons] at this
  omega

/-- The towers ahead of a key after a walk over the levels below `level`, from the top down. -/
def descend (s : SkipList α) (key : α) : Nat → List (Tower α) → List (Tower α)
  | 0, ahead => ahead
  | level + 1, ahead => descend s key level (s.advance key level ahead)

/-- The towers from the first one on that does not come before a key. -/
def seek (s : SkipList α) (key : α) : List (Tower α) := s.descend key s.level s.towers

/-- The towers before those that a search for a key leads to. -/
def behind (s : SkipList α) (key : α) : List (Tower α) :=
  s.towers.take (s.towers.length - (s.seek key).length)

/-- The tower that a search for a key leads to and those after it, if its element is equal to the
key. -/
def found? (s : SkipList α) (key : α) : Option (Tower α × List (Tower α)) :=
  match s.seek key with
  | [] => none
  | t :: rest => if s.order t.value key == .eq then some (t, rest) else none

/-- The element that is equal to a key, if there is one. -/
def search (s : SkipList α) (key : α) : Option α := (s.found? key).map fun found => found.1.value

def nextHeight (s : SkipList α) : Nat := max 1 (min (s.heights s.built) s.maxLevel)

/-- Put a new tower between others. -/
def build (s : SkipList α) (left : List (Tower α)) (value : α) (right : List (Tower α)) :
    SkipList α :=
  { s with towers := left ++ ⟨value, s.nextHeight⟩ :: right, built := s.built + 1 }

/-- Put a new element where a search for it leads. -/
def link (s : SkipList α) (value : α) : SkipList α :=
  s.build (s.behind value) value (s.seek value)

/-- Insert an element in place of one that is equal to it, which is given back. -/
def insert (s : SkipList α) (value : α) : Option α × SkipList α :=
  match s.found? value with
  | some (t, rest) => (some t.value, s.build (s.behind value) value rest)
  | none => (none, s.link value)

/-- Insert an element, merged with one that is equal to it. -/
def insertWith (s : SkipList α) (value : α) (merge : α → α → Result α) : Result (SkipList α) :=
  match s.found? value with
  | some (t, rest) => return s.build (s.behind value) (← merge t.value value) rest
  | none => .ok (s.link value)

/-- Remove the element that is equal to a key and give it back. -/
def remove (s : SkipList α) (key : α) : Option α × SkipList α :=
  match s.found? key with
  | some (t, rest) => (some t.value, { s with towers := s.behind key ++ rest })
  | none => (none, s)

/-- Replace the elements between the first and the last of some new values by what `merge` makes of
both; when there are none the new values are put in as they are. -/
def splice (s : SkipList α) (values : List α) (merge : List α → List α → Result (List α)) :
    Result (SkipList α) :=
  match values with
  | [] => .ok s
  | first :: more =>
    let last := more.getLastD first
    let inRange (t : Tower α) : Bool := s.order t.value last != .gt
    let run := (s.seek first).takeWhile inRange
    if run.isEmpty then .ok (values.foldl link s)
    else do
      let merged ← merge (run.map Tower.value) values
      let left : SkipList α :=
        { s with towers := s.behind first ++ (s.seek first).dropWhile inRange }
      return merged.foldl link left

end SkipList

end TemporalAlgebra
