import TemporalAlgebra.Temporal.Append

/-!
# Appending in place

An instant is appended to a value where the value stands. Instants, bounds and boxes change one
after the other, and a refusal leaves them as the steps before it did. Memory for more instants is
asked for before it is used, and may be refused.
-/
namespace TemporalAlgebra

/-- Steps that change something where it stands. After a refusal it is as the steps left it. -/
abbrev Edit (σ α : Type) := ExceptT Failure (StateM σ) α

namespace Edit

variable {σ τ α : Type}

/-- How steps end, and what they leave. -/
def outcome (steps : Edit σ α) (s : σ) : Result α × σ := steps.run.run s

/-- Steps on a part of a whole, which is put back however they end. What they leave of the part is
returned beside their own value. -/
def within (put : σ → τ) (part : σ) (steps : Edit σ α) : Edit τ (α × σ) := fun _ =>
  match outcome steps part with
  | (.ok a, part) => (.ok (a, part), put part)
  | (.error f, part) => (.error f, put part)

/-- Steps on something of their own, which is given up if they are refused. -/
def aside (steps : Edit σ α) (s : σ) : Result σ :=
  match outcome steps s with
  | (.ok _, s) => .ok s
  | (.error f, _) => .error f

def reporting (steps : Edit σ α) : Edit σ α := tryCatch steps fun f => throw f.again

end Edit

/-- Whether memory for so many more instants is granted. -/
abbrev Memory := Nat → Result Unit

variable {V : Type} [TemporalValue V]

namespace Sequence

/-- Make room for at least `capacity` instants. -/
def reserving (memory : Memory) (capacity : Nat) : Edit (Sequence V) Unit := do
  let count := (← get).instants.length
  if count < capacity then memory (capacity - count)
  modify fun s => s.reserve capacity

/-- Make room for one more instant. -/
def growing (memory : Memory) (config : AppendConfig) : Edit (Sequence V) Unit := do
  let s ← get
  if s.capacity ≤ s.instants.length then reserving memory (config.grow s.capacity)

/-- Put an instant behind the end. It is there already when the one before it is tested. -/
def pushing (memory : Memory) (i : Instant V) (config : AppendConfig) : Edit (Sequence V) Unit := do
  growing memory config
  let s ← get
  modify fun s => { s with rest := s.rest ++ [i] }
  let rest ← (extend s.interp s.first i s.rest : Result _)
  modify fun s => { s with rest }
  modify fun s => { s with upperInc := true }
  modify fun s => { s with box := TemporalBox.hull s.box i.box }
  modify fun s => { s with box := TemporalBox.setPeriod s.box s.period }

/-- Include the end of the sequence, with what is there at its last timestamp. -/
def sealing : Edit (Sequence V) Unit := do
  modify fun s => { s with upperInc := true }
  modify rebox

/-- Append an instant; whether it belongs to the sequence, and does not start a new one. -/
def appending (memory : Memory) (i : Instant V) (limits : GapLimits) (config : AppendConfig) :
    Edit (Sequence V) Bool := do
  let s ← get
  if i.time < s.last.time then (refuse (risingError s.last.time i.time) : Result _)
  else if i.time = s.last.time then
    if s.upperInc || s.isDiscrete then
      require (i.value == s.last.value) (conflictError i.time)
      return true
    else if i.value == s.last.value then
      sealing
      return true
    else if s.interp == .step then
      modify fun s => { s with rest := s.rest.dropLast ++ [i] }
      sealing
      return true
    else return false
  else if !s.isDiscrete && limits.exceeded s.last i then return false
  else
    pushing memory i config
    return true

end Sequence

namespace SequenceSet

/-- The set with the last sequence changed. The box is left as it is. -/
def setLast (s : SequenceSet V) (last : Sequence V) : SequenceSet V :=
  match s.rest with
  | [] => { s with first := last }
  | rest => { s with rest := rest.dropLast ++ [last] }

/-- The set with a sequence behind its last one. The box is left as it is. -/
def continued (s : SequenceSet V) (next : Sequence V) : SequenceSet V :=
  { s with rest := s.rest ++ [next] }

/-- The set with its box grown by that of its last sequence. -/
def enclosing (s : SequenceSet V) : SequenceSet V :=
  { s with box := TemporalBox.hull s.box s.last.box }

/-- Append an instant to the last sequence, or as a new one. -/
def appending (memory : Memory) (i : Instant V) (limits : GapLimits) (config : AppendConfig) :
    Edit (SequenceSet V) Unit := do
  let s ← get
  let (belongs, last) ← Edit.within s.setLast s.last (Sequence.appending memory i limits config)
  if !belongs then modify fun s => s.continued (.ofInstant i last.interp)
  modify enclosing

end SequenceSet

namespace Temporal

/-- Put a single instant and one more in its place. -/
def pairing (memory : Memory) (first i : Instant V) (interp : Interpolation) (limits : GapLimits)
    (config : AppendConfig) : Edit (Temporal V) Unit := do
  if i.time < first.time then (refuse (risingError first.time i.time) : Result _)
  else if i.time = first.time then require (i.value == first.value) (conflictError i.time)
  else if interp != .discrete && limits.exceeded first i then
    let start ← (Sequence.makeRun first [] true true interp false : Result _)
    set (sequenceSet (← (SequenceSet.make [start, .ofInstant i interp] false : Result _)))
  else
    let s ← (Sequence.makeRun first [i] true true interp false : Result _)
    set (sequence (← Edit.aside (Sequence.reserving memory config.initialMaxcount) s))

/-- Append an instant. The interpolation is used when the value is a single instant so far. A
refusal is reported. -/
def appending (memory : Memory) (i : Instant V) (interp : Interpolation) (limits : GapLimits)
    (config : AppendConfig) : Edit (Temporal V) Unit := Edit.reporting do
  let v ← get
  TemporalValue.compatible v.firstInstant.value i.value
  match v with
  | instant first => pairing memory first i interp limits config
  | sequence s =>
    let (belongs, s) ← Edit.within sequence s (Sequence.appending memory i limits config)
    if !belongs then
      set (sequenceSet (← (SequenceSet.make [s, .ofInstant i s.interp] false : Result _)))
  | sequenceSet s =>
    let _ ← Edit.within sequenceSet s (SequenceSet.appending memory i limits config)

end Temporal

end TemporalAlgebra
