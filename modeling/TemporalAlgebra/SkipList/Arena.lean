import TemporalAlgebra.SkipList

/-!
# Skip lists in an arena

An arena keeps the elements of a skip list in slots. A slot refers to the ones that follow it, level
by level, from the head to the tail, which hold no element. A search leaves, on each level, the last
slot before a key; there a new slot is linked, or a found one is unlinked. Slots of elements that
are gone are used again.
-/
namespace TemporalAlgebra

/-- A slot of an arena: its element, if it holds one, and the slots that follow it on each level. -/
structure Node (α : Type) where
  value : Option α
  next : List Nat

/-- Elements in order, in slots that refer to each other. -/
structure Arena (α : Type) where
  order : α → α → Ordering
  nodes : Array (Node α)
  /-- Slots to be used again, the one that was given up last first. -/
  free : List Nat
  /-- Count of the elements. -/
  size : Nat
  /-- Count of the levels in use. -/
  level : Nat
  maxLevel : Nat
  /-- Heights of the slots to be linked. -/
  heights : Nat → Nat
  /-- Count of slots linked so far. -/
  built : Nat

/-- Steps that change an arena. After a refusal the arena is as the step left it. -/
abbrev ArenaStep (α β : Type) := ExceptT Failure (StateM (Arena α)) β

namespace Arena

def head : Nat := 0

def tail : Nat := 1

/-- What was looked for in memory; where nothing is the computation gives up. -/
def orAbort {β : Type} (found : Option β) : Result β :=
  match found with
  | some b => .ok b
  | none => .error .aborted

variable {α : Type}

/-- The empty arena with given heights of slots to come. -/
def ofHeights (order : α → α → Ordering) (maxLevel : Nat) (heights : Nat → Nat) : Arena α :=
  let maxLevel := max maxLevel 1
  ⟨order, #[⟨none, List.replicate maxLevel tail⟩, ⟨none, []⟩], [], 0, 1, maxLevel, heights, 0⟩

def ofConfig (order : α → α → Ordering) (config : SkipListConfig) : Arena α :=
  ofHeights order config.maxLevel fun n => SkipList.rulerHeight (config.seed.getD 0 + n + 1)

def isEmpty (a : Arena α) : Bool := a.size == 0

def node (a : Arena α) (slot : Nat) : Result (Node α) := orAbort a.nodes[slot]?

/-- The slot that follows another one on a level. -/
def next (a : Arena α) (slot level : Nat) : Result Nat := do
  orAbort (← a.node slot).next[level]?

/-- The elements from a slot on, of which there are fewer than `fuel`. -/
def elementsFrom (a : Arena α) : (fuel slot : Nat) → Result (List α)
  | 0, _ => .error .aborted
  | fuel + 1, slot =>
    if slot = tail then .ok []
    else do
      let following ← a.next slot 0
      match (← a.node slot).value with
      | none => return []
      | some v => return v :: (← a.elementsFrom fuel following)

/-- The elements in order. There are fewer of them than slots. -/
def elements (a : Arena α) : Result (List α) := do
  a.elementsFrom a.nodes.size (← a.next head 0)

/-- Take the elements out of the slots from a given one on. -/
def drain : (fuel slot : Nat) → ArenaStep α (List α)
  | 0, _ => throw .aborted
  | fuel + 1, slot =>
    if slot = tail then pure []
    else do
      let a ← get
      let node ← (a.node slot : Result _)
      let following ← (a.next slot 0 : Result _)
      set { a with nodes := a.nodes.setIfInBounds slot { node with value := none } }
      match node.value with
      | none => drain fuel following
      | some v => return v :: (← drain fuel following)

def intoElements : ArenaStep α (List α) := do
  let a ← get
  drain a.nodes.size (← (a.next head 0 : Result _))

/-- Whether a slot holds an element that comes before a key. -/
def precedes (a : Arena α) (slot : Nat) (key : α) : Result Bool :=
  if slot = tail then .ok false
  else return (← a.node slot).value.any fun v => a.order v key == .lt

/-- Whether a slot holds an element that is equal to a key. -/
def matches? (a : Arena α) (slot : Nat) (key : α) : Result Bool :=
  return (← a.node slot).value.any fun v => a.order v key == .eq

/-- Walk along a level, from a slot past all that come before a key, in fewer than `fuel` steps. -/
def walk (a : Arena α) (key : α) (level : Nat) : (fuel slot : Nat) → Result Nat
  | 0, _ => .error .aborted
  | fuel + 1, slot => do
    let following ← a.next slot level
    if ← a.precedes following key then a.walk key level fuel following else return slot

/-- The last slots before a key on the levels below `level`, in front of those on the levels from
there on. -/
def descend (a : Arena α) (key : α) : (level slot : Nat) → List Nat → Result (List Nat)
  | 0, _, found => .ok found
  | level + 1, slot, found => do
    let last ← a.walk key level a.nodes.size slot
    a.descend key level last (last :: found)

/-- The last slot before a key on each level; the head on levels that are not in use. -/
def predecessors (a : Arena α) (key : α) : Result (List Nat) :=
  a.descend key a.level head (List.replicate (a.maxLevel - a.level) head)

/-- The slot after those that a search has left. -/
def after (a : Arena α) (update : List Nat) : Result Nat := do
  a.next (← orAbort update.head?) 0

/-- The element that is equal to a key, if there is one. -/
def search (a : Arena α) (key : α) : Result (Option α) := do
  let found ← a.after (← a.predecessors key)
  return (← a.node found).value.filter fun v => a.order v key == .eq

def nextHeight (a : Arena α) : Nat := max 1 (min (a.heights a.built) a.maxLevel)

/-- Put something into a slot. -/
def setNode (slot : Nat) (node : Node α) : ArenaStep α Unit := do
  let a ← get
  let _ ← (a.node slot : Result _)
  set { a with nodes := a.nodes.setIfInBounds slot node }

/-- Let a slot follow another one on a level. -/
def setNext (slot level following : Nat) : ArenaStep α Unit := do
  let a ← get
  let node ← (a.node slot : Result _)
  let _ ← (orAbort node.next[level]? : Result _)
  setNode slot { node with next := node.next.set level following }

/-- A slot for a new element, one that is used again if there is any. -/
def alloc (node : Node α) : ArenaStep α Nat := do
  let a ← get
  match a.free with
  | slot :: free => do
    set { a with free }
    setNode slot node
    return slot
  | [] => do
    set { a with nodes := a.nodes.push node }
    return a.nodes.size

/-- Link a slot behind others, one for each level from `level` on. -/
def hook (slot : Nat) : (level : Nat) → List Nat → ArenaStep α Unit
  | _, [] => pure ()
  | level, last :: more => do
    setNext slot level (← ((← get).next last level : Result _))
    setNext last level slot
    hook slot (level + 1) more

/-- Link a new element behind the slots that a search for it has left. -/
def link (value : α) (update : List Nat) : ArenaStep α Unit := do
  let a ← get
  let height := a.nextHeight
  -- On levels that were not in use until now the element follows the head.
  let update :=
    if a.level < height then
      update.take a.level ++ List.replicate (height - a.level) head ++ update.drop height
    else update
  set { a with level := max a.level height, built := a.built + 1 }
  let slot ← alloc ⟨some value, List.replicate height tail⟩
  hook slot 0 (update.take height)
  modify fun a => { a with size := a.size + 1 }

/-- Let what follows a slot on a level follow the one before it, if that leads to the slot. -/
def pass (slot level last : Nat) : ArenaStep α Unit := do
  let a ← get
  if (← (a.next last level : Result _)) = slot then
    setNext last level (← (a.next slot level : Result _))

/-- Pass over a slot from others, one for each level from `level` on. -/
def unhook (slot : Nat) : (level : Nat) → List Nat → ArenaStep α Unit
  | _, [] => pure ()
  | level, last :: more => do
    pass slot level last
    unhook slot (level + 1) more

/-- Count of the levels in use, of which there are at most so many. -/
def usedLevels (a : Arena α) : Nat → Result Nat
  | level + 2 => do
    if (← a.next head (level + 1)) = tail then a.usedLevels (level + 1) else return level + 2
  | level => .ok level

/-- Unlink a slot from those that a search has left, and give its element back. -/
def unlink (slot : Nat) (update : List Nat) : ArenaStep α (Option α) := do
  unhook slot 0 (update.take (← get).level)
  let a ← get
  let level ← (a.usedLevels a.level : Result _)
  let node ← (a.node slot : Result _)
  set { a with level, size := a.size - 1, free := slot :: a.free }
  setNode slot ⟨none, []⟩
  return node.value

/-- Unlink a found slot if its element is equal to a key. -/
def unlinkEqual (found : Nat) (key : α) (update : List Nat) : ArenaStep α (Option α) := do
  if ← ((← get).matches? found key : Result _) then unlink found update else return none

/-- Insert an element in place of one that is equal to it, which is given back. -/
def insert (value : α) : ArenaStep α (Option α) := do
  let a ← get
  let update ← (a.predecessors value : Result _)
  let old ← unlinkEqual (← (a.after update : Result _)) value update
  link value update
  return old

/-- Insert an element, merged with one that is equal to it. -/
def insertWith (value : α) (merge : α → α → Result α) : ArenaStep α Unit := do
  let a ← get
  let update ← (a.predecessors value : Result _)
  let found ← (a.after update : Result _)
  match (← (a.node found : Result _)).value.filter fun v => a.order v value == .eq with
  | some old => do
    let merged ← (merge old value : Result _)
    let _ ← unlink found update
    link merged update
  | none => link value update

/-- Remove the element that is equal to a key and give it back. -/
def remove (key : α) : ArenaStep α (Option α) := do
  let a ← get
  let update ← (a.predecessors key : Result _)
  unlinkEqual (← (a.after update : Result _)) key update

/-- The slots from a given one on, fewer than `fuel`, whose elements do not come after a key. -/
def runFrom (a : Arena α) (last : α) : (fuel slot : Nat) → Result (List Nat)
  | 0, _ => .error .aborted
  | fuel + 1, slot =>
    if slot = tail then .ok []
    else do
      match (← a.node slot).value with
      | some v =>
        if a.order v last == .gt then return []
        else return slot :: (← a.runFrom last fuel (← a.next slot 0))
      | none => return []

/-- What `merge` makes of the elements of a run and new ones; where there is no run the new ones. -/
def mergeRun (a : Arena α) (run : List Nat) (values : List α)
    (merge : List α → List α → Result (List α)) : Result (List α) :=
  if run.isEmpty then .ok values
  else do merge ((← run.mapM a.node).filterMap Node.value) values

/-- Unlink slots that follow each other. What a search for the first of them has left serves for all
of them. -/
def unlinkRun (run : List Nat) : ArenaStep α Unit := do
  match run with
  | [] => return
  | first :: _ =>
    let a ← get
    match (← (a.node first : Result _)).value with
    | none => throw (.refused (.internal "empty skip list node") 0)
    | some key =>
      let update ← (a.predecessors key : Result _)
      run.forM fun slot => do
        let _ ← unlink slot update

/-- Link an element where a search for it leads. -/
def linkFound (value : α) : ArenaStep α Unit := do
  link value (← ((← get).predecessors value : Result _))

/-- Replace the elements between the first and the last of some new values by what `merge` makes of
both; when there are none the new values are put in as they are. -/
def splice (values : List α) (merge : List α → List α → Result (List α)) : ArenaStep α Unit := do
  match values with
  | [] => return
  | first :: more =>
    let a ← get
    let found ← (a.after (← a.predecessors first) : Result _)
    let run ← (a.runFrom (more.getLastD first) a.nodes.size found : Result _)
    let merged ← (a.mergeRun run values merge : Result _)
    unlinkRun run
    merged.forM linkFound

end Arena

end TemporalAlgebra
