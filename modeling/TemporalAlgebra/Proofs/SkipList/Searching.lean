import Mathlib.Data.List.Perm.Subperm
import Mathlib.Data.List.Range
import TemporalAlgebra.Proofs.SkipList
import TemporalAlgebra.Proofs.SkipList.Links

/-!
# Searching an arena

An arena represents a skip list if the slots of a row hold its towers. Then a search leads to the
same place in both, it leaves on each level the last slot of the row before that place, and the
elements are the same.
-/
namespace TemporalAlgebra.Arena

variable {α : Type}

/-- The slots of a row, from the head on, and the count of levels on which each is linked. -/
def outline (maxLevel : Nat) (row : List (Nat × Tower α)) : List (Nat × Nat) :=
  (head, maxLevel) :: row.map fun p => (p.1, p.2.height)

/-- Slots in use and those that were given up are apart from each other, from the head and from the
tail. -/
structure Apart (size : Nat) (free slots : List Nat) : Prop where
  nodup : (slots ++ free).Nodup
  bounds : ∀ slot ∈ slots ++ free, tail < slot ∧ slot < size

lemma Apart.perm {size : Nat} {free free' slots slots' : List Nat} (h : Apart size free slots)
    (hperm : (slots' ++ free').Perm (slots ++ free)) : Apart size free' slots' :=
  ⟨hperm.nodup_iff.mpr h.nodup, fun slot hslot => h.bounds slot (hperm.mem_iff.mp hslot)⟩

lemma Apart.bounds_of_mem {size : Nat} {free slots : List Nat} (h : Apart size free slots)
    {slot : Nat} (hslot : slot ∈ slots) : tail < slot ∧ slot < size :=
  h.bounds slot (List.mem_append_left _ hslot)

/-- The slots in a row of an arena hold the towers of a skip list. -/
structure Represents (a : Arena α) (row : List (Nat × Tower α)) (s : SkipList α) : Prop where
  order_eq : a.order = s.order
  maxLevel_eq : a.maxLevel = s.maxLevel
  heights_eq : a.heights = s.heights
  built_eq : a.built = s.built
  towers_eq : s.towers = row.map Prod.snd
  size_eq : a.size = s.size
  level_eq : a.level = s.level
  wired : Wired a.nodes (outline a.maxLevel row)
  value_eq : ∀ p ∈ row, value? a.nodes p.1 = some (some p.2.value)
  value_tail : value? a.nodes tail = some none
  apart : Apart a.nodes.size a.free (row.map Prod.fst)
  heights : ∀ p ∈ row, 1 ≤ p.2.height ∧ p.2.height ≤ a.maxLevel
  one_le : 1 ≤ a.maxLevel

/-- The last slot of a row and the levels on which it is linked. -/
def Ends (maxLevel : Nat) (row : List (Nat × Tower α)) (last height : Nat) : Prop :=
  ∃ before, outline maxLevel row = before ++ [(last, height)]

section

variable {a : Arena α} {row left ahead right : List (Nat × Tower α)} {s : SkipList α}

lemma outline_append (maxLevel : Nat) (left right : List (Nat × Tower α)) :
    outline maxLevel (left ++ right) =
      outline maxLevel left ++ right.map fun p => (p.1, p.2.height) := by
  simp [outline]

lemma ends_concat (maxLevel : Nat) (row : List (Nat × Tower α)) (p : Nat × Tower α) :
    Ends maxLevel (row ++ [p]) p.1 p.2.height :=
  ⟨outline maxLevel row, outline_append maxLevel row [p]⟩

lemma Represents.next_eq (h : Represents a row s) (hrow : row = left ++ ahead)
    {last height level : Nat} (hends : Ends a.maxLevel left last height) (hlevel : level < height) :
    a.next last level = .ok (landing level (ahead.map fun p => (p.1, p.2.height))) := by
  obtain ⟨before, hbefore⟩ := hends
  refine next_eq_ok.mpr (h.wired before (last, height) _ ?_ level hlevel)
  rw [hrow, outline_append, hbefore, List.append_assoc]
  rfl

lemma Represents.tail_lt (h : Represents a row s) {p : Nat × Tower α} (hp : p ∈ row) :
    tail < p.1 := (h.apart.bounds_of_mem (List.mem_map_of_mem hp)).1

lemma Represents.node_eq (h : Represents a row s) {p : Nat × Tower α} (hp : p ∈ row) :
    ∃ n, a.node p.1 = .ok n ∧ n.value = some p.2.value := by
  obtain ⟨n, hn, hv⟩ := exists_node (h.value_eq p hp)
  exact ⟨n, node_eq_ok.mpr hn, hv⟩

lemma Represents.precedes_eq (h : Represents a row s) {p : Nat × Tower α} (hp : p ∈ row) (key : α) :
    a.precedes p.1 key = .ok (s.precedes p.2 key) := by
  obtain ⟨n, hn, hv⟩ := h.node_eq hp
  unfold precedes SkipList.precedes
  rw [if_neg (h.tail_lt hp).ne', hn, ← h.order_eq]
  change Except.ok (n.value.any _) = _
  rw [hv]
  rfl

/-- A walk along a level leads as far in the arena as in the skip list. Where it passes a slot that
is linked above the level, that comes before the key; the next one does not. -/
structure Walks (a : Arena α) (s : SkipList α) (key : α) (level : Nat)
    (left ahead passed rest : List (Nat × Tower α)) (last height : Nat) : Prop where
  ahead_eq : ahead = passed ++ rest
  level_lt : level < height
  ends : Ends a.maxLevel (left ++ passed) last height
  rest_eq : rest.map Prod.snd = s.advance key level (ahead.map Prod.snd)
  passes : ∀ p ∈ passed, p.2.height ≤ level ∨ s.precedes p.2 key = true
  stops : ∀ p ∈ rest.find? fun p => decide (level < p.2.height), s.precedes p.2 key = false

lemma exists_low (level : Nat) (ahead : List (Nat × Tower α)) : ∃ low rest, ahead = low ++ rest ∧
    (∀ p ∈ low, p.2.height ≤ level) ∧ ∀ p ∈ rest.head?, level < p.2.height := by
  refine ⟨ahead.takeWhile fun p => decide (p.2.height ≤ level),
    ahead.dropWhile fun p => decide (p.2.height ≤ level),
    List.takeWhile_append_dropWhile.symm, fun p hp => ?_, fun p hp => ?_⟩
  · simpa using List.all_eq_true.mp List.all_takeWhile p hp
  · have hnot := List.head?_dropWhile_not (fun p => decide (p.2.height ≤ level)) ahead
    rw [Option.mem_def.mp hp] at hnot
    simpa using hnot

lemma dropWhile_low {level : Nat} {low : List (Nat × Tower α)}
    (hlow : ∀ p ∈ low, p.2.height ≤ level) (rest : List (Nat × Tower α)) :
    ((low ++ rest).map Prod.snd).dropWhile (fun t => decide (t.height ≤ level)) =
      (rest.map Prod.snd).dropWhile fun t => decide (t.height ≤ level) := by
  rw [List.map_append]
  refine List.dropWhile_append_of_pos fun t ht => ?_
  obtain ⟨p, hp, rfl⟩ := List.mem_map.mp ht
  simpa using hlow p hp

lemma find?_low {level : Nat} {low : List (Nat × Tower α)}
    (hlow : ∀ p ∈ low, p.2.height ≤ level) (rest : List (Nat × Tower α)) :
    (low ++ rest).find? (fun p => decide (level < p.2.height)) =
      rest.find? fun p => decide (level < p.2.height) := by
  rw [List.find?_append, List.find?_eq_none.mpr fun p hp => by simpa using hlow p hp]
  rfl

lemma Walks.stay {key : α} {level height last : Nat} {left ahead : List (Nat × Tower α)}
    (hlevel : level < height) (hends : Ends a.maxLevel left last height)
    (hadvance : s.advance key level (ahead.map Prod.snd) = ahead.map Prod.snd)
    (hstops : ∀ p ∈ ahead.find? fun p => decide (level < p.2.height),
      s.precedes p.2 key = false) : Walks a s key level left ahead [] ahead last height :=
  ⟨rfl, hlevel, by simpa, hadvance.symm, by simp, hstops⟩

/-- A walk from behind a tower that comes before the key has passed that tower and the low ones in
front of it. -/
lemma Walks.pass {key : α} {level height last : Nat} {p : Nat × Tower α}
    {left low ahead passed rest : List (Nat × Tower α)} (hlow : ∀ q ∈ low, q.2.height ≤ level)
    (hbefore : s.precedes p.2 key = true)
    (hadvance : s.advance key level ((low ++ p :: ahead).map Prod.snd) =
      s.advance key level (ahead.map Prod.snd))
    (h : Walks a s key level (left ++ low ++ [p]) ahead passed rest last height) :
    Walks a s key level left (low ++ p :: ahead) (low ++ p :: passed) rest last height := by
  refine ⟨by simp [h.ahead_eq], h.level_lt, by simpa using h.ends, h.rest_eq.trans hadvance.symm,
    fun q hq => ?_, h.stops⟩
  rcases List.mem_append.mp hq with hq | hq
  · exact Or.inl (hlow q hq)
  · rcases List.mem_cons.mp hq with rfl | hq
    · exact Or.inr hbefore
    · exact h.passes q hq

lemma walk_spec (h : Represents a row s) (key : α) {level height : Nat} (hlevel : level < height)
    (fuel : Nat) {left ahead : List (Nat × Tower α)} {last : Nat} (hrow : row = left ++ ahead)
    (hends : Ends a.maxLevel left last height) (hfuel : ahead.length < fuel) :
    ∃ passed rest last' height', a.walk key level fuel last = .ok last' ∧
      Walks a s key level left ahead passed rest last' height' := by
  induction fuel generalizing left ahead last height with
  | zero => omega
  | succ fuel ih =>
    -- Both look next at the first tower ahead that is linked on the level.
    obtain ⟨low, rest, rfl, hlow, hhead⟩ := exists_low level ahead
    have hnext := h.next_eq hrow hends hlevel
    rw [List.map_append, landing_append_of_le (List.forall_mem_map.mpr hlow)] at hnext
    have hdrop := dropWhile_low hlow rest
    have hfind := find?_low hlow rest
    rw [walk]
    cases rest with
    | nil =>
      exact ⟨[], _, last, height, bind_eq_ok.mpr ⟨tail, hnext, rfl⟩,
        .stay hlevel hends (SkipList.advance_of_nil s key hdrop) (by rw [hfind]; simp)⟩
    | cons p rest =>
      have hp : level < p.2.height := hhead p rfl
      have hmem : p ∈ row := by simp [hrow]
      rw [List.map_cons, landing_cons_of_lt hp] at hnext
      have hadvance := SkipList.advance_of_cons s key (hdrop.trans
        (List.dropWhile_cons_of_neg (by simpa using hp)))
      cases hbefore : s.precedes p.2 key with
      | false =>
        rw [hbefore] at hadvance
        rw [List.find?_cons_of_pos (by simpa using hp)] at hfind
        exact ⟨[], _, last, height, bind_eq_ok.mpr ⟨p.1, hnext, bind_eq_ok.mpr
          ⟨false, (h.precedes_eq hmem key).trans (by rw [hbefore]), rfl⟩⟩,
          .stay hlevel hends hadvance (by rw [hfind]; simpa using hbefore)⟩
      | true =>
        rw [hbefore, if_pos rfl] at hadvance
        obtain ⟨passed, rest', last', height', hwalk, hw⟩ := ih hp
          (show row = (left ++ low ++ [p]) ++ rest by simp [hrow])
          (ends_concat a.maxLevel (left ++ low) p) (by simp at hfuel; omega)
        exact ⟨low ++ p :: passed, rest', last', height', bind_eq_ok.mpr ⟨p.1, hnext,
          bind_eq_ok.mpr ⟨true, (h.precedes_eq hmem key).trans (by rw [hbefore]), hwalk⟩⟩,
          hw.pass hlow hbefore hadvance⟩

lemma low_of_stops {level : Nat} {s : SkipList α} {key : α}
    {ahead passed rest : List (Nat × Tower α)} (hahead : ahead = passed ++ rest)
    (hpasses : ∀ p ∈ passed, p.2.height ≤ level ∨ s.precedes p.2 key = true)
    (hstops : ∀ p ∈ ahead.find? fun p => decide (level < p.2.height),
      s.precedes p.2 key = false) : ∀ p ∈ passed, p.2.height ≤ level := by
  intro p hp
  by_contra hlt
  obtain ⟨q, hq⟩ : ∃ q, passed.find? (fun p => decide (level < p.2.height)) = some q := by
    rw [← Option.isSome_iff_exists, List.find?_isSome]
    exact ⟨p, hp, by simpa using hlt⟩
  have hstop := hstops q (by rw [hahead, List.find?_append, hq]; rfl)
  have hlevel : level < q.2.height := by simpa using List.find?_some hq
  rcases hpasses q (List.mem_of_find?_eq_some hq) with hle | hbefore
  · omega
  · rw [hstop] at hbefore
    cases hbefore

/-- A descent leads as far in the arena as in the skip list, and it leaves the last slot that is
linked on each level. -/
lemma descend_spec (h : Represents a row s) (hfuel : row.length < a.nodes.size) (key : α)
    (level : Nat) {left ahead : List (Nat × Tower α)} {last height : Nat}
    (hrow : row = left ++ ahead) (hends : Ends a.maxLevel left last height)
    (hlevel : level ≤ height) (found : List Nat) :
    ∃ passed rest, ahead = passed ++ rest ∧
      rest.map Prod.snd = s.descend key level (ahead.map Prod.snd) ∧
      (∀ p ∈ passed, p.2.height < level ∨ s.precedes p.2 key = true) ∧
      a.descend key level last found = .ok
        ((List.range level).map (fun l => lastOn l (outline a.maxLevel (left ++ passed))) ++
          found) := by
  induction level generalizing left ahead last height found with
  | zero => exact ⟨[], ahead, rfl, rfl, by simp, rfl⟩
  | succ level ih =>
    obtain ⟨passed, rest, last', height', hwalk, hw⟩ := walk_spec h key (by omega : level < height)
      a.nodes.size hrow hends (by rw [hrow, List.length_append] at hfuel; omega)
    have hrow' : row = (left ++ passed) ++ rest := by rw [hrow, hw.ahead_eq, List.append_assoc]
    obtain ⟨more, rest', hrest, hdescend, hpasses, hfound⟩ :=
      ih hrow' hw.ends hw.level_lt.le (last' :: found)
    -- So what is passed further down leaves the last slot of this level the last one.
    have hlow := low_of_stops hrest (fun p hp => (hpasses p hp).imp_left Nat.le_of_lt) hw.stops
    refine ⟨passed ++ more, rest', ?_, ?_, fun p hp => ?_, ?_⟩
    · rw [hw.ahead_eq, hrest, List.append_assoc]
    · rw [SkipList.descend, ← hw.rest_eq, hdescend]
    · rcases List.mem_append.mp hp with hp | hp
      · exact (hw.passes p hp).imp_left Nat.lt_succ_of_le
      · exact (hpasses p hp).imp_left Nat.lt_succ_of_lt
    · rw [descend]
      refine bind_eq_ok.mpr ⟨last', hwalk, hfound.trans ?_⟩
      obtain ⟨before, hbefore⟩ := hw.ends
      have hlast : lastOn level (outline a.maxLevel (left ++ passed ++ more)) = last' := by
        rw [outline_append, hbefore, List.append_assoc]
        exact lastOn_split hw.level_lt (List.forall_mem_map.mpr hlow)
      rw [List.range_succ, List.map_append, List.map_singleton, ← List.append_assoc left, hlast,
        List.append_assoc _ [last'] found]
      rfl

lemma Represents.length_lt (h : Represents a row s) : row.length < a.nodes.size := by
  have hsubset : tail :: row.map Prod.fst ⊆ List.range a.nodes.size := by
    intro slot hslot
    rw [List.mem_range]
    rcases List.mem_cons.mp hslot with rfl | hslot
    · obtain ⟨n, hn, -⟩ := exists_node h.value_tail
      exact (Array.getElem?_eq_some_iff.mp hn).1
    · exact (h.apart.bounds_of_mem hslot).2
  have hnodup : (tail :: row.map Prod.fst).Nodup := by
    refine List.nodup_cons.mpr ⟨fun hmem => ?_, h.apart.nodup.of_append_left⟩
    exact lt_irrefl _ (h.apart.bounds_of_mem hmem).1
  have hlength := (List.subperm_of_subset hnodup hsubset).length_le
  rw [List.length_cons, List.length_map, List.length_range] at hlength
  omega

lemma Represents.level_le (h : Represents a row s) :
    (∀ p ∈ row, p.2.height ≤ a.level) ∧ a.level ≤ a.maxLevel := by
  have hle := (SkipList.level_le_iff s a.level).mp h.level_eq.ge
  rw [h.towers_eq, List.forall_mem_map] at hle
  refine ⟨hle.2, h.level_eq ▸ (SkipList.level_le_iff s a.maxLevel).mpr ⟨h.one_le, ?_⟩⟩
  rw [h.towers_eq, List.forall_mem_map]
  exact fun p hp => (h.heights p hp).2

/-- The last slots of a part of a row on all levels. -/
def lasts (maxLevel : Nat) (left : List (Nat × Tower α)) : List Nat :=
  (List.range maxLevel).map fun l => lastOn l (outline maxLevel left)

lemma lastOn_eq_head {maxLevel level : Nat} {left : List (Nat × Tower α)}
    (h : ∀ p ∈ left, p.2.height ≤ level) : lastOn level (outline maxLevel left) = head := by
  unfold outline
  by_cases hlevel : level < maxLevel
  · rw [← List.nil_append ((head, maxLevel) :: _)]
    exact lastOn_split hlevel (List.forall_mem_map.mpr h)
  · exact lastOn_append_of_le [] (List.forall_mem_cons.mpr
      ⟨by simpa using hlevel, List.forall_mem_map.mpr h⟩)

lemma Represents.map_lastOn_range (h : Represents a row s) (hleft : ∀ p ∈ left, p ∈ row) {n : Nat}
    (hn : a.level ≤ n) : ((List.range n).map fun l => lastOn l (outline a.maxLevel left)) =
      ((List.range a.level).map fun l => lastOn l (outline a.maxLevel left)) ++
        List.replicate (n - a.level) head := by
  have hsplit := List.range'_append_1 (s := 0) (m := a.level) (n := n - a.level)
  rw [Nat.zero_add, Nat.add_sub_cancel' hn] at hsplit
  rw [List.range_eq_range', List.range_eq_range', ← hsplit, List.map_append]
  congr 1
  refine List.eq_replicate_iff.mpr ⟨by simp, fun slot hslot => ?_⟩
  obtain ⟨l, hl, rfl⟩ := List.mem_map.mp hslot
  rw [List.mem_range'_1] at hl
  exact lastOn_eq_head fun p hp => (h.level_le.1 p (hleft p hp)).trans hl.1

/-- A search leads to the same place in the arena as in the skip list. -/
theorem predecessors_spec (h : Represents a row s) (key : α) : ∃ left right, row = left ++ right ∧
    left.map Prod.snd = s.behind key ∧ right.map Prod.snd = s.seek key ∧
      a.predecessors key = .ok (lasts a.maxLevel left) := by
  obtain ⟨-, hlevel⟩ := h.level_le
  obtain ⟨left, right, hrow, hright, -, hfound⟩ := descend_spec h h.length_lt key a.level
    (show row = [] ++ row from rfl) ⟨[], rfl⟩ hlevel (List.replicate (a.maxLevel - a.level) head)
  have hseek : right.map Prod.snd = s.seek key := by
    rw [hright, ← h.towers_eq, h.level_eq]
    rfl
  have htowers := (SkipList.behind_append_seek s key).trans h.towers_eq
  rw [hrow, List.map_append, ← hseek] at htowers
  refine ⟨left, right, hrow, (List.append_cancel_right htowers).symm, hseek, hfound.trans ?_⟩
  unfold lasts
  rw [h.map_lastOn_range (fun p hp => by simp [hrow, hp]) hlevel]
  rfl

lemma Represents.next_lastOn (h : Represents a row s) (hrow : row = left ++ right) {l : Nat}
    (hl : l < a.maxLevel) : next? a.nodes (lastOn l (outline a.maxLevel left)) l =
      some (landing l (right.map fun p => (p.1, p.2.height))) := by
  have hlinked : ∃ q ∈ outline a.maxLevel left, l < q.2 := ⟨_, List.mem_cons_self, hl⟩
  obtain ⟨before, q, after, hleft, hq, hafter, hlast⟩ := exists_lastOn hlinked
  have hcut : outline a.maxLevel row =
      before ++ q :: (after ++ right.map fun p => (p.1, p.2.height)) := by
    rw [hrow, outline_append, hleft, List.append_assoc, List.cons_append]
  rw [hlast, h.wired before q _ hcut l hq, landing_append_of_le hafter]

def firstSlot (row : List (Nat × Tower α)) : Nat :=
  match row with
  | [] => tail
  | p :: _ => p.1

lemma Represents.landing_eq (h : Represents a row s) (hrow : row = left ++ right) :
    landing 0 (right.map fun p => (p.1, p.2.height)) = firstSlot right := by
  cases right with
  | nil => rfl
  | cons p rest =>
    exact landing_cons_of_lt (Nat.lt_of_succ_le (h.heights p (by simp [hrow])).1)

lemma Represents.after_eq (h : Represents a row s) (hrow : row = left ++ right) :
    a.after (lasts a.maxLevel left) = .ok (firstSlot right) := by
  have hpos := h.one_le
  have hfirst : (lasts a.maxLevel left).head? = some (lastOn 0 (outline a.maxLevel left)) := by
    unfold lasts
    obtain ⟨n, hn⟩ : ∃ n, a.maxLevel = n + 1 := ⟨a.maxLevel - 1, by omega⟩
    rw [hn, List.range_succ_eq_map]
    rfl
  exact bind_eq_ok.mpr ⟨_, orAbort_eq_ok.mpr hfirst,
    next_eq_ok.mpr ((h.next_lastOn hrow hpos).trans (by rw [h.landing_eq hrow]))⟩

lemma Represents.node_first (h : Represents a row s) (hrow : row = left ++ right) :
    ∃ n, a.node (firstSlot right) = .ok n ∧ n.value = right.head?.map fun p => p.2.value := by
  cases right with
  | nil =>
    obtain ⟨n, hn, hv⟩ := exists_node h.value_tail
    exact ⟨n, node_eq_ok.mpr hn, hv⟩
  | cons p rest => exact h.node_eq (by simp [hrow])

lemma search_eq {key : α} (hseek : right.map Prod.snd = s.seek key) :
    s.search key = (right.head?.map fun p => p.2.value).filter fun v => s.order v key == .eq := by
  unfold SkipList.search SkipList.found?
  rw [← hseek]
  cases right with
  | nil => rfl
  | cons p rest =>
    rw [List.map_cons, List.head?_cons, Option.map_some, Option.filter_some]
    dsimp only
    cases s.order p.2.value key == .eq <;> rfl

lemma Represents.matches_eq (h : Represents a row s) (hrow : row = left ++ right) {key : α}
    (hseek : right.map Prod.snd = s.seek key) :
    a.matches? (firstSlot right) key = .ok (s.search key).isSome := by
  obtain ⟨n, hn, hv⟩ := h.node_first hrow
  refine bind_eq_ok.mpr ⟨n, hn, ?_⟩
  rw [hv, search_eq hseek, Option.isSome_filter, ← h.order_eq]
  rfl

/-- A search finds the same element in the arena as in the skip list. -/
theorem search_spec (h : Represents a row s) (key : α) : a.search key = .ok (s.search key) := by
  obtain ⟨left, right, hrow, -, hseek, hfound⟩ := predecessors_spec h key
  obtain ⟨n, hn, hv⟩ := h.node_first hrow
  refine bind_eq_ok.mpr ⟨_, hfound, bind_eq_ok.mpr ⟨_, h.after_eq hrow, bind_eq_ok.mpr ⟨n, hn, ?_⟩⟩⟩
  rw [hv, search_eq hseek, h.order_eq]
  rfl

/-- Slots that follow each other on the lowest level and hold the elements of towers. -/
def Threaded (nodes : Array (Node α)) : List (Nat × Tower α) → Prop
  | [] => True
  | p :: rest => p.1 ≠ tail ∧ next? nodes p.1 0 = some (firstSlot rest) ∧
      value? nodes p.1 = some (some p.2.value) ∧ Threaded nodes rest

lemma Represents.threaded (h : Represents a row s) (hrow : row = left ++ right) :
    Threaded a.nodes right := by
  induction right generalizing left with
  | nil => trivial
  | cons p rest ih =>
    have hp : p ∈ row := by simp [hrow]
    have hrow' : row = (left ++ [p]) ++ rest := by simp [hrow]
    have hnext := h.next_eq hrow' (ends_concat a.maxLevel left p)
      (Nat.lt_of_succ_le (h.heights p hp).1)
    rw [h.landing_eq hrow'] at hnext
    exact ⟨(h.tail_lt hp).ne', next_eq_ok.mp hnext, h.value_eq p hp, ih hrow'⟩

lemma elementsFrom_spec {fuel : Nat} (h : Threaded a.nodes row) (hfuel : row.length < fuel) :
    a.elementsFrom fuel (firstSlot row) = .ok (row.map fun p => p.2.value) := by
  induction row generalizing fuel with
  | nil =>
    obtain ⟨fuel, rfl⟩ : ∃ n, fuel = n + 1 := ⟨fuel - 1, by omega⟩
    rfl
  | cons p rest ih =>
    obtain ⟨fuel, rfl⟩ : ∃ n, fuel = n + 1 := ⟨fuel - 1, by omega⟩
    obtain ⟨htail, hnext, hvalue, hrest⟩ := h
    obtain ⟨n, hn, hv⟩ := exists_node hvalue
    change a.elementsFrom (fuel + 1) p.1 = _
    rw [elementsFrom, if_neg htail]
    refine bind_eq_ok.mpr ⟨_, next_eq_ok.mpr hnext, bind_eq_ok.mpr ⟨n, node_eq_ok.mpr hn, ?_⟩⟩
    rw [hv]
    exact bind_eq_ok.mpr ⟨_, ih hrest (by simpa using hfuel), rfl⟩

lemma Represents.next_head (h : Represents a row s) : a.next head 0 = .ok (firstSlot row) :=
  (h.next_eq (show row = [] ++ row from rfl) ⟨[], rfl⟩ (Nat.lt_of_succ_le h.one_le)).trans
    (by rw [h.landing_eq (show row = [] ++ row from rfl)])

theorem elements_spec (h : Represents a row s) : a.elements = .ok s.toList := by
  refine bind_eq_ok.mpr ⟨_, h.next_head, ?_⟩
  rw [elementsFrom_spec (h.threaded (show row = [] ++ row from rfl)) h.length_lt]
  unfold SkipList.toList
  rw [h.towers_eq, List.map_map]
  rfl

lemma Threaded.congr {nodes nodes' : Array (Node α)} (h : Threaded nodes row)
    (hnext : ∀ p ∈ row, next? nodes' p.1 0 = next? nodes p.1 0)
    (hvalue : ∀ p ∈ row, value? nodes' p.1 = value? nodes p.1) : Threaded nodes' row := by
  induction row with
  | nil => trivial
  | cons p rest ih =>
    obtain ⟨htail, hn, hv, hrest⟩ := h
    exact ⟨htail, (hnext p (by simp)).trans hn, (hvalue p (by simp)).trans hv,
      ih hrest (fun q hq => hnext q (by simp [hq])) fun q hq => hvalue q (by simp [hq])⟩

lemma drain_spec {fuel : Nat} (h : Threaded a.nodes row) (hnodup : (row.map Prod.fst).Nodup)
    (hfuel : row.length < fuel) :
    ∃ a', Runs (drain fuel (firstSlot row)) a (.ok (row.map fun p => p.2.value)) a' := by
  induction row generalizing fuel a with
  | nil =>
    obtain ⟨fuel, rfl⟩ : ∃ n, fuel = n + 1 := ⟨fuel - 1, by omega⟩
    exact ⟨a, rfl⟩
  | cons p rest ih =>
    obtain ⟨fuel, rfl⟩ : ∃ n, fuel = n + 1 := ⟨fuel - 1, by omega⟩
    obtain ⟨htail, hnext, hvalue, hrest⟩ := h
    obtain ⟨n, hn, hv⟩ := exists_node hvalue
    rw [List.map_cons, List.nodup_cons] at hnodup
    have hother : ∀ q ∈ rest, (a.nodes.setIfInBounds p.1 { n with value := none })[q.1]? =
        a.nodes[q.1]? := by
      intro q hq
      rw [Array.getElem?_setIfInBounds, if_neg]
      rintro heq
      exact hnodup.1 (heq ▸ List.mem_map_of_mem hq)
    obtain ⟨a', hrun⟩ := ih
      (a := { a with nodes := a.nodes.setIfInBounds p.1 { n with value := none } })
      (hrest.congr (fun q hq => next?_congr (hother q hq) 0)
        fun q hq => value?_congr (hother q hq)) hnodup.2 (Nat.lt_of_succ_lt_succ hfuel)
    refine ⟨a', ?_⟩
    change Runs (drain (fuel + 1) p.1) a _ a'
    rw [drain, if_neg htail]
    refine .bind (runs_get a) (.bind (runs_lift (node_eq_ok.mpr hn) a)
      (.bind (runs_lift (next_eq_ok.mpr hnext) a) (.bind (runs_set a _) ?_)))
    rw [hv]
    exact .bind hrun (runs_pure _ a')

theorem intoElements_spec (h : Represents a row s) :
    ∃ a', Runs intoElements a (.ok s.toList) a' := by
  obtain ⟨a', hrun⟩ := drain_spec (h.threaded (show row = [] ++ row from rfl))
    h.apart.nodup.of_append_left h.length_lt
  refine ⟨a', .bind (runs_get a) (.bind (runs_lift h.next_head a) ?_)⟩
  unfold SkipList.toList
  rw [h.towers_eq, List.map_map]
  exact hrun

end

end TemporalAlgebra.Arena
