import Mathlib.Order.Basic
import TemporalAlgebra.Proofs.SkipList.Searching
import TemporalAlgebra.Proofs.SkipList.Sorted

/-!
# Changing an arena

What is linked or unlinked in an arena is put into the skip list that it represents, or taken out of
it. So inserting, removing and splicing in the arena do what they do in the skip list, and a merge
that is refused leaves the arena as it was.
-/
namespace TemporalAlgebra.Arena

variable {α : Type} {a : Arena α} {row left right : List (Nat × Tower α)} {s : SkipList α}

lemma runs_alloc {slots : List Nat} (h : Apart a.nodes.size a.free slots)
    (htail : tail < a.nodes.size) (node : Node α) :
    ∃ slot nodes free, Runs (alloc node) a (.ok slot) { a with nodes, free } ∧
      nodes[slot]? = some node ∧ (∀ j, j ≠ slot → nodes[j]? = a.nodes[j]?) ∧
      Apart nodes.size free (slot :: slots) := by
  cases hf : a.free with
  | nil =>
    rw [hf] at h
    refine ⟨a.nodes.size, a.nodes.push node, [], ?_, by simp, fun j hj => ?_, ?_, fun j hj => ?_⟩
    · refine .bind (runs_get a) ?_
      rw [hf]
      refine .bind (runs_set a _) ?_
      obtain ⟨order, nodes, free, size, level, maxLevel, heights, built⟩ := a
      obtain rfl : free = [] := hf
      exact runs_pure _ _
    · rw [Array.getElem?_push, if_neg hj]
    · exact List.nodup_cons.mpr ⟨fun hmem => lt_irrefl _ (h.bounds _ hmem).2, h.nodup⟩
    · rw [Array.size_push]
      rcases List.mem_cons.mp hj with rfl | hj
      · exact ⟨htail, Nat.lt_succ_self _⟩
      · exact ⟨(h.bounds j hj).1, Nat.lt_succ_of_lt (h.bounds j hj).2⟩
  | cons slot free =>
    rw [hf] at h
    have hslot : slot < a.nodes.size := (h.bounds slot (by simp)).2
    refine ⟨slot, a.nodes.setIfInBounds slot node, free, ?_, ?_, fun j hj => ?_, ?_⟩
    · refine .bind (runs_get a) ?_
      rw [hf]
      refine .bind (runs_set a { a with free }) (.bind (b := ()) ?_ (runs_pure slot _))
      exact .bind (runs_get _) (.bind (runs_lift (node_eq_ok.mpr
        (Array.getElem?_eq_getElem hslot)) _) (runs_set _ _))
    · rw [Array.getElem?_setIfInBounds, if_pos rfl, if_pos hslot]
    · rw [Array.getElem?_setIfInBounds, if_neg (Ne.symm hj)]
    · rw [Array.size_setIfInBounds]
      exact h.perm List.perm_middle.symm

lemma nextHeight_eq (h : Represents a row s) :
    a.nextHeight = s.nextHeight ∧ 1 ≤ s.nextHeight ∧ s.nextHeight ≤ a.maxLevel := by
  have hpos := h.one_le
  unfold nextHeight SkipList.nextHeight
  rw [h.heights_eq, h.built_eq, h.maxLevel_eq]
  rw [h.maxLevel_eq] at hpos
  omega

lemma take_lasts {maxLevel n : Nat} (left : List (Nat × Tower α)) (hn : n ≤ maxLevel) :
    (lasts maxLevel left).take n =
      (List.range n).map fun l => lastOn l (outline maxLevel left) := by
  unfold lasts
  rw [← List.map_take, List.take_range, min_eq_left hn]

/-- On levels that are not in use a search has left the head already. -/
lemma raised_eq (h : Represents a (left ++ right) s) {height : Nat} (hmax : height ≤ a.maxLevel) :
    (if a.level < height then (lasts a.maxLevel left).take a.level ++
        List.replicate (height - a.level) head ++ (lasts a.maxLevel left).drop height
      else lasts a.maxLevel left) = lasts a.maxLevel left := by
  split
  · rename_i hlt
    rw [take_lasts left h.level_le.2,
      ← h.map_lastOn_range (fun p hp => List.mem_append_left _ hp) hlt.le,
      ← take_lasts left hmax, List.take_append_drop]
  · rfl

lemma head_mem_outline (maxLevel : Nat) (left : List (Nat × Tower α)) :
    head ∈ (outline maxLevel left).map Prod.fst := List.mem_cons_self

lemma map_fst_outline (maxLevel : Nat) (row : List (Nat × Tower α)) :
    (outline maxLevel row).map Prod.fst = head :: row.map Prod.fst := by
  simp [outline]

lemma Represents.nodup_outline (h : Represents a row s) :
    ((outline a.maxLevel row).map Prod.fst).Nodup := by
  rw [map_fst_outline, List.nodup_cons]
  refine ⟨fun hmem => ?_, h.apart.nodup.of_append_left⟩
  exact absurd (h.apart.bounds_of_mem hmem).1 (by decide)

lemma map_fst_insert (left right : List (Nat × Tower α)) (p : Nat × Tower α) (free : List Nat) :
    ((left ++ p :: right).map Prod.fst ++ free).Perm
      (p.1 :: (left ++ right).map Prod.fst ++ free) := by
  rw [List.map_append, List.map_cons, List.map_append]
  exact List.perm_middle.append_right free

/-- A new element is linked in a slot apart from all others, which hold what they held. -/
lemma runs_link (h : Represents a (left ++ right) s) (value : α) : ∃ slot nodes free,
    Runs (link value (lasts a.maxLevel left)) a (.ok ()) { a with
        level := max a.level s.nextHeight, built := a.built + 1, nodes, free, size := a.size + 1 } ∧
      Wired nodes (outline a.maxLevel (left ++ (slot, ⟨value, s.nextHeight⟩) :: right)) ∧
      value? nodes slot = some (some value) ∧
      (∀ j, j ≠ slot → value? nodes j = value? a.nodes j) ∧
      Apart nodes.size free (slot :: (left ++ right).map Prod.fst) := by
  obtain ⟨hheight, -, hmax⟩ := nextHeight_eq h
  have htail : tail < a.nodes.size := by
    obtain ⟨n, hn, -⟩ := exists_node h.value_tail
    exact (Array.getElem?_eq_some_iff.mp hn).1
  obtain ⟨slot, nodes₁, free, halloc, hnode, hother, hapart⟩ := runs_alloc
    (a := { a with level := max a.level s.nextHeight, built := a.built + 1 }) h.apart htail
    ⟨some value, List.replicate s.nextHeight tail⟩
  have hnew : slot ∉ (outline a.maxLevel (left ++ right)).map Prod.fst := by
    rw [map_fst_outline, List.mem_cons, not_or]
    exact ⟨(Nat.zero_lt_of_lt (hapart.bounds_of_mem List.mem_cons_self).1).ne',
      (List.nodup_cons.mp hapart.nodup.of_append_left).1⟩
  have hwired : Wired nodes₁ (outline a.maxLevel (left ++ right)) := h.wired.congr fun p hp l =>
    next?_congr (hother p.1 fun heq => hnew (heq ▸ List.mem_map_of_mem hp)) l
  have hnodup := h.nodup_outline
  rw [outline_append] at hwired hnodup hnew
  have hlast : ∀ l, lastOn l (outline a.maxLevel left) ≠ slot := fun l heq => by
    have hmem : lastOn l (outline a.maxLevel left) ∈ _ :=
      lastOn_mem_of_head (head_mem_outline a.maxLevel left)
    rw [heq] at hmem
    rw [List.map_append] at hnew
    exact hnew (List.mem_append_left _ hmem)
  obtain ⟨nodes, hhook, hrelinks⟩ := runs_hook slot
    (f := fun l => lastOn l (outline a.maxLevel left)) s.nextHeight 0 (a := { a with
      level := max a.level s.nextHeight, built := a.built + 1, nodes := nodes₁, free })
    fun l _ hl => by
      rw [Nat.zero_add] at hl
      refine ⟨hlast l, ?_, ?_⟩
      · unfold next?
        rw [hnode]
        simp [hl]
      · rw [next?_congr (hother _ (hlast l)), h.next_lastOn rfl (hl.trans_le hmax)]
        rfl
  refine ⟨slot, nodes, free, ?_, ?_, ?_, fun j hj => ?_, ?_⟩
  · unfold link
    refine .bind (runs_get a) ?_
    dsimp only
    rw [hheight, raised_eq h hmax, take_lasts left hmax, List.range_eq_range']
    exact .bind (runs_set a _) (.bind halloc (.bind hhook (runs_modify _ _)))
  · rw [outline_append]
    exact hwired.hook hnodup hnew (fun l hl => ⟨_, List.mem_cons_self, hl.trans_le hmax⟩)
      hrelinks.next_eq
  · rw [hrelinks.value_eq]
    exact congrArg (Option.map Node.value) hnode
  · exact (hrelinks.value_eq j).trans (value?_congr (hother j hj))
  · rw [hrelinks.size_eq]
    exact hapart

/-- A new element is linked in the arena where it is in the skip list. -/
theorem link_spec (h : Represents a (left ++ right) s) (value : α) : ∃ slot a',
    Runs (link value (lasts a.maxLevel left)) a (.ok ()) a' ∧ a'.maxLevel = a.maxLevel ∧
      Represents a' (left ++ (slot, ⟨value, s.nextHeight⟩) :: right)
        (s.build (left.map Prod.snd) value (right.map Prod.snd)) := by
  obtain ⟨-, hpos, hmax⟩ := nextHeight_eq h
  obtain ⟨slot, nodes, free, hrun, hwired, hvalue, hother, hapart⟩ := runs_link h value
  have hlow : tail < slot := (hapart.bounds_of_mem List.mem_cons_self).1
  have hnotmem := (List.nodup_cons.mp hapart.nodup.of_append_left).1
  have htowers : s.towers = left.map Prod.snd ++ right.map Prod.snd := by
    rw [h.towers_eq, List.map_append]
  have hmem : ∀ p ∈ left ++ (slot, (⟨value, s.nextHeight⟩ : Tower α)) :: right,
      p = (slot, ⟨value, s.nextHeight⟩) ∨ p ∈ left ++ right := fun p hp => by
    simpa [or_left_comm] using hp
  refine ⟨slot, _, hrun, rfl, ?_⟩
  refine ⟨h.order_eq, h.maxLevel_eq, h.heights_eq, congrArg (· + 1) h.built_eq, ?_, ?_, ?_, hwired,
    fun p hp => ?_, (hother _ hlow.ne).trans h.value_tail,
    hapart.perm (map_fst_insert left right (slot, ⟨value, s.nextHeight⟩) free), fun p hp => ?_,
    h.one_le⟩
  · rw [List.map_append, List.map_cons]
    rfl
  · have hsize := h.size_eq
    unfold SkipList.size at hsize ⊢
    rw [htowers] at hsize
    simp only [SkipList.build, hsize, List.length_append, List.length_cons, Nat.add_assoc]
  · rw [SkipList.level_build htowers, ← h.level_eq]
  · rcases hmem p hp with rfl | hp
    · exact hvalue
    · rw [hother _ fun heq => hnotmem (heq ▸ List.mem_map_of_mem hp)]
      exact h.value_eq p hp
  · rcases hmem p hp with rfl | hp
    · exact ⟨hpos, hmax⟩
    · exact h.heights p hp

lemma landing_eq_tail_iff {level : Nat} (hrow : ∀ p ∈ row, tail < p.1) :
    landing level (row.map fun p => (p.1, p.2.height)) = tail ↔ ∀ p ∈ row, p.2.height ≤ level := by
  induction row with
  | nil => simp [landing]
  | cons p rest ih =>
    rw [List.map_cons, landing, List.forall_mem_cons, ← ih fun q hq => hrow q (by simp [hq])]
    have hp := hrow p (by simp)
    split
    · exact iff_of_false hp.ne' (by omega)
    · exact (and_iff_right (by omega)).symm

/-- Counted down from a level above all of a row, the levels in use are those of the row. -/
lemma usedLevels_spec (hwired : Wired a.nodes (outline a.maxLevel row))
    (hrow : ∀ p ∈ row, tail < p.1) {level : Nat} (hpos : 1 ≤ level) (hmax : level ≤ a.maxLevel)
    (hle : ∀ p ∈ row, p.2.height ≤ level) : ∃ used, a.usedLevels level = .ok used ∧
      ∀ n, used ≤ n ↔ 1 ≤ n ∧ ∀ p ∈ row, p.2.height ≤ n := by
  induction level with
  | zero => omega
  | succ level ih =>
    cases level with
    | zero => exact ⟨1, rfl, fun n => ⟨fun hn => ⟨hn, fun p hp => (hle p hp).trans hn⟩, And.left⟩⟩
    | succ level =>
      have hnext : a.next head (level + 1) =
          .ok (landing (level + 1) (row.map fun p => (p.1, p.2.height))) :=
        next_eq_ok.mpr (hwired [] (head, a.maxLevel) _ rfl (level + 1) hmax)
      by_cases hlow : ∀ p ∈ row, p.2.height ≤ level + 1
      · obtain ⟨used, hused, hiff⟩ := ih (by omega) (by omega) hlow
        refine ⟨used, ?_, hiff⟩
        rw [usedLevels, bind_of_ok hnext, if_pos ((landing_eq_tail_iff hrow).mpr hlow)]
        exact hused
      · refine ⟨level + 2, ?_, fun n => ⟨fun hn => ⟨by omega, fun p hp => (hle p hp).trans hn⟩, ?_⟩⟩
        · rw [usedLevels, bind_of_ok hnext, if_neg (fun h => hlow ((landing_eq_tail_iff hrow).mp h))]
          rfl
        · rintro ⟨-, hall⟩
          by_contra hn
          exact hlow fun p hp => (hall p hp).trans (by omega)

lemma mem_of_mem_append {p q : Nat × Tower α} (hq : q ∈ left ++ right) : q ∈ left ++ p :: right := by
  rcases List.mem_append.mp hq with hq | hq <;> simp [hq]

/-- A slot that is passed over on all levels in use is not in the row any more. -/
lemma runs_unhook_row {p : Nat × Tower α} (h : Represents a (left ++ p :: right) s) : ∃ nodes,
    Runs (unhook p.1 0 ((lasts a.maxLevel left).take a.level)) a (.ok ()) { a with nodes } ∧
      nodes.size = a.nodes.size ∧ (∀ j, value? nodes j = value? a.nodes j) ∧
      Wired nodes (outline a.maxLevel (left ++ right)) := by
  obtain ⟨hheights, hlevel⟩ := h.level_le
  have hmem : p ∈ left ++ p :: right := by simp
  have hcut : outline a.maxLevel (left ++ p :: right) = outline a.maxLevel left ++
      (p.1, p.2.height) :: right.map fun p => (p.1, p.2.height) := outline_append ..
  have hwired := h.wired
  have hnodup := h.nodup_outline
  obtain ⟨nodes, hunhook, hrelinks⟩ := runs_unhook p.1
    (f := fun l => lastOn l (outline a.maxLevel left)) a.level 0 (a := a) fun l _ hl => by
      rw [Nat.zero_add] at hl
      have hlast := h.next_lastOn rfl (hl.trans_le hlevel)
      refine ⟨by rw [hlast]; rfl, fun hslot => ?_⟩
      have hland := Option.some.inj (hlast.symm.trans hslot)
      rw [List.map_cons, landing] at hland
      split at hland
      · rename_i hp
        rw [hwired (outline a.maxLevel left) (p.1, p.2.height) _ hcut l hp]
        rfl
      · -- No slot further on is the one that is unlinked.
        have hright := landing_mem (hland.symm ▸ (h.tail_lt hmem).ne')
        rw [hland, List.map_map] at hright
        have hslots := h.apart.nodup.of_append_left
        rw [List.map_append, List.map_cons, List.nodup_append, List.nodup_cons] at hslots
        exact absurd hright hslots.2.1.1
  refine ⟨nodes, ?_, hrelinks.size_eq, hrelinks.value_eq, ?_⟩
  · rw [take_lasts left hlevel, List.range_eq_range']
    exact hunhook
  · rw [hcut] at hwired hnodup
    rw [outline_append]
    exact hwired.unhook hnodup (head_mem_outline ..) (h.tail_lt hmem).ne' (hheights p hmem)
      hrelinks.next_eq

/-- An element is unlinked with its slot given up, while the others hold what they held. -/
lemma runs_unlink {p : Nat × Tower α} (h : Represents a (left ++ p :: right) s) : ∃ nodes level,
    Runs (unlink p.1 (lasts a.maxLevel left)) a (.ok (some p.2.value))
        { a with level, size := a.size - 1, free := p.1 :: a.free, nodes } ∧
      nodes.size = a.nodes.size ∧ (∀ j, j ≠ p.1 → value? nodes j = value? a.nodes j) ∧
      Wired nodes (outline a.maxLevel (left ++ right)) ∧
      ∀ n, level ≤ n ↔ 1 ≤ n ∧ ∀ q ∈ left ++ right, q.2.height ≤ n := by
  obtain ⟨hheights, hlevel⟩ := h.level_le
  have hmem : p ∈ left ++ p :: right := by simp
  obtain ⟨nodes₁, hunhook, hsize, hvalue, hwired⟩ := runs_unhook_row h
  obtain ⟨level, hused, hiff⟩ := usedLevels_spec (a := { a with nodes := nodes₁ }) hwired
    (fun q hq => h.tail_lt (mem_of_mem_append hq)) (h.level_eq ▸ SkipList.one_le_level s) hlevel
    fun q hq => hheights q (mem_of_mem_append hq)
  obtain ⟨n, hn, hv⟩ := exists_node ((hvalue p.1).trans (h.value_eq p hmem))
  have hother : ∀ j, j ≠ p.1 → (nodes₁.setIfInBounds p.1 ⟨none, []⟩)[j]? = nodes₁[j]? :=
    fun j hj => by rw [Array.getElem?_setIfInBounds, if_neg (Ne.symm hj)]
  refine ⟨nodes₁.setIfInBounds p.1 ⟨none, []⟩, level, ?_, ?_, fun j hj => ?_,
    hwired.congr fun q hq l => next?_congr (hother q.1 fun heq => ?_) l, hiff⟩
  · refine .bind (runs_get a) (.bind hunhook (.bind (runs_get _) (.bind (runs_lift hused _)
      (.bind (runs_lift (node_eq_ok.mpr hn) _) (.bind (runs_set _ _) ?_)))))
    rw [hv]
    exact .bind (b := ()) (.bind (runs_get _) (.bind (runs_lift (node_eq_ok.mpr hn) _)
      (runs_set _ _))) (runs_pure _ _)
  · rw [Array.size_setIfInBounds, hsize]
  · exact (value?_congr (hother j hj)).trans (hvalue j)
  · have hnodup := h.nodup_outline
    have hslots := heq ▸ List.mem_map_of_mem (f := Prod.fst) hq
    rw [outline_append] at hslots hnodup
    rw [List.map_append, List.mem_append] at hslots
    rw [List.map_cons, List.map_append, List.map_cons] at hnodup
    have hnotmem := List.nodup_cons.mp (List.perm_middle.nodup_iff.mp hnodup)
    exact hnotmem.1 (List.mem_append.mpr hslots)

/-- An element is unlinked in the arena as it is removed from the skip list. -/
theorem unlink_spec {p : Nat × Tower α} (h : Represents a (left ++ p :: right) s) : ∃ a',
    Runs (unlink p.1 (lasts a.maxLevel left)) a (.ok (some p.2.value)) a' ∧
      a'.maxLevel = a.maxLevel ∧
      Represents a' (left ++ right) { s with towers := (left ++ right).map Prod.snd } := by
  obtain ⟨nodes, level, hrun, hnodes, hother, hwired, hiff⟩ := runs_unlink h
  have hmem : p ∈ left ++ p :: right := by simp
  have hapart := h.apart.perm (map_fst_insert left right p a.free).symm
  refine ⟨_, hrun, rfl, h.order_eq, h.maxLevel_eq, h.heights_eq, h.built_eq, rfl, ?_, ?_, hwired,
    fun q hq => ?_, (hother _ (h.tail_lt hmem).ne).trans h.value_tail, ?_,
    fun q hq => h.heights q (mem_of_mem_append hq), h.one_le⟩
  · have hsize := h.size_eq
    unfold SkipList.size at hsize ⊢
    rw [h.towers_eq] at hsize
    change a.size - 1 = _
    rw [hsize]
    simp
  · refine eq_of_forall_ge_iff fun n => ?_
    rw [SkipList.level_le_iff, List.forall_mem_map]
    exact hiff n
  · refine (hother _ fun heq => ?_).trans (h.value_eq q (mem_of_mem_append hq))
    exact (List.nodup_cons.mp hapart.nodup.of_append_left).1 (heq ▸ List.mem_map_of_mem hq)
  · change Apart nodes.size _ _
    rw [hnodes]
    exact hapart.perm List.perm_middle

lemma exists_of_found {key : α} (hseek : right.map Prod.snd = s.seek key) {t : Tower α}
    {towers : List (Tower α)} (hfound : s.found? key = some (t, towers)) :
    ∃ p rest, right = p :: rest ∧ t = p.2 ∧ towers = rest.map Prod.snd := by
  unfold SkipList.found? at hfound
  rw [← hseek] at hfound
  cases right with
  | nil => cases hfound
  | cons p rest =>
    rw [List.map_cons] at hfound
    dsimp only at hfound
    split at hfound
    · obtain ⟨rfl, rfl⟩ := Prod.mk.inj (Option.some.inj hfound)
      exact ⟨p, rest, rfl, rfl, rfl⟩
    · cases hfound

lemma unlinkEqual_spec (h : Represents a (left ++ right) s) {key : α}
    (hseek : right.map Prod.snd = s.seek key) : ∃ a' rest,
      Runs (unlinkEqual (firstSlot right) key (lasts a.maxLevel left)) a (.ok (s.search key)) a' ∧
      a'.maxLevel = a.maxLevel ∧ rest.map Prod.snd = s.others key ∧
      Represents a' (left ++ rest) { s with towers := (left ++ rest).map Prod.snd } := by
  have hmatches := h.matches_eq rfl hseek
  unfold SkipList.others
  cases hfound : s.found? key with
  | none =>
    have hsearch : s.search key = none := by rw [SkipList.search, hfound, Option.map_none]
    rw [hsearch] at hmatches ⊢
    refine ⟨a, right, .bind (runs_get a) (.bind (runs_lift hmatches a) (runs_pure none a)), rfl,
      hseek, ?_⟩
    rw [← h.towers_eq]
    exact h
  | some found =>
    obtain ⟨p, rest, rfl, ht, hrest⟩ := exists_of_found hseek hfound
    have hsearch : s.search key = some p.2.value := by
      rw [SkipList.search, hfound, Option.map_some, ht]
    rw [hsearch] at hmatches ⊢
    obtain ⟨a', hrun, hmax, h'⟩ := unlink_spec h
    exact ⟨a', rest, .bind (runs_get a) (.bind (runs_lift hmatches a) hrun), hmax, hrest.symm, h'⟩

theorem remove_spec (h : Represents a row s) (key : α) : ∃ a' row',
    Runs (remove key) a (.ok (s.remove key).1) a' ∧ Represents a' row' (s.remove key).2 := by
  obtain ⟨left, right, rfl, hbehind, hseek, hfound⟩ := predecessors_spec h key
  obtain ⟨a', rest, hrun, -, hrest, h'⟩ := unlinkEqual_spec h hseek
  rw [List.map_append, hbehind, hrest] at h'
  rw [SkipList.remove_eq]
  exact ⟨a', left ++ rest, .bind (runs_get a) (.bind (runs_lift hfound a)
    (.bind (runs_lift (h.after_eq rfl) a) hrun)), h'⟩

theorem insert_spec (h : Represents a row s) (value : α) : ∃ a' row',
    Runs (insert value) a (.ok (s.insert value).1) a' ∧ Represents a' row' (s.insert value).2 := by
  obtain ⟨left, right, rfl, hbehind, hseek, hfound⟩ := predecessors_spec h value
  obtain ⟨a₁, rest, hunlink, hmax, hrest, h₁⟩ := unlinkEqual_spec h hseek
  obtain ⟨slot, a₂, hlink, -, h₂⟩ := link_spec h₁ value
  rw [hbehind, hrest] at h₂
  rw [SkipList.insert_eq]
  rw [hmax] at hlink
  exact ⟨a₂, _, .bind (runs_get a) (.bind (runs_lift hfound a) (.bind (runs_lift (h.after_eq rfl) a)
    (.bind hunlink (.bind hlink (runs_pure _ a₂))))), h₂⟩

/-- A step on an arena ends as one on a skip list does; where that is refused the arena is
unchanged. -/
def Follows (step : ArenaStep α Unit) (a : Arena α) (r : Result (SkipList α)) : Prop :=
  match r with
  | .ok s' => ∃ a' row', Runs step a (.ok ()) a' ∧ Represents a' row' s'
  | .error f => Runs step a (.error f) a

section

variable {value old : α} {merge : α → α → Result α} {r : Result Unit} {a' : Arena α}
  {update : List Nat} {found : Nat} {n : Node α}

lemma runs_insertWith_new (hupdate : a.predecessors value = .ok update)
    (hfound : a.after update = .ok found) (hn : a.node found = .ok n)
    (hnone : n.value.filter (fun v => a.order v value == .eq) = none)
    (h : Runs (link value update) a r a') : Runs (insertWith value merge) a r a' := by
  refine .bind (runs_get a) (.bind (runs_lift hupdate a) (.bind (runs_lift hfound a)
    (.bind (runs_lift hn a) ?_)))
  rw [hnone]
  exact h

lemma runs_insertWith_equal (hupdate : a.predecessors value = .ok update)
    (hfound : a.after update = .ok found) (hn : a.node found = .ok n)
    (hold : n.value.filter (fun v => a.order v value == .eq) = some old)
    (h : Runs (do
      let merged ← (merge old value : Result _)
      let _ ← unlink found update
      link merged update) a r a') : Runs (insertWith value merge) a r a' := by
  refine .bind (runs_get a) (.bind (runs_lift hupdate a) (.bind (runs_lift hfound a)
    (.bind (runs_lift hn a) ?_)))
  rw [hold]
  exact h

end

theorem insertWith_spec (h : Represents a row s) (value : α) (merge : α → α → Result α) :
    Follows (insertWith value merge) a (s.insertWith value merge) := by
  obtain ⟨left, right, rfl, hbehind, hseek, hupdate⟩ := predecessors_spec h value
  obtain ⟨n, hn, hv⟩ := h.node_first rfl
  have hfound := h.after_eq (rfl : left ++ right = left ++ right)
  have hsearch : n.value.filter (fun v => a.order v value == .eq) = s.search value := by
    rw [hv, h.order_eq, search_eq hseek]
  unfold SkipList.search at hsearch
  unfold SkipList.insertWith
  cases hf : s.found? value with
  | none =>
    rw [hf] at hsearch
    obtain ⟨slot, a', hlink, -, h'⟩ := link_spec h value
    have hlinked : s.link value = s.build (left.map Prod.snd) value (right.map Prod.snd) := by
      rw [hbehind, hseek, SkipList.link]
    exact ⟨a', _, runs_insertWith_new hupdate hfound hn hsearch hlink, hlinked ▸ h'⟩
  | some found =>
    rw [hf] at hsearch
    obtain ⟨p, rest, rfl, ht, hrest⟩ := exists_of_found hseek hf
    dsimp only
    cases hmerge : merge found.1.value value with
    | error f =>
      exact runs_insertWith_equal hupdate hfound hn hsearch (.bind_error (runs_lift hmerge a))
    | ok merged =>
      obtain ⟨a₁, hunlink, hmax, h₁⟩ := unlink_spec h
      obtain ⟨slot, a₂, hlink, -, h₂⟩ := link_spec h₁ merged
      rw [hmax] at hlink
      have hbuild : s.build (s.behind value) merged found.2 =
          s.build (left.map Prod.snd) merged (rest.map Prod.snd) := by rw [hbehind, hrest]
      exact ⟨a₂, _, runs_insertWith_equal hupdate hfound hn hsearch
        (.bind (runs_lift hmerge a) (.bind hunlink hlink)), hbuild ▸ h₂⟩

/-- Whether the element of a slot in a row does not come after a key. -/
def upTo (s : SkipList α) (last : α) (p : Nat × Tower α) : Bool := s.order p.2.value last != .gt

lemma runFrom_spec (horder : a.order = s.order) (last : α) {fuel : Nat}
    (h : Threaded a.nodes row) (hfuel : row.length < fuel) :
    a.runFrom last fuel (firstSlot row) = .ok ((row.takeWhile (upTo s last)).map Prod.fst) := by
  induction row generalizing fuel with
  | nil =>
    obtain ⟨fuel, rfl⟩ : ∃ n, fuel = n + 1 := ⟨fuel - 1, by omega⟩
    rfl
  | cons p rest ih =>
    obtain ⟨fuel, rfl⟩ : ∃ n, fuel = n + 1 := ⟨fuel - 1, by omega⟩
    obtain ⟨htail, hnext, hvalue, hrest⟩ := h
    obtain ⟨n, hn, hv⟩ := exists_node hvalue
    change a.runFrom last (fuel + 1) p.1 = _
    rw [runFrom, if_neg htail, bind_of_ok (node_eq_ok.mpr hn), hv, horder]
    dsimp only
    by_cases hgt : s.order p.2.value last = .gt
    · rw [if_pos (by simpa using hgt), List.takeWhile_cons_of_neg (by simpa [upTo] using hgt)]
      rfl
    · rw [if_neg (by simpa using hgt), List.takeWhile_cons_of_pos (by simpa [upTo] using hgt),
        bind_of_ok (next_eq_ok.mpr hnext), bind_of_ok (ih hrest (by simpa using hfuel))]
      rfl

lemma mapM_node_spec {run : List (Nat × Tower α)} (h : Represents a row s)
    (hrun : ∀ p ∈ run, p ∈ row) : ∃ nodes, (run.map Prod.fst).mapM a.node = .ok nodes ∧
      nodes.filterMap Node.value = run.map fun p => p.2.value := by
  induction run with
  | nil => exact ⟨[], rfl, rfl⟩
  | cons p rest ih =>
    obtain ⟨n, hn, hv⟩ := h.node_eq (hrun p (by simp))
    obtain ⟨nodes, hnodes, hvalues⟩ := ih fun q hq => hrun q (by simp [hq])
    refine ⟨n :: nodes, ?_, ?_⟩
    · rw [List.map_cons, List.mapM_cons, bind_of_ok hn, bind_of_ok hnodes]
      rfl
    · rw [List.filterMap_cons, hv, hvalues]
      rfl

lemma mergeRun_spec {run : List (Nat × Tower α)} (h : Represents a row s)
    (hrun : ∀ p ∈ run, p ∈ row) (values : List α) (merge : List α → List α → Result (List α)) :
    a.mergeRun (run.map Prod.fst) values merge =
      SortedList.replacement (run.map fun p => p.2.value) values merge := by
  obtain ⟨nodes, hnodes, hvalues⟩ := mapM_node_spec h hrun
  unfold mergeRun SortedList.replacement
  rw [List.isEmpty_map, List.isEmpty_map]
  split
  · rfl
  · rw [bind_of_ok hnodes, hvalues]

/-- The slots behind a cut of a row can be unlinked with what a search has left for the first. -/
lemma unlinkEach_spec {run : List (Nat × Tower α)} (h : Represents a (left ++ (run ++ right)) s) :
    ∃ a', Runs ((run.map Prod.fst).forM fun slot => do
        let _ ← unlink slot (lasts a.maxLevel left)) a (.ok ()) a' ∧
      Represents a' (left ++ right) { s with towers := (left ++ right).map Prod.snd } := by
  induction run generalizing a s with
  | nil =>
    refine ⟨a, runs_pure () a, ?_⟩
    have htowers := h.towers_eq
    rw [List.nil_append] at htowers h
    rw [← htowers]
    exact h
  | cons p run ih =>
    obtain ⟨a₁, hunlink, hmax, h₁⟩ := unlink_spec h
    obtain ⟨a₂, hrun, h₂⟩ := ih h₁
    rw [hmax] at hrun
    exact ⟨a₂, .bind (.bind hunlink (runs_pure () a₁)) hrun, h₂⟩

lemma linkFound_spec (h : Represents a row s) (value : α) :
    ∃ a' row', Runs (linkFound value) a (.ok ()) a' ∧ Represents a' row' (s.link value) := by
  obtain ⟨left, right, rfl, hbehind, hseek, hfound⟩ := predecessors_spec h value
  obtain ⟨slot, a', hlink, -, h'⟩ := link_spec h value
  have hlinked : s.link value = s.build (left.map Prod.snd) value (right.map Prod.snd) := by
    rw [hbehind, hseek, SkipList.link]
  exact ⟨a', _, .bind (runs_get a) (.bind (runs_lift hfound a) hlink), hlinked ▸ h'⟩

lemma linkEach_spec (h : Represents a row s) (values : List α) :
    ∃ a' row', Runs (values.forM linkFound) a (.ok ()) a' ∧
      Represents a' row' (values.foldl SkipList.link s) := by
  induction values generalizing a row s with
  | nil => exact ⟨a, row, runs_pure () a, h⟩
  | cons value values ih =>
    obtain ⟨a₁, row₁, hlink, h₁⟩ := linkFound_spec h value
    obtain ⟨a₂, row₂, hrun, h₂⟩ := ih h₁
    exact ⟨a₂, row₂, .bind hlink hrun, h₂⟩

/-- A run is unlinked by a search for its first element, if that leads where the run starts. -/
lemma unlinkRun_spec {run : List (Nat × Tower α)} (h : Represents a (left ++ (run ++ right)) s)
    (hsearch : ∀ p ∈ run.head?, (s.seek p.2.value) = (run ++ right).map Prod.snd) :
    ∃ a', Runs (unlinkRun (run.map Prod.fst)) a (.ok ()) a' ∧
      Represents a' (left ++ right) { s with towers := (left ++ right).map Prod.snd } := by
  cases run with
  | nil =>
    refine ⟨a, runs_pure () a, ?_⟩
    have htowers := h.towers_eq
    rw [List.nil_append] at htowers h
    rw [← htowers]
    exact h
  | cons p run =>
    obtain ⟨n, hn, hv⟩ := h.node_eq (p := p) (by simp)
    obtain ⟨left', right', hrow, -, hseek, hfound⟩ := predecessors_spec h p.2.value
    have hlength := congrArg List.length (hseek.trans (hsearch p rfl))
    rw [List.length_map, List.length_map] at hlength
    obtain ⟨rfl, -⟩ := List.append_inj' hrow hlength.symm
    obtain ⟨a', hrun, h'⟩ := unlinkEach_spec h
    refine ⟨a', .bind (runs_get a) (.bind (runs_lift (node_eq_ok.mpr (node_eq_ok.mp hn)) a) ?_), h'⟩
    rw [hv]
    exact .bind (runs_lift hfound a) hrun

/-- New elements are spliced into the arena as into the skip list, if a search for an element leads
to it. -/
theorem splice_spec (h : Represents a row s) (values : List α)
    (merge : List α → List α → Result (List α))
    (hsearch : ∀ first ∈ values.head?, ∀ t ∈ (s.seek first).head?,
      s.seek t.value = s.seek first) :
    Follows (splice values merge) a (s.splice values merge) := by
  cases values with
  | nil => exact ⟨a, row, runs_pure () a, h⟩
  | cons first more =>
    obtain ⟨left, right, rfl, hbehind, hseek, hfound⟩ := predecessors_spec h first
    obtain ⟨run, beyond, hright, hrun, hbeyond⟩ : ∃ run beyond, right = run ++ beyond ∧
        run = right.takeWhile (upTo s (more.getLastD first)) ∧
        beyond = right.dropWhile (upTo s (more.getLastD first)) :=
      ⟨_, _, List.takeWhile_append_dropWhile.symm, rfl, rfl⟩
    have hlength : right.length < a.nodes.size :=
      (List.sublist_append_right left right).length_le.trans_lt h.length_lt
    have hfrom := runFrom_spec h.order_eq (more.getLastD first) (h.threaded rfl) hlength
    rw [← hrun] at hfrom
    have hmerge := mergeRun_spec h (fun p (hp : p ∈ run) => by simp [hright, hp]) (first :: more)
      merge
    have hstep : ∀ {r : Result Unit} {a' : Arena α}, Runs (do
        let merged ← (a.mergeRun (run.map Prod.fst) (first :: more) merge : Result _)
        unlinkRun (run.map Prod.fst)
        merged.forM linkFound) a r a' → Runs (splice (first :: more) merge) a r a' := fun hrest =>
      .bind (runs_get a) (.bind (runs_lift hfound a) (.bind (runs_lift (h.after_eq rfl) a)
        (.bind (runs_lift hfrom a) hrest)))
    subst hright
    obtain ⟨a₁, hunlink, h₁⟩ := unlinkRun_spec h fun p hp => by
      have hfirst : p.2 ∈ (s.seek first).head? := by
        rw [← hseek, List.map_append, List.head?_append, List.head?_map, Option.mem_def.mp hp]
        rfl
      rw [hseek]
      exact hsearch first rfl p.2 hfirst
    have htaken : (run.map fun p => p.2.value) = ((s.seek first).takeWhile fun t =>
        s.order t.value (more.getLastD first) != .gt).map Tower.value := by
      rw [hrun, ← hseek, List.takeWhile_map, List.map_map]
      rfl
    have hleft : (left ++ beyond).map Prod.snd = s.behind first ++
        (s.seek first).dropWhile fun t => s.order t.value (more.getLastD first) != .gt := by
      rw [List.map_append, hbehind, hbeyond, ← hseek, List.dropWhile_map]
      rfl
    rw [SkipList.splice_cons, ← htaken, ← hleft]
    cases hmerged : SortedList.replacement (run.map fun p => p.2.value) (first :: more) merge with
    | error f => exact hstep (.bind_error (runs_lift (hmerge.trans hmerged) a))
    | ok merged =>
      obtain ⟨a₂, row₂, hlink, h₂⟩ := linkEach_spec h₁ merged
      exact ⟨a₂, row₂, hstep (.bind (runs_lift (hmerge.trans hmerged) a) (.bind hunlink hlink)), h₂⟩

theorem represents_ofHeights (order : α → α → Ordering) (maxLevel : Nat) (heights : Nat → Nat) :
    Represents (ofHeights order maxLevel heights) [] (SkipList.ofHeights order maxLevel heights) where
  order_eq := rfl
  maxLevel_eq := rfl
  heights_eq := rfl
  built_eq := rfl
  towers_eq := rfl
  size_eq := rfl
  level_eq := rfl
  wired := by
    intro before p after hcut level hlevel
    cases before with
    | nil =>
      obtain ⟨rfl, rfl⟩ := List.cons.inj hcut
      change (List.replicate (max maxLevel 1) tail)[level]? = some tail
      exact List.getElem?_replicate.trans (if_pos hlevel)
    | cons q before => simp [outline] at hcut
  value_eq := by simp
  value_tail := rfl
  apart := ⟨List.nodup_nil, by simp [ofHeights]⟩
  heights := by simp
  one_le := Nat.le_max_right ..

end TemporalAlgebra.Arena
