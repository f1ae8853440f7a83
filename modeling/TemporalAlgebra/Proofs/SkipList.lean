import Mathlib.Data.List.Basic
import Mathlib.Data.List.Pairwise
import Mathlib.Data.Nat.Basic
import Mathlib.Order.Basic
import Mathlib.Tactic.Tauto
import TemporalAlgebra.Proofs.Outcome
import TemporalAlgebra.SkipList

/-!
# Searching skip lists

A walk over the levels only ever skips elements that come before the key, and on the lowest level it
meets all of them. So whatever the heights of the towers are, a search leads to the first element
that does not come before the key, and a new element is linked right before it.
-/
namespace TemporalAlgebra.SkipList

variable {α : Type}

lemma advance_of_nil (s : SkipList α) (key : α) {level : Nat} {ahead : List (Tower α)}
    (h : ahead.dropWhile (fun t => decide (t.height ≤ level)) = []) :
    s.advance key level ahead = ahead := by
  rw [advance]
  split
  · rfl
  · rename_i heq
    rw [h] at heq
    cases heq

lemma advance_of_cons (s : SkipList α) (key : α) {level : Nat} {ahead rest : List (Tower α)}
    {t : Tower α} (h : ahead.dropWhile (fun t => decide (t.height ≤ level)) = t :: rest) :
    s.advance key level ahead = if s.precedes t key then s.advance key level rest else ahead := by
  rw [advance]
  split
  · rename_i heq
    rw [h] at heq
    cases heq
  · rename_i heq
    rw [h] at heq
    obtain ⟨rfl, rfl⟩ := List.cons.inj heq
    rfl

lemma advance_suffix (s : SkipList α) (key : α) (level : Nat) (ahead : List (Tower α)) :
    s.advance key level ahead <:+ ahead := by
  fun_induction advance s key level ahead with
  | case1 ahead hnone => exact List.suffix_refl _
  | case2 ahead t rest heq hlt ih =>
    have hrest : t :: rest <:+ ahead := heq ▸ List.dropWhile_suffix _
    exact (ih.trans (List.suffix_cons t rest)).trans hrest
  | case3 ahead t rest heq hge => exact List.suffix_refl _

lemma descend_suffix (s : SkipList α) (key : α) (level : Nat) (ahead : List (Tower α)) :
    s.descend key level ahead <:+ ahead := by
  induction level generalizing ahead with
  | zero => exact List.suffix_refl _
  | succ level ih => exact (ih _).trans (advance_suffix s key level ahead)

lemma behind_append_seek (s : SkipList α) (key : α) :
    s.behind key ++ s.seek key = s.towers := by
  obtain ⟨left, hleft⟩ : s.seek key <:+ s.towers := descend_suffix s key s.level s.towers
  unfold behind
  rw [← hleft, List.length_append, Nat.add_sub_cancel, List.take_left]

/-- The towers that a search leads to, without one that is equal to the key. -/
def others (s : SkipList α) (key : α) : List (Tower α) :=
  ((s.found? key).map Prod.snd).getD (s.seek key)

/-- Removing leaves the towers behind a search and those it leads to, but for an equal one. -/
lemma remove_eq (s : SkipList α) (key : α) :
    s.remove key = (s.search key, { s with towers := s.behind key ++ s.others key }) := by
  unfold remove search others
  cases s.found? key with
  | none =>
    change (none, s) = (none, { s with towers := s.behind key ++ s.seek key })
    rw [behind_append_seek]
  | some found => rfl

lemma insert_eq (s : SkipList α) (value : α) :
    s.insert value = (s.search value, s.build (s.behind value) value (s.others value)) := by
  unfold insert link search others
  cases s.found? value <;> rfl

/-- What merging makes of an element and an equal one is put in the place of that one. -/
lemma insertWith_eq (s : SkipList α) (value : α) (merge : α → α → Result α) :
    s.insertWith value merge =
      match s.search value with
      | some old => do return s.build (s.behind value) (← merge old value) (s.others value)
      | none => .ok (s.build (s.behind value) value (s.others value)) := by
  unfold insertWith link search others
  cases s.found? value <;> rfl

lemma level_le_iff (s : SkipList α) (n : Nat) :
    s.level ≤ n ↔ 1 ≤ n ∧ ∀ t ∈ s.towers, t.height ≤ n := by
  have hfold : ∀ (towers : List (Tower α)) (m : Nat),
      towers.foldl (fun n t => max n t.height) m ≤ n ↔ m ≤ n ∧ ∀ t ∈ towers, t.height ≤ n := by
    intro towers
    induction towers with
    | nil => simp
    | cons t rest ih =>
      intro m
      rw [List.foldl_cons, ih, Nat.max_le, List.forall_mem_cons, and_assoc]
  exact hfold s.towers 1

lemma level_build {s : SkipList α} {left right : List (Tower α)} (h : s.towers = left ++ right)
    (value : α) : (s.build left value right).level = max s.level s.nextHeight := by
  refine eq_of_forall_ge_iff fun n => ?_
  rw [Nat.max_le, level_le_iff, level_le_iff, h]
  simp only [build, List.forall_mem_append, List.forall_mem_cons]
  tauto

/-- Every tower is linked on the lowest level, and what comes before something that comes before a
key does so too. -/
structure Searchable (s : SkipList α) (key : α) : Prop where
  linked : ∀ t ∈ s.towers, 1 ≤ t.height
  rising : s.towers.Pairwise fun t u => s.precedes u key = true → s.precedes t key = true

/-- A walk along one level skips nothing but towers that come before the key. -/
lemma advance_skips (s : SkipList α) (key : α) (level : Nat) (ahead : List (Tower α))
    (h : ahead.Pairwise fun t u => s.precedes u key = true → s.precedes t key = true) :
    ∃ skipped, ahead = skipped ++ s.advance key level ahead ∧
      ∀ t ∈ skipped, s.precedes t key = true := by
  fun_induction advance s key level ahead with
  | case1 ahead hnone => exact ⟨[], rfl, by simp⟩
  | case2 ahead t rest heq hlt ih =>
    have hsplit := List.takeWhile_append_dropWhile
      (p := fun t : Tower α => decide (t.height ≤ level)) (l := ahead)
    rw [heq] at hsplit
    rw [← hsplit, List.pairwise_append] at h
    obtain ⟨-, htail, hcross⟩ := h
    obtain ⟨skipped, hrest, hskipped⟩ := ih htail.tail
    refine ⟨ahead.takeWhile (fun t => decide (t.height ≤ level)) ++ t :: skipped, ?_, ?_⟩
    · rw [List.append_assoc, List.cons_append, ← hrest, hsplit]
    · intro u hu
      rcases List.mem_append.mp hu with hu | hu
      · exact hcross u hu t (by simp) hlt
      · rcases List.mem_cons.mp hu with rfl | hu
        · exact hlt
        · exact hskipped u hu
  | case3 ahead t rest heq hge => exact ⟨[], rfl, by simp⟩

lemma advance_lowest (s : SkipList α) (key : α) {ahead : List (Tower α)}
    (hl : ∀ t ∈ ahead, 1 ≤ t.height) :
    s.advance key 0 ahead = ahead.dropWhile fun t => s.precedes t key := by
  induction ahead with
  | nil =>
    rw [advance]
    rfl
  | cons t rest ih =>
    have hdrop : (t :: rest).dropWhile (fun t => decide (t.height ≤ 0)) = t :: rest := by
      have := hl t (by simp)
      rw [List.dropWhile_cons, if_neg (by rw [decide_eq_true_eq]; omega)]
    rw [advance]
    split
    · rename_i hnil
      rw [hdrop] at hnil
      simp at hnil
    · rename_i u more heq
      rw [hdrop] at heq
      obtain ⟨rfl, rfl⟩ := List.cons.inj heq
      rw [List.dropWhile_cons, ih fun u hu => hl u (List.mem_cons_of_mem _ hu)]

lemma descend_eq_dropWhile (s : SkipList α) (key : α) (level : Nat) {ahead : List (Tower α)}
    (hl : ∀ t ∈ ahead, 1 ≤ t.height)
    (hr : ahead.Pairwise fun t u => s.precedes u key = true → s.precedes t key = true) :
    s.descend key (level + 1) ahead = ahead.dropWhile fun t => s.precedes t key := by
  induction level generalizing ahead with
  | zero => exact advance_lowest s key hl
  | succ level ih =>
    obtain ⟨skipped, hsplit, hskipped⟩ := advance_skips s key (level + 1) ahead hr
    have hsuffix : (s.advance key (level + 1) ahead).Sublist ahead := by
      conv_rhs => rw [hsplit]
      exact List.sublist_append_right _ _
    rw [descend, ih (fun t ht => hl t (hsuffix.subset ht)) (hr.sublist hsuffix)]
    conv_rhs => rw [hsplit]
    rw [List.dropWhile_append_of_pos hskipped]

lemma one_le_level (s : SkipList α) : 1 ≤ s.level := by
  have hfold : ∀ (towers : List (Tower α)) (n : Nat), 1 ≤ n →
      1 ≤ towers.foldl (fun n t => max n t.height) n := by
    intro towers
    induction towers with
    | nil => exact fun n hn => hn
    | cons t rest ih => exact fun n hn => ih (max n t.height) (by omega)
  exact hfold s.towers 1 (Nat.le_refl 1)

/-- A search leads to the first tower that does not come before the key. -/
theorem seek_eq_dropWhile {s : SkipList α} {key : α} (h : s.Searchable key) :
    s.seek key = s.towers.dropWhile fun t => s.precedes t key := by
  unfold seek
  obtain ⟨level, hlevel⟩ : ∃ level, s.level = level + 1 :=
    ⟨s.level - 1, by have := one_le_level s; omega⟩
  rw [hlevel]
  exact descend_eq_dropWhile s key level h.linked h.rising

lemma behind_eq_takeWhile {s : SkipList α} {key : α} (h : s.Searchable key) :
    s.behind key = s.towers.takeWhile fun t => s.precedes t key := by
  have hsplit := List.takeWhile_append_dropWhile (p := fun t => s.precedes t key) (l := s.towers)
  unfold behind
  rw [seek_eq_dropWhile h]
  generalize s.towers.takeWhile (fun t => s.precedes t key) = left at hsplit ⊢
  generalize s.towers.dropWhile (fun t => s.precedes t key) = right at hsplit ⊢
  rw [← hsplit, List.length_append, Nat.add_sub_cancel]
  exact List.take_left

lemma not_lt_of_mem_dropWhile {order : α → α → Ordering} {key : α} {elements : List α}
    (h : elements.Pairwise fun a b => order b key = .lt → order a key = .lt) {a : α}
    (ha : a ∈ elements.dropWhile fun a => order a key == .lt) : order a key ≠ .lt := by
  have hhead := List.head?_dropWhile_not (fun a => order a key == .lt) elements
  have hrest := h.sublist (List.dropWhile_sublist fun a => order a key == .lt)
  cases hdrop : elements.dropWhile fun a => order a key == .lt with
  | nil => simp [hdrop] at ha
  | cons b rest =>
    rw [hdrop] at ha hhead hrest
    have hb : order b key ≠ .lt := by simpa using hhead
    rcases List.mem_cons.mp ha with rfl | ha
    · exact hb
    · exact fun hlt => hb (List.rel_of_pairwise_cons hrest ha hlt)

/-- A search for the element that another search leads to leads to the same place, if all that was
passed comes before that element too. -/
lemma Searchable.seek_again {s : SkipList α} {key : α} {t : Tower α} (h : s.Searchable t.value)
    (ht : t ∈ (s.seek key).head?) (hbehind : ∀ u ∈ s.behind key, s.precedes u t.value = true)
    (hself : s.precedes t t.value = false) : s.seek t.value = s.seek key := by
  obtain ⟨rest, hrest⟩ := List.head?_eq_some_iff.mp ht
  rw [seek_eq_dropWhile h, ← s.behind_append_seek key, List.dropWhile_append_of_pos hbehind, hrest,
    List.dropWhile_cons_of_neg (by simp [hself])]

lemma Searchable.map_seek {s : SkipList α} {key : α} (h : s.Searchable key) :
    (s.seek key).map Tower.value = s.toList.dropWhile fun a => s.order a key == .lt := by
  rw [seek_eq_dropWhile h, toList, List.dropWhile_map]
  rfl

lemma Searchable.map_behind {s : SkipList α} {key : α} (h : s.Searchable key) :
    (s.behind key).map Tower.value = s.toList.takeWhile fun a => s.order a key == .lt := by
  rw [behind_eq_takeWhile h, toList, List.takeWhile_map]
  rfl

lemma toList_link {s : SkipList α} {value : α} (h : s.Searchable value) :
    (s.link value).toList = (s.toList.takeWhile fun a => s.order a value == .lt) ++
      value :: s.toList.dropWhile fun a => s.order a value == .lt := by
  change (s.behind value ++ _ :: s.seek value : List (Tower α)).map Tower.value = _
  rw [List.map_append, List.map_cons, h.map_behind, h.map_seek]

lemma link_linked {s : SkipList α} {value : α} (h : s.Searchable value) :
    ∀ t ∈ (s.link value).towers, 1 ≤ t.height := by
  intro t ht
  have hmem : t ∈ s.behind value ++ ⟨value, s.nextHeight⟩ :: s.seek value := ht
  rw [behind_eq_takeWhile h, seek_eq_dropWhile h] at hmem
  rcases List.mem_append.mp hmem with ht | ht
  · exact h.linked t (List.takeWhile_subset _ ht)
  · rcases List.mem_cons.mp ht with rfl | ht
    · exact Nat.le_max_left ..
    · exact h.linked t (List.dropWhile_subset _ ht)

/-- Splicing replaces the elements from the first to the last new one by what is made of both. If
there are none, it links the new ones as they are. -/
lemma splice_eq_ok {s s' : SkipList α} {first : α} {more : List α}
    {merge : List α → List α → Result (List α)} (h : s.Searchable first)
    (hok : s.splice (first :: more) merge = .ok s') :
    ∃ run beyond merged left, s.toList = (s.toList.takeWhile fun a => s.order a first == .lt) ++
        (run ++ beyond) ∧
      (∀ a ∈ beyond.head?, s.order a (more.getLastD first) = .gt) ∧
      (run = [] ∧ merged = first :: more ∨ run ≠ [] ∧ merge run (first :: more) = .ok merged) ∧
      left.order = s.order ∧ (∀ t ∈ left.towers, 1 ≤ t.height) ∧
      left.toList = (s.toList.takeWhile fun a => s.order a first == .lt) ++ beyond ∧
      s' = merged.foldl link left := by
  generalize hin : (fun t : Tower α => s.order t.value (more.getLastD first) != .gt) = inRange
  have hin' : ∀ t : Tower α, inRange t = true ↔ s.order t.value (more.getLastD first) ≠ .gt := by
    intro t
    rw [← hin, bne_iff_ne]
  have hdef : s.splice (first :: more) merge =
      if ((s.seek first).takeWhile inRange).isEmpty then .ok ((first :: more).foldl link s)
      else do
        let merged ← merge (((s.seek first).takeWhile inRange).map Tower.value) (first :: more)
        return merged.foldl link
          { s with towers := s.behind first ++ (s.seek first).dropWhile inRange } := by
    rw [← hin]
    rfl
  have hsplit : s.toList = (s.toList.takeWhile fun a => s.order a first == .lt) ++
      (((s.seek first).takeWhile inRange).map Tower.value ++
        ((s.seek first).dropWhile inRange).map Tower.value) := by
    rw [← List.map_append, List.takeWhile_append_dropWhile, h.map_seek,
      List.takeWhile_append_dropWhile]
  have hout : ∀ a ∈ (((s.seek first).dropWhile inRange).map Tower.value).head?,
      s.order a (more.getLastD first) = .gt := by
    intro a ha
    rw [List.head?_map] at ha
    obtain ⟨t, ht, rfl⟩ := Option.map_eq_some_iff.mp ha
    have hnot := List.head?_dropWhile_not inRange (s.seek first)
    rw [ht] at hnot
    by_contra hne
    exact absurd ((hin' t).mpr hne) (by simpa using hnot)
  rw [hdef] at hok
  split at hok
  · rename_i hempty
    rw [List.isEmpty_iff.mp hempty] at hsplit
    exact ⟨[], _, first :: more, s, hsplit, hout, Or.inl ⟨rfl, rfl⟩, rfl, h.linked, hsplit,
      (Except.ok.inj hok).symm⟩
  · rename_i hsome
    simp only [bind_eq_ok, pure_eq_ok] at hok
    obtain ⟨merged, hmerge, rfl⟩ := hok
    refine ⟨_, _, merged, { s with towers := s.behind first ++ (s.seek first).dropWhile inRange },
      hsplit, hout, Or.inr ⟨by simpa using hsome, hmerge⟩, rfl, fun t ht => ?_, ?_, rfl⟩
    · rcases List.mem_append.mp ht with ht | ht
      · rw [behind_eq_takeWhile h] at ht
        exact h.linked t (List.takeWhile_subset _ ht)
      · rw [seek_eq_dropWhile h] at ht
        exact h.linked t (List.dropWhile_subset _ (List.dropWhile_subset _ ht))
    · rw [← h.map_behind]
      exact List.map_append

lemma exists_splice {s : SkipList α} {first : α} {more : List α}
    {merge : List α → List α → Result (List α)} (h : s.Searchable first)
    (hmerge : ∀ run, run ≠ [] → run.Sublist s.toList → ∃ merged,
      merge run (first :: more) = .ok merged) :
    ∃ s', s.splice (first :: more) merge = .ok s' := by
  unfold splice
  dsimp only
  split
  · exact ⟨_, rfl⟩
  · rename_i hrun
    have hsub : (s.seek first).Sublist s.towers := by
      rw [seek_eq_dropWhile h]
      exact List.dropWhile_sublist _
    obtain ⟨merged, hmerged⟩ := hmerge (((s.seek first).takeWhile fun t =>
      s.order t.value (more.getLastD first) != .gt).map Tower.value)
      (by rwa [ne_eq, List.map_eq_nil_iff, ← List.isEmpty_iff])
      (((List.takeWhile_sublist _).trans hsub).map Tower.value)
    exact ⟨_, bind_eq_ok.mpr ⟨merged, hmerged, rfl⟩⟩

end TemporalAlgebra.SkipList
