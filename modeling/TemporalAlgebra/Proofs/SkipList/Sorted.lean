import TemporalAlgebra.Proofs.Partition
import TemporalAlgebra.Proofs.SkipList
import TemporalAlgebra.Proofs.SkipList.Intervals

/-!
# Sorted lists

Where the order is one of intervals, a key cuts a strictly ascending list into the elements below
it, those that are equal to it, and those above it. Where it is a total preorder, one element is
equal to the key at the most. A skip list with such elements finds and puts things where this says.
-/
namespace TemporalAlgebra

namespace SortedList

variable {α : Type}

def Ascending (order : α → α → Ordering) (elements : List α) : Prop :=
  elements.Pairwise fun v w => order v w = .lt

instance (order : α → α → Ordering) (elements : List α) : Decidable (Ascending order elements) :=
  inferInstanceAs (Decidable (elements.Pairwise fun v w => order v w = .lt))

def below (order : α → α → Ordering) (key : α) (elements : List α) : List α :=
  elements.filter fun v => order v key == .lt

def above (order : α → α → Ordering) (key : α) (elements : List α) : List α :=
  elements.filter fun v => order v key == .gt

def equal? (order : α → α → Ordering) (key : α) (elements : List α) : Option α :=
  elements.find? fun v => order v key == .eq

def between (order : α → α → Ordering) (first last : α) (elements : List α) : List α :=
  elements.filter fun v => order v first != .lt && order v last != .gt

/-- What new elements and a run between the first and the last of them are replaced by. -/
def replacement (run values : List α) (merge : List α → List α → Result (List α)) :
    Result (List α) :=
  if run.isEmpty then .ok values else merge run values

variable {order : α → α → Ordering} {elements : List α}

lemma Ascending.eq_or_lt_last {first : α} {more : List α} (h : Ascending order (first :: more)) :
    ∀ v ∈ first :: more, v = more.getLastD first ∨ order v (more.getLastD first) = .lt := by
  intro v hv
  rcases List.eq_nil_or_concat' more with rfl | ⟨init, last, rfl⟩
  · exact Or.inl (List.mem_singleton.mp hv)
  · rw [← List.cons_append] at h hv
    rw [List.getLastD_concat]
    obtain ⟨-, -, hcross⟩ := List.pairwise_append.mp h
    rcases List.mem_append.mp hv with hv | hv
    · exact Or.inr (hcross v hv last (List.mem_singleton_self last))
    · exact Or.inl (List.mem_singleton.mp hv)

section

variable [IntervalOrder order]

lemma Ascending.takeWhile_lt (h : Ascending order elements) (key : α) :
    elements.takeWhile (fun v => order v key == .lt) = below order key elements ∧
      elements.dropWhile (fun v => order v key == .lt) =
        elements.filter fun v => order v key != .lt := by
  apply takeWhile_eq_filter
  refine h.imp fun hlt hw => ?_
  rw [beq_iff_eq] at hw ⊢
  exact IntervalOrder.lt_trans hlt hw

lemma Ascending.takeWhile_le (h : Ascending order elements) (key : α) :
    elements.takeWhile (fun v => order v key != .gt) =
        elements.filter (fun v => order v key != .gt) ∧
      elements.dropWhile (fun v => order v key != .gt) = above order key elements := by
  have hrising : elements.Pairwise fun v w =>
      (order w key != .gt) = true → (order v key != .gt) = true := by
    refine h.imp fun hlt hw => ?_
    rw [bne_iff_ne] at hw ⊢
    intro hgt
    have hlt' := IntervalOrder.lt_trans (Std.OrientedCmp.lt_of_gt hgt) hlt
    exact hw (Std.OrientedCmp.gt_of_lt hlt')
  obtain ⟨htake, hdrop⟩ := takeWhile_eq_filter hrising
  refine ⟨htake, hdrop.trans ?_⟩
  unfold above
  congr 1
  funext v
  cases order v key <;> rfl

end

variable [Std.TransCmp order]

lemma above_of_not_lt {v key : α} (hv : order v key ≠ .lt) (h : Ascending order (v :: elements)) :
    ∀ w ∈ elements, order w key = .gt := by
  intro w hw
  have hlt := Std.OrientedCmp.gt_of_lt (List.rel_of_pairwise_cons h hw)
  cases hkey : order v key with
  | lt => exact absurd hkey hv
  | eq => exact Std.TransCmp.gt_of_gt_of_eq hlt hkey
  | gt => exact Std.TransCmp.gt_trans hlt hkey

lemma Ascending.filter_not_lt (h : Ascending order elements) (key : α) :
    elements.filter (fun v => order v key != .lt) =
      (equal? order key elements).toList ++ above order key elements := by
  unfold equal? above
  induction elements with
  | nil => rfl
  | cons v rest ih =>
    by_cases hlt : order v key = .lt
    · simpa [hlt] using ih h.tail
    · have habove := above_of_not_lt hlt h
      have hrest : rest.filter (fun w => order w key != .lt) = rest ∧
          rest.filter (fun w => order w key == .gt) = rest ∧
          rest.find? (fun w => order w key == .eq) = none := by
        refine ⟨List.filter_eq_self.mpr fun w hw => ?_, List.filter_eq_self.mpr fun w hw => ?_,
          List.find?_eq_none.mpr fun w hw => ?_⟩ <;> simp [habove w hw]
      obtain ⟨hnot, hgt, hfind⟩ := hrest
      cases hkey : order v key with
      | lt => exact absurd hkey hlt
      | eq => simp [hkey, hnot, hgt]
      | gt => simp [hkey, hnot, hgt, hfind]

omit [Std.TransCmp order] in
lemma mem_below {v key : α} : v ∈ below order key elements ↔ v ∈ elements ∧ order v key = .lt := by
  simp [below]

omit [Std.TransCmp order] in
lemma mem_above {v key : α} : v ∈ above order key elements ↔ v ∈ elements ∧ order v key = .gt := by
  simp [above]

lemma lt_of_not_gt_of_lt {u v w : α} (huv : order u v ≠ .gt) (hvw : order v w = .lt) :
    order u w = .lt := by
  refine Std.TransCmp.lt_of_isLE_of_lt ?_ hvw
  cases h : order u v with
  | lt => rfl
  | eq => rfl
  | gt => exact absurd h huv

lemma lt_of_lt_of_not_lt {u v w : α} (huv : order u v = .lt) (hwv : order w v ≠ .lt) :
    order u w = .lt := by
  refine Std.TransCmp.lt_of_lt_of_isLE huv ?_
  have hswap : order v w = (order w v).swap := Std.OrientedCmp.eq_swap
  rw [hswap]
  cases h : order w v with
  | lt => exact absurd h hwv
  | eq => rfl
  | gt => rfl

lemma Ascending.around (h : Ascending order elements) {first last : α} {middle : List α}
    (hmiddle : Ascending order middle) (hle : order last first ≠ .lt)
    (hfirst : ∀ v ∈ middle, order v first ≠ .lt) (hlast : ∀ v ∈ middle, order v last ≠ .gt) :
    Ascending order (below order first elements ++ middle ++ above order last elements) := by
  refine List.pairwise_append.mpr ⟨List.pairwise_append.mpr
    ⟨h.filter _, hmiddle, fun v hv w hw => ?_⟩, h.filter _, fun v hv w hw => ?_⟩
  · exact lt_of_lt_of_not_lt (mem_below.mp hv).2 (hfirst w hw)
  · have hw := Std.OrientedCmp.lt_of_gt (mem_above.mp hw).2
    rcases List.mem_append.mp hv with hv | hv
    · exact Std.TransCmp.lt_trans (lt_of_lt_of_not_lt (mem_below.mp hv).2 hle) hw
    · exact lt_of_not_gt_of_lt (hlast v hv) hw

lemma Ascending.bounds {first : α} {more : List α} (h : Ascending order (first :: more)) :
    (∀ v ∈ first :: more, order v first ≠ .lt) ∧
      ∀ v ∈ first :: more, order v (more.getLastD first) ≠ .gt := by
  have hself : ∀ v : α, order v v = .eq := fun v => Std.ReflCmp.compare_self
  refine ⟨fun v hv => ?_, fun v hv => ?_⟩
  · rcases List.mem_cons.mp hv with rfl | hv
    · simp [hself]
    · simp [Std.OrientedCmp.gt_of_lt (List.rel_of_pairwise_cons h hv)]
  · rcases h.eq_or_lt_last v hv with rfl | hlast
    · rw [hself]
      decide
    · rw [hlast]
      decide

end SortedList

namespace SkipList

open SortedList

variable {α : Type} {order : α → α → Ordering} {s : SkipList α}

/-- The elements are in order, and every tower is linked on the lowest level. -/
structure Sorted (order : α → α → Ordering) (s : SkipList α) : Prop where
  order_eq : s.order = order
  linked : ∀ t ∈ s.towers, 1 ≤ t.height
  ascending : Ascending order s.toList

section

variable [IntervalOrder order]

lemma Sorted.searchable (h : s.Sorted order) (key : α) : s.Searchable key := by
  obtain ⟨rfl, hlinked, hascending⟩ := h
  refine ⟨hlinked, ?_⟩
  refine (List.pairwise_map.mp hascending).imp fun hlt hu => ?_
  rw [precedes, beq_iff_eq] at hu ⊢
  exact IntervalOrder.lt_trans hlt hu

lemma Sorted.map_behind (h : s.Sorted order) (key : α) :
    (s.behind key).map Tower.value = below order key s.toList := by
  rw [(h.searchable key).map_behind, h.order_eq, (h.ascending.takeWhile_lt key).1]

lemma Sorted.map_seek (h : s.Sorted order) (key : α) :
    (s.seek key).map Tower.value = s.toList.filter fun v => order v key != .lt := by
  rw [(h.searchable key).map_seek, h.order_eq, (h.ascending.takeWhile_lt key).2]

lemma Sorted.seek_again (h : s.Sorted order) {key : α} {t : Tower α}
    (ht : t ∈ (s.seek key).head?) : s.seek t.value = s.seek key := by
  obtain ⟨rest, hrest⟩ := List.head?_eq_some_iff.mp ht
  have htowers := s.behind_append_seek key
  have hascending := List.pairwise_map.mp h.ascending
  rw [← htowers, hrest, List.pairwise_append] at hascending
  have hbehind : ∀ u ∈ s.behind key, s.precedes u t.value = true := by
    intro u hu
    rw [precedes, h.order_eq, hascending.2.2 u hu t List.mem_cons_self]
    rfl
  have hself : s.precedes t t.value = false := by
    have heq : order t.value t.value = .eq := Std.ReflCmp.compare_self
    rw [precedes, h.order_eq, heq]
    rfl
  exact (h.searchable t.value).seek_again ht hbehind hself

omit [IntervalOrder order] in
/-- If a search leads to elements that compare as equal to the key and then to later ones, it finds
the first of those that compare as equal. -/
lemma Sorted.found_of_seek (h : s.Sorted order) {key : α} {hits beyond : List α}
    (hseek : (s.seek key).map Tower.value = hits ++ beyond)
    (hhits : ∀ v ∈ hits, order v key = .eq) (hbeyond : ∀ v ∈ beyond, order v key = .gt) :
    s.search key = hits.head? ∧ (s.others key).map Tower.value = hits.tail ++ beyond := by
  unfold search others found?
  cases hs : s.seek key with
  | nil =>
    rw [hs, List.map_nil, eq_comm, List.append_eq_nil_iff] at hseek
    obtain ⟨rfl, rfl⟩ := hseek
    exact ⟨rfl, rfl⟩
  | cons t rest =>
    rw [hs] at hseek
    cases hits with
    | cons v more =>
      obtain ⟨rfl, hrest⟩ := List.cons.inj hseek
      simp [h.order_eq, hhits _ List.mem_cons_self, hrest]
    | nil =>
      obtain rfl : t.value :: rest.map Tower.value = beyond := hseek
      simp [h.order_eq, hbeyond _ List.mem_cons_self]

end

variable [Std.TransCmp order]

/-- A search finds the element that is equal to the key; what it leads to else comes after the key. -/
lemma Sorted.found (h : s.Sorted order) (key : α) :
    s.search key = equal? order key s.toList ∧
      (s.others key).map Tower.value = above order key s.toList := by
  have hseek := (h.map_seek key).trans (h.ascending.filter_not_lt key)
  have hequal : ∀ v ∈ (equal? order key s.toList).toList, order v key = .eq := by
    intro v hv
    simpa using List.find?_some (Option.mem_toList.mp hv)
  obtain ⟨hsearch, hothers⟩ := h.found_of_seek hseek hequal fun v hv => (mem_above.mp hv).2
  cases hfind : equal? order key s.toList <;> rw [hfind] at hsearch hothers <;>
    exact ⟨hsearch, hothers⟩

lemma Sorted.toList_build (h : s.Sorted order) (value key : α) :
    (s.build (s.behind key) value (s.others key)).toList =
      below order key s.toList ++ value :: above order key s.toList := by
  change (_ ++ _ :: _ : List (Tower α)).map Tower.value = _
  rw [List.map_append, List.map_cons, h.map_behind, (h.found key).2]

/-- What is linked into a gap of a list stays there. -/
lemma foldl_link {values before beyond : List α} (horder : s.order = order)
    (hlinked : ∀ t ∈ s.towers, 1 ≤ t.height) (hs : s.toList = before ++ beyond)
    (h : Ascending order (before ++ values ++ beyond)) :
    (values.foldl link s).order = order ∧
      (values.foldl link s).toList = before ++ values ++ beyond := by
  induction values generalizing s before with
  | nil => exact ⟨horder, by simpa using hs⟩
  | cons value values ih =>
    have h' : Ascending order (before ++ value :: (values ++ beyond)) := by simpa using h
    obtain ⟨-, hrest, hcross⟩ := List.pairwise_append.mp h'
    have hsorted : s.Sorted order := by
      refine ⟨horder, hlinked, hs ▸ h'.sublist ?_⟩
      exact ((List.sublist_append_right values beyond).cons value).append_left before
    have hlt : ∀ v ∈ before, (s.order v value == .lt) = true := by
      intro v hv
      rw [horder, hcross v hv value List.mem_cons_self]
      rfl
    have hge : ∀ v ∈ beyond.head?, (s.order v value == .lt) = false := by
      intro v hv
      have hmem := List.mem_append_right values (List.mem_of_mem_head? hv)
      rw [horder, Std.OrientedCmp.gt_of_lt (List.rel_of_pairwise_cons hrest hmem)]
      rfl
    have hlink : (s.link value).toList = (before ++ [value]) ++ beyond := by
      rw [toList_link (hsorted.searchable value), hs, List.takeWhile_append_of_pos hlt,
        List.dropWhile_append_of_pos hlt]
      cases beyond with
      | nil => simp
      | cons v beyond => simp [hge v rfl]
    have hresult := ih (s := s.link value) horder (link_linked (hsorted.searchable value)) hlink
      (by simpa using h)
    simpa using hresult

omit [Std.TransCmp order] in
/-- Where a run is empty nothing is taken out, so what a search leads to is all there. -/
lemma splice_cons (s : SkipList α) (first : α) (more : List α)
    (merge : List α → List α → Result (List α)) : s.splice (first :: more) merge = do
      let merged ← replacement (((s.seek first).takeWhile fun t =>
        s.order t.value (more.getLastD first) != .gt).map Tower.value) (first :: more) merge
      return merged.foldl link { s with
        towers := s.behind first ++ (s.seek first).dropWhile fun t =>
          s.order t.value (more.getLastD first) != .gt } := by
  unfold splice replacement
  dsimp only
  rw [List.isEmpty_map]
  split
  · rename_i hempty
    have hsplit := List.takeWhile_append_dropWhile (l := s.seek first)
      (p := fun t : Tower α => s.order t.value (more.getLastD first) != .gt)
    rw [List.isEmpty_iff.mp hempty, List.nil_append] at hsplit
    rw [hsplit, s.behind_append_seek first]
    rfl
  · rfl

/-- Splicing puts what is made of the new elements and those between them in their place. -/
lemma Sorted.splice_eq (h : s.Sorted order) {first : α} {more : List α}
    (hvalues : Ascending order (first :: more)) (merge : List α → List α → Result (List α)) :
    ∃ towers, towers.map Tower.value =
        below order first s.toList ++ above order (more.getLastD first) s.toList ∧
      (∀ t ∈ towers, 1 ≤ t.height) ∧
      s.splice (first :: more) merge = do
        let merged ← replacement (between order first (more.getLastD first) s.toList)
          (first :: more) merge
        return merged.foldl link { s with towers } := by
  obtain rfl := h.order_eq
  have hle := hvalues.bounds.2 first List.mem_cons_self
  have hrising := Ascending.takeWhile_le
    (h.ascending.filter fun v => s.order v first != .lt : Ascending s.order _) (more.getLastD first)
  rw [← h.map_seek, List.takeWhile_map, List.dropWhile_map, h.map_seek, List.filter_filter]
    at hrising
  obtain ⟨hrun, hbeyond⟩ := hrising
  have habove : above s.order (more.getLastD first)
      (s.toList.filter fun v => s.order v first != .lt) =
        above s.order (more.getLastD first) s.toList := by
    unfold above
    rw [List.filter_filter]
    refine List.filter_congr fun v _ => ?_
    cases hv : s.order v (more.getLastD first) with
    | lt => rfl
    | eq => rfl
    | gt =>
      have hgt := lt_of_not_gt_of_lt hle (Std.OrientedCmp.lt_of_gt hv)
      simp [Std.OrientedCmp.gt_of_lt hgt]
  rw [habove] at hbeyond
  refine ⟨s.behind first ++ (s.seek first).dropWhile fun t =>
    s.order t.value (more.getLastD first) != .gt, ?_, fun t ht => ?_, ?_⟩
  · rw [List.map_append, h.map_behind]
    exact congrArg (_ ++ ·) hbeyond
  · apply h.linked
    rw [← s.behind_append_seek first]
    exact ((List.dropWhile_sublist _).append_left _).subset ht
  · have hbetween : ((s.seek first).takeWhile fun t =>
        s.order t.value (more.getLastD first) != .gt).map Tower.value =
          between s.order first (more.getLastD first) s.toList :=
      hrun.trans (List.filter_congr fun v _ => Bool.and_comm ..)
    rw [splice_cons, hbetween]

end SkipList

end TemporalAlgebra
