import Mathlib.Data.Int.Order.Basic
import TemporalAlgebra.Proofs.SkipList.Refinement

/-!
# Elements that overlap

Intervals that overlap count as equal, though an interval may overlap two others that lie apart. So
a key can be equal to a whole run of the elements of an ascending list. Inserting and removing deal
with the first one of that run only, and so the elements stay in order just as long as no call puts
something in that overlaps what it leaves in place.
-/
namespace TemporalAlgebra

namespace SortedList

open IntervalOrder

variable {α : Type}

def overlapping (order : α → α → Ordering) (key : α) (elements : List α) : List α :=
  elements.filter fun v => order v key == .eq

def without (order : α → α → Ordering) (key : α) (elements : List α) : List α :=
  below order key elements ++ ((overlapping order key elements).tail ++ above order key elements)

variable {order : α → α → Ordering} [IntervalOrder order] {elements : List α}

lemma Ascending.filter_not_before (h : Ascending order elements) (key : α) :
    elements.filter (fun v => order v key != .lt) =
      overlapping order key elements ++ above order key elements := by
  have hrest : Ascending order (elements.filter fun v => order v key != .lt) := h.filter _
  obtain ⟨htake, hdrop⟩ := hrest.takeWhile_le key
  rw [← List.takeWhile_append_dropWhile (l := elements.filter fun v => order v key != .lt)
    (p := fun v => order v key != .gt), htake, hdrop]
  unfold overlapping above
  rw [List.filter_filter, List.filter_filter]
  congr 1
  · refine List.filter_congr fun v _ => ?_
    cases order v key <;> rfl
  · refine List.filter_congr fun v _ => ?_
    cases order v key <;> rfl

/-- What lies behind the elements in front of it, in front of those behind it, and overlaps none of
them, has its place between them. -/
lemma Ascending.put {before after : List α} {v : α} (h : Ascending order (before ++ after))
    (hbefore : ∀ w ∈ before, order w v ≠ .gt) (hafter : ∀ w ∈ after, order w v ≠ .lt)
    (hapart : ∀ w ∈ before ++ after, order w v ≠ .eq) :
    Ascending order (before ++ v :: after) := by
  obtain ⟨hfront, hback, hcross⟩ := List.pairwise_append.mp h
  refine List.pairwise_append.mpr ⟨hfront, List.pairwise_cons.mpr ⟨fun w hw => ?_, hback⟩,
    fun w hw x hx => ?_⟩
  · cases hwv : order w v with
    | lt => exact absurd hwv (hafter w hw)
    | eq => exact absurd hwv (hapart w (List.mem_append_right _ hw))
    | gt => exact Std.OrientedCmp.lt_of_gt hwv
  · rcases List.mem_cons.mp hx with rfl | hx
    · cases hwv : order w x with
      | lt => rfl
      | eq => exact absurd hwv (hapart w (List.mem_append_left _ hw))
      | gt => exact absurd hwv (hbefore w hw)
    · exact hcross w hw x hx

lemma Ascending.cut (h : Ascending order elements) (key : α) :
    below order key elements ++ (overlapping order key elements ++ above order key elements) =
      elements := by
  obtain ⟨htake, hdrop⟩ := h.takeWhile_lt key
  rw [← h.filter_not_before key, ← htake, ← hdrop]
  exact List.takeWhile_append_dropWhile

lemma Ascending.without (h : Ascending order elements) (key : α) :
    Ascending order (without order key elements) := by
  have hsub : (SortedList.without order key elements).Sublist elements := by
    calc
      (SortedList.without order key elements).Sublist (below order key elements ++
          (overlapping order key elements ++ above order key elements)) :=
        ((List.tail_sublist _).append_right _).append_left _
      _ = elements := h.cut key
  exact h.sublist hsub

end SortedList

namespace SkipList

open SortedList IntervalOrder

variable {α : Type} {order : α → α → Ordering}

lemma perm_link (s : SkipList α) (value : α) :
    (s.link value).toList.Perm (value :: s.toList) := by
  have hlink : (s.link value).toList =
      (s.behind value).map Tower.value ++ value :: (s.seek value).map Tower.value := by
    unfold link build toList
    rw [List.map_append, List.map_cons]
  rw [hlink, toList, ← s.behind_append_seek value, List.map_append]
  exact List.perm_middle

lemma perm_foldl_link (s : SkipList α) (values : List α) :
    (values.foldl link s).toList.Perm (values ++ s.toList) := by
  induction values generalizing s with
  | nil => exact List.Perm.refl _
  | cons value values ih =>
    calc
      (values.foldl link (s.link value)).toList.Perm (values ++ (s.link value).toList) := ih _
      (values ++ (s.link value).toList).Perm (values ++ value :: s.toList) :=
        (s.perm_link value).append_left values
      (values ++ value :: s.toList).Perm (value :: (values ++ s.toList)) := List.perm_middle

lemma order_foldl_link (s : SkipList α) (values : List α) :
    (values.foldl link s).order = s.order := by
  induction values generalizing s with
  | nil => rfl
  | cons value values ih => exact ih (s.link value)

variable {s : SkipList α}

lemma Sorted.sublist (h : s.Sorted order) {towers : List (Tower α)}
    (hsub : towers.Sublist s.towers) : Sorted order { s with towers } :=
  ⟨h.order_eq, fun t ht => h.linked t (hsub.subset ht), h.ascending.sublist (hsub.map Tower.value)⟩

variable [IntervalOrder order]

lemma Sorted.found_first (h : s.Sorted order) (key : α) :
    s.search key = (overlapping order key s.toList).head? ∧
      (s.others key).map Tower.value =
        (overlapping order key s.toList).tail ++ above order key s.toList := by
  have hseek := (h.map_seek key).trans (h.ascending.filter_not_before key)
  have hoverlap : ∀ v ∈ overlapping order key s.toList, order v key = .eq := by
    intro v hv
    simpa using (List.mem_filter.mp hv).2
  exact h.found_of_seek hseek hoverlap fun v hv => (mem_above.mp hv).2

lemma Sorted.values_build (h : s.Sorted order) (value key : α) :
    (s.build (s.behind key) value (s.others key)).toList = below order key s.toList ++
      value :: ((overlapping order key s.toList).tail ++ above order key s.toList) := by
  change (_ ++ _ :: _ : List (Tower α)).map Tower.value = _
  rw [List.map_append, List.map_cons, h.map_behind, (h.found_first key).2]

lemma Sorted.link_apart (h : s.Sorted order) {value : α}
    (hapart : ∀ w ∈ s.toList, order w value ≠ .eq) : (s.link value).Sorted order := by
  have hs := h.searchable value
  refine ⟨h.order_eq, link_linked hs, ?_⟩
  obtain ⟨htake, hdrop⟩ := h.ascending.takeWhile_lt value
  rw [toList_link hs, h.order_eq, htake, hdrop]
  have hcut : below order value s.toList ++ s.toList.filter (fun v => order v value != .lt) =
      s.toList := by
    rw [h.ascending.filter_not_before value]
    exact h.ascending.cut value
  refine Ascending.put (by rw [hcut]; exact h.ascending) (fun w hw => ?_) (fun w hw => ?_)
    (by rw [hcut]; exact hapart)
  · simp [(mem_below.mp hw).2]
  · simpa using (List.mem_filter.mp hw).2

lemma Sorted.foldl_link_apart (h : s.Sorted order) {values : List α}
    (hvalues : Ascending order values)
    (hapart : ∀ w ∈ s.toList, ∀ v ∈ values, order w v ≠ .eq) :
    (values.foldl link s).Sorted order := by
  induction values generalizing s with
  | nil => exact h
  | cons value values ih =>
    obtain ⟨hfirst, hrest⟩ := List.pairwise_cons.mp hvalues
    refine ih (h.link_apart fun w hw => hapart w hw value List.mem_cons_self) hrest
      fun w hw v hv => ?_
    rcases List.mem_cons.mp ((s.perm_link value).mem_iff.mp hw) with rfl | hw
    · simp [hfirst v hv]
    · exact hapart w hw v (List.mem_cons_of_mem _ hv)

lemma above_filter_not_before {first : α} {more elements : List α}
    (hvalues : Ascending order (first :: more)) :
    above order (more.getLastD first) (elements.filter fun v => order v first != .lt) =
      above order (more.getLastD first) elements := by
  have hlast : order (more.getLastD first) first ≠ .lt := by
    rcases List.mem_cons.mp (List.getLastD_mem_cons (l := more) (a := first)) with heq | hmem
    · have hself : order first first = .eq := Std.ReflCmp.compare_self
      rw [heq, hself]
      simp
    · rw [Std.OrientedCmp.gt_of_lt (List.rel_of_pairwise_cons hvalues hmem)]
      simp
  unfold above
  rw [List.filter_filter]
  refine List.filter_congr fun v _ => ?_
  cases hv : order v (more.getLastD first) with
  | lt => rfl
  | eq => rfl
  | gt =>
    have hnot : order v first ≠ .lt := fun hlt =>
      hlast (lt_trans (Std.OrientedCmp.lt_of_gt hv) hlt)
    simp [hnot]

/-- Splicing takes out the elements between the first and the last new one, and links what is made
of these and the new ones. -/
lemma Sorted.exists_spliced (h : s.Sorted order) {first : α} {more : List α}
    (hvalues : Ascending order (first :: more)) (merge : List α → List α → Result (List α)) :
    ∃ left : SkipList α, left.Sorted order ∧
      left.toList = below order first s.toList ++ above order (more.getLastD first) s.toList ∧
      s.splice (first :: more) merge = do
        let merged ← replacement (between order first (more.getLastD first) s.toList)
          (first :: more) merge
        return merged.foldl link left := by
  have hrest : Ascending order (s.toList.filter fun v => order v first != .lt) :=
    h.ascending.filter _
  obtain ⟨hrun, hbeyond⟩ := hrest.takeWhile_le (more.getLastD first)
  rw [above_filter_not_before hvalues, ← h.map_seek, List.dropWhile_map] at hbeyond
  rw [List.filter_filter, ← h.map_seek, List.takeWhile_map] at hrun
  have hsub : (s.behind first ++ (s.seek first).dropWhile fun t =>
      s.order t.value (more.getLastD first) != .gt).Sublist s.towers := by
    calc
      List.Sublist _ (s.behind first ++ s.seek first) := (List.dropWhile_sublist _).append_left _
      _ = s.towers := s.behind_append_seek first
  have hbetween : ((s.seek first).takeWhile fun t =>
      s.order t.value (more.getLastD first) != .gt).map Tower.value =
        between order first (more.getLastD first) s.toList := by
    rw [h.order_eq]
    exact hrun.trans (List.filter_congr fun v _ => Bool.and_comm ..)
  refine ⟨_, h.sublist hsub, ?_, by rw [splice_cons, hbetween]⟩
  unfold toList
  rw [List.map_append, h.map_behind, h.order_eq]
  exact congrArg (_ ++ ·) hbeyond

end SkipList

namespace Arena

open SortedList IntervalOrder

variable {α : Type} {order : α → α → Ordering} {a : Arena α} {elements : List α}

namespace Call

/-- What a call leaves of the elements of an ascending list, and what it puts in. -/
def exchange (order : α → α → Ordering) (elements : List α) :
    Call α → Result (List α × List α)
  | insert value => .ok (without order value elements, [value])
  | insertWith value merge =>
    match (overlapping order value elements).head? with
    | none => .ok (without order value elements, [value])
    | some old => do return (without order value elements, [← merge old value])
  | remove key => .ok (without order key elements, [])
  | splice [] _ => .ok (elements, [])
  | splice (first :: more) merge => do
    let last := more.getLastD first
    let merged ← replacement (between order first last elements) (first :: more) merge
    return (below order first elements ++ above order last elements, merged)
  | search _ => .ok (elements, [])

/-- Nothing that a call puts in overlaps what it leaves in place. -/
def Clear (order : α → α → Ordering) (elements : List α) (call : Call α) : Prop :=
  ∀ left put, call.exchange order elements = .ok (left, put) →
    ∀ w ∈ left, ∀ v ∈ put, order w v ≠ .eq

/-- What is asked of the arguments of a call: what a merge makes of an element covers it, and what
is spliced in is ascending, as is what is made of it. -/
def Proper (order : α → α → Ordering) : Call α → Prop
  | insertWith value merge => ∀ old merged, merge old value = .ok merged → Covers order merged old
  | splice values merge => Ascending order values ∧
      ∀ run merged, merge run values = .ok merged → Ascending order merged
  | _ => True

end Call

/-- What a call makes of the elements of an arena: it exchanges some of them, unless it is refused,
and the elements stay in order if the call is clear. -/
structure Exchanges (order : α → α → Ordering) (call : Call α) (a : Arena α)
    (elements elements' : List α) : Prop where
  holds : Holds order (call.onArena a).2 elements'
  refused : ∀ f, call.exchange order elements = .error f →
    (call.onArena a).1 = .error f ∧ elements' = elements
  exchanged : ∀ left put, call.exchange order elements = .ok (left, put) →
    elements'.Perm (put ++ left)
  ascending : call.Clear order elements → Ascending order elements'

lemma holds_of_runs {call : Call α} {r : Result (Option α)} {a' : Arena α}
    {row : List (Nat × Tower α)} {s : SkipList α} (hcall : call.onArena a = (r, a'))
    (h : Represents a' row s) (horder : s.order = order) (hlist : s.toList = elements) :
    Holds order (call.onArena a).2 elements := by
  rw [hcall]
  exact ⟨row, s, h, horder, hlist⟩

lemma exchanges_unchanged {call : Call α} {f : Failure} (h : Holds order a elements)
    (hasc : Ascending order elements) (hcall : call.exchange order elements = .error f)
    (hrun : call.onArena a = (.error f, a)) : Exchanges order call a elements elements := by
  refine ⟨by rwa [hrun], fun g hg => ?_, fun left put hput => ?_, fun _ => hasc⟩
  · rw [hcall] at hg
    rw [hrun, Except.error.inj hg]
    exact ⟨rfl, rfl⟩
  · rw [hcall] at hput
    cases hput

variable [IntervalOrder order]

lemma exchanges_replaced {call : Call α} {value v : α} (hasc : Ascending order elements)
    (hcall : call.exchange order elements = .ok (without order value elements, [v]))
    (hbefore : ∀ w ∈ below order value elements, order w v ≠ .gt)
    (hafter : ∀ w ∈ (overlapping order value elements).tail ++ above order value elements,
      order w v ≠ .lt)
    (holds : Holds order (call.onArena a).2 (below order value elements ++
      v :: ((overlapping order value elements).tail ++ above order value elements))) :
    Exchanges order call a elements (below order value elements ++
      v :: ((overlapping order value elements).tail ++ above order value elements)) := by
  refine ⟨holds, fun f hf => ?_, fun left put hput => ?_, fun hclear => ?_⟩
  · rw [hcall] at hf
    cases hf
  · rw [hcall] at hput
    obtain ⟨rfl, rfl⟩ := Prod.mk.inj (Except.ok.inj hput)
    exact List.perm_middle
  · exact (hasc.without value).put hbefore hafter fun w hw =>
      hclear _ _ hcall w hw v (List.mem_singleton_self v)

lemma exchanges_put {call : Call α} {value : α} (hasc : Ascending order elements)
    (hcall : call.exchange order elements = .ok (without order value elements, [value]))
    (holds : Holds order (call.onArena a).2 (below order value elements ++
      value :: ((overlapping order value elements).tail ++ above order value elements))) :
    Exchanges order call a elements (below order value elements ++
      value :: ((overlapping order value elements).tail ++ above order value elements)) := by
  refine exchanges_replaced hasc hcall (fun w hw => ?_) (fun w hw => ?_) holds
  · simp [(mem_below.mp hw).2]
  · rcases List.mem_append.mp hw with hw | hw
    · have heq : order w value = .eq := by
        simpa using (List.mem_filter.mp (List.mem_of_mem_tail hw)).2
      simp [heq]
    · simp [(mem_above.mp hw).2]

lemma Holds.exchanges_insert (h : Holds order a elements) (hasc : Ascending order elements)
    (value : α) : ∃ elements', Exchanges order (.insert value) a elements elements' := by
  obtain ⟨row, s, h, rfl, rfl⟩ := h
  have hs : s.Sorted s.order := ⟨rfl, h.linked, hasc⟩
  obtain ⟨a', row', hrun, h'⟩ := insert_spec h value
  rw [SkipList.insert_eq] at hrun h'
  exact ⟨_, exchanges_put hasc rfl (holds_of_runs hrun h' rfl (hs.values_build value value))⟩

lemma Holds.exchanges_remove (h : Holds order a elements) (hasc : Ascending order elements)
    (key : α) : ∃ elements', Exchanges order (.remove key) a elements elements' := by
  obtain ⟨row, s, h, rfl, rfl⟩ := h
  have hs : s.Sorted s.order := ⟨rfl, h.linked, hasc⟩
  obtain ⟨a', row', hrun, h'⟩ := remove_spec h key
  rw [SkipList.remove_eq] at hrun h'
  have hlist : (s.behind key ++ s.others key).map Tower.value =
      without s.order key s.toList := by
    rw [List.map_append, hs.map_behind, (hs.found_first key).2]
    rfl
  refine ⟨_, holds_of_runs hrun h' rfl hlist, fun f hf => ?_, fun left put hput => ?_,
    fun _ => hasc.without key⟩
  · cases hf
  · obtain ⟨rfl, rfl⟩ := Prod.mk.inj (Except.ok.inj hput)
    exact List.Perm.refl _

lemma Holds.exchanges_search (h : Holds order a elements) (hasc : Ascending order elements)
    (key : α) : ∃ elements', Exchanges order (.search key) a elements elements' := by
  obtain ⟨row, s, h, rfl, rfl⟩ := h
  have hrun : Runs (do (← get).search key) a (.ok (s.search key)) a :=
    .bind (runs_get a) (runs_lift (search_spec h key) a)
  refine ⟨_, holds_of_runs hrun h rfl rfl, fun f hf => ?_, fun left put hput => ?_, fun _ => hasc⟩
  · cases hf
  · obtain ⟨rfl, rfl⟩ := Prod.mk.inj (Except.ok.inj hput)
    exact List.Perm.refl _

/-- A merged element takes the place of the one that it covers. -/
lemma Holds.exchanges_insertWith (h : Holds order a elements) (hasc : Ascending order elements)
    {value : α} {merge : α → α → Result α} (hproper : (Call.insertWith value merge).Proper order) :
    ∃ elements', Exchanges order (.insertWith value merge) a elements elements' := by
  obtain ⟨row, s, h, rfl, rfl⟩ := h
  have hs : s.Sorted s.order := ⟨rfl, h.linked, hasc⟩
  have hstep := insertWith_spec h value merge
  rw [SkipList.insertWith_eq, (hs.found_first value).1] at hstep
  cases hrun : overlapping s.order value s.toList with
  | nil =>
    rw [hrun] at hstep
    obtain ⟨a', row', hlink, h'⟩ := hstep
    have hcall : (Call.insertWith value merge).onArena a = (.ok none, a') :=
      Runs.bind hlink (runs_pure none a')
    refine ⟨_, exchanges_put hasc ?_ (holds_of_runs hcall h' rfl (hs.values_build value value))⟩
    simp [Call.exchange, hrun]
  | cons old more =>
    rw [hrun] at hstep
    dsimp only [List.head?_cons] at hstep
    cases hmerge : merge old value with
    | error f =>
      rw [hmerge] at hstep
      refine ⟨_, exchanges_unchanged ⟨row, s, h, rfl, rfl⟩ hasc (f := f) ?_
        (Runs.bind_error hstep)⟩
      simp only [Call.exchange, hrun, List.head?_cons, hmerge]
      rfl
    | ok merged =>
      rw [hmerge] at hstep
      obtain ⟨a', row', hlink, h'⟩ := hstep
      have hcall : (Call.insertWith value merge).onArena a = (.ok none, a') :=
        Runs.bind hlink (runs_pure none a')
      have hcovers := hproper old merged hmerge
      have hcut := hasc
      rw [← hasc.cut value, hrun] at hcut
      obtain ⟨-, hback, hcross⟩ := List.pairwise_append.mp hcut
      refine ⟨_, exchanges_replaced (v := merged) hasc ?_ (fun w hw hgt => ?_) (fun w hw hlt => ?_)
        (holds_of_runs hcall h' rfl (hs.values_build merged value))⟩
      · simp only [Call.exchange, hrun, List.head?_cons, hmerge]
        rfl
      · have hold := hcovers w (by simp [hgt])
        rw [hcross w hw old (by simp), hgt] at hold
        cases hold
      · rw [hrun] at hw
        have hold := hcovers w (by simp [hlt])
        rw [Std.OrientedCmp.gt_of_lt (List.rel_of_pairwise_cons hback hw), hlt] at hold
        cases hold

lemma Holds.exchanges_splice (h : Holds order a elements) (hasc : Ascending order elements)
    {values : List α} {merge : List α → List α → Result (List α)}
    (hproper : (Call.splice values merge).Proper order) :
    ∃ elements', Exchanges order (.splice values merge) a elements elements' := by
  obtain ⟨row, s, h, rfl, rfl⟩ := h
  have hs : s.Sorted s.order := ⟨rfl, h.linked, hasc⟩
  have hstep := splice_spec h values merge fun first _ t ht => hs.seek_again ht
  cases values with
  | nil =>
    have hcall : (Call.splice [] merge).onArena a = (.ok none, a) :=
      Runs.bind (runs_pure () a) (runs_pure none a)
    refine ⟨_, holds_of_runs hcall h rfl rfl, fun f hf => ?_, fun left put hput => ?_,
      fun _ => hasc⟩
    · cases hf
    · obtain ⟨rfl, rfl⟩ := Prod.mk.inj (Except.ok.inj hput)
      exact List.Perm.refl _
  | cons first more =>
    obtain ⟨rest, hrest, hleft, heq⟩ := hs.exists_spliced hproper.1 merge
    rw [heq] at hstep
    cases hmerge : replacement (between s.order first (more.getLastD first) s.toList)
        (first :: more) merge with
    | error f =>
      rw [hmerge] at hstep
      refine ⟨_, exchanges_unchanged ⟨row, s, h, rfl, rfl⟩ hasc (f := f) ?_
        (Runs.bind_error hstep)⟩
      simp only [Call.exchange, hmerge]
      rfl
    | ok merged =>
      rw [hmerge] at hstep
      obtain ⟨a', row', hlink, h'⟩ := hstep
      have hcall : (Call.splice (first :: more) merge).onArena a = (.ok none, a') :=
        Runs.bind hlink (runs_pure none a')
      have hput : (Call.splice (first :: more) merge).exchange s.order s.toList =
          .ok (below s.order first s.toList ++ above s.order (more.getLastD first) s.toList,
            merged) := by
        simp only [Call.exchange, hmerge]
        rfl
      have hmerged : Ascending s.order merged := by
        unfold replacement at hmerge
        split at hmerge
        · exact Except.ok.inj hmerge ▸ hproper.1
        · exact hproper.2 _ _ hmerge
      refine ⟨_, holds_of_runs hcall h' ((SkipList.order_foldl_link rest merged).trans
        hrest.order_eq) rfl, fun f hf => ?_, fun left put hexchange => ?_, fun hclear => ?_⟩
      · rw [hput] at hf
        cases hf
      · rw [hput] at hexchange
        obtain ⟨rfl, rfl⟩ := Prod.mk.inj (Except.ok.inj hexchange)
        exact hleft ▸ rest.perm_foldl_link merged
      · exact (hrest.foldl_link_apart hmerged fun w hw =>
          hclear _ _ hput w (hleft ▸ hw)).ascending

/-- A call on an ascending list exchanges elements, whatever the call is. -/
theorem Holds.exists_exchanges (h : Holds order a elements) (hasc : Ascending order elements)
    {call : Call α} (hproper : call.Proper order) :
    ∃ elements', Exchanges order call a elements elements' := by
  cases call with
  | insert value => exact h.exchanges_insert hasc value
  | insertWith value merge => exact h.exchanges_insertWith hasc hproper
  | remove key => exact h.exchanges_remove hasc key
  | splice values merge => exact h.exchanges_splice hasc hproper
  | search key => exact h.exchanges_search hasc key

lemma Exchanges.ascending_iff {call : Call α} {elements' : List α}
    (h : Exchanges order call a elements elements') :
    Ascending order elements' ↔ call.Clear order elements := by
  refine ⟨fun hasc left put hput w hw v hv => ?_, h.ascending⟩
  have hapart : elements'.Pairwise fun v w => order v w ≠ .eq := by
    refine hasc.imp fun hlt => ?_
    simp [hlt]
  have hsymm : ∀ {v w : α}, order v w ≠ .eq → order w v ≠ .eq := by
    intro v w hne heq
    exact hne (Std.OrientedCmp.eq_symm heq)
  have hparts := ((h.exchanged left put hput).pairwise_iff hsymm).mp hapart
  exact hsymm ((List.pairwise_append.mp hparts).2.2 v hv w hw)

/-- The stored elements are in order, so that no two of them overlap. -/
def InOrder (order : α → α → Ordering) (a : Arena α) : Prop :=
  ∃ elements, a.Shows elements ∧ Ascending order elements

def StaysInOrder (order : α → α → Ordering) : List (Call α) → Arena α → Prop
  | [], a => InOrder order a
  | call :: calls, a => InOrder order a ∧ StaysInOrder order calls (call.onArena a).2

def AllClear (order : α → α → Ordering) : List (Call α) → Arena α → Prop
  | [], _ => True
  | call :: calls, a =>
    (∀ elements, a.elements = .ok elements → call.Clear order elements) ∧
      AllClear order calls (call.onArena a).2

omit [IntervalOrder order] in
lemma AllClear.cons {call : Call α} {calls : List (Call α)} {l : List α}
    (hl : a.elements = .ok l) (hcall : call.Clear order l)
    (hcalls : AllClear order calls (call.onArena a).2) : AllClear order (call :: calls) a := by
  refine ⟨fun l' hl' => ?_, hcalls⟩
  rw [hl] at hl'
  exact Except.ok.inj hl' ▸ hcall

omit [IntervalOrder order] in
lemma StaysInOrder.inOrder {calls : List (Call α)} (h : StaysInOrder order calls a) :
    InOrder order a := by
  cases calls with
  | nil => exact h
  | cons call calls => exact h.1

lemma Holds.staysInOrder_iff (h : Holds order a elements) (hasc : Ascending order elements)
    {calls : List (Call α)} (hproper : ∀ call ∈ calls, call.Proper order) :
    StaysInOrder order calls a ↔ AllClear order calls a := by
  induction calls generalizing a elements with
  | nil => exact iff_of_true ⟨elements, h.shows, hasc⟩ trivial
  | cons call calls ih =>
    obtain ⟨hcall, hcalls⟩ := List.forall_mem_cons.mp hproper
    obtain ⟨elements', hexchanges⟩ := h.exists_exchanges hasc hcall
    have hclear : (∀ l, a.elements = .ok l → call.Clear order l) ↔ call.Clear order elements := by
      rw [h.shows.elements_eq]
      simp
    have hnext : InOrder order (call.onArena a).2 ↔ Ascending order elements' := by
      refine ⟨fun ⟨l, hshows, hl⟩ => ?_, fun hl => ⟨elements', hexchanges.holds.shows, hl⟩⟩
      have heq := hexchanges.holds.shows.elements_eq.symm.trans hshows.elements_eq
      exact Except.ok.inj heq ▸ hl
    refine ⟨fun ⟨_, hrest⟩ => ?_, fun ⟨hfirst, hrest⟩ => ?_⟩
    · have hasc' := hnext.mp hrest.inOrder
      exact ⟨hclear.mpr (hexchanges.ascending_iff.mp hasc'),
        (ih hexchanges.holds hasc' hcalls).mp hrest⟩
    · have hasc' := hexchanges.ascending (hclear.mp hfirst)
      exact ⟨⟨elements, h.shows, hasc⟩, (ih hexchanges.holds hasc' hcalls).mpr hrest⟩

omit [IntervalOrder order] in
lemma clear_insert_iff {value : α} :
    (Call.insert value).Clear order elements ↔ (overlapping order value elements).length ≤ 1 := by
  have htail : (overlapping order value elements).length ≤ 1 ↔
      (overlapping order value elements).tail = [] := by
    rw [← List.length_eq_zero_iff, List.length_tail]
    omega
  rw [htail]
  constructor
  · refine fun h => List.eq_nil_iff_forall_not_mem.mpr fun w hw => ?_
    refine h _ _ rfl w ?_ value (List.mem_singleton_self value) ?_
    · exact List.mem_append_right _ (List.mem_append_left _ hw)
    · simpa using (List.mem_filter.mp (List.mem_of_mem_tail hw)).2
  · intro h left put hput w hw
    obtain ⟨rfl, rfl⟩ := Prod.mk.inj (Except.ok.inj hput)
    unfold without at hw
    rw [h, List.nil_append] at hw
    rw [List.forall_mem_singleton]
    rcases List.mem_append.mp hw with hw | hw
    · simp [(mem_below.mp hw).2]
    · simp [(mem_above.mp hw).2]

omit [IntervalOrder order] in
lemma clear_remove (key : α) : (Call.remove key).Clear order elements := by
  intro left put hput w hw v hv
  obtain ⟨rfl, rfl⟩ := Prod.mk.inj (Except.ok.inj hput)
  cases hv

lemma clear_splice {first : α} {more : List α} (hvalues : Ascending order (first :: more))
    (hnone : between order first (more.getLastD first) elements = [])
    (merge : List α → List α → Result (List α)) :
    (Call.splice (first :: more) merge).Clear order elements := by
  intro left put hput w hw v hv
  simp only [Call.exchange, hnone, replacement, List.isEmpty_nil, if_true] at hput
  obtain ⟨rfl, rfl⟩ := Prod.mk.inj (Except.ok.inj hput)
  rcases List.mem_append.mp hw with hw | hw
  · have hlt := (mem_below.mp hw).2
    rcases List.mem_cons.mp hv with rfl | hv
    · simp [hlt]
    · simp [lt_trans hlt (List.rel_of_pairwise_cons hvalues hv)]
  · have hlt := Std.OrientedCmp.lt_of_gt (mem_above.mp hw).2
    have hvw : order v w = .lt := by
      rcases hvalues.eq_or_lt_last v hv with rfl | hlast
      · exact hlt
      · exact lt_trans hlast hlt
    simp [Std.OrientedCmp.gt_of_lt hvw]

/-- Whatever is asked of an empty arena of intervals, its elements stay in order just as long as no
call puts something in that overlaps what it leaves in place. Inserting does not, unless it overlaps
more than one element; removing never does, and splicing does not where there is nothing between the
new elements. -/
theorem stays_in_order_iff (order : α → α → Ordering) [IntervalOrder order] (maxLevel : Nat)
    (heights : Nat → Nat) {calls : List (Call α)} (hproper : ∀ call ∈ calls, call.Proper order) :
    (StaysInOrder order calls (ofHeights order maxLevel heights) ↔
        AllClear order calls (ofHeights order maxLevel heights)) ∧
      (∀ elements value, (Call.insert value).Clear order elements ↔
        (overlapping order value elements).length ≤ 1) ∧
      (∀ elements key, (Call.remove key).Clear order elements) ∧
      ∀ elements first more merge, Ascending order (first :: more) →
        between order first (more.getLastD first) elements = [] →
          (Call.splice (first :: more) merge).Clear order elements := by
  have hempty : Holds order (ofHeights order maxLevel heights) [] :=
    ⟨[], SkipList.ofHeights order maxLevel heights, represents_ofHeights .., rfl, rfl⟩
  exact ⟨hempty.staysInOrder_iff List.Pairwise.nil hproper, fun _ _ => clear_insert_iff,
    fun _ key => clear_remove key, fun _ _ _ merge hvalues hnone =>
      clear_splice hvalues hnone merge⟩

/-- Intervals of integers with their lengths. -/
def stretchOrder : Int × Nat → Int × Nat → Ordering :=
  compareEnds Prod.fst fun p => p.1 + p.2

instance : IntervalOrder stretchOrder := intervalOrder_compareEnds fun p => by omega

/-- The smallest interval over two. -/
def stretch (p q : Int × Nat) : Int × Nat :=
  (min p.1 q.1, (max (p.1 + p.2) (q.1 + q.2) - min p.1 q.1).toNat)

def narrow : List (Call (Int × Nat)) :=
  [.insert (0, 1), .insert (6, 1), .insertWith (7, 3) fun old value => .ok (stretch old value),
    .splice [(2, 0), (3, 1)] fun _ values => .ok values, .insert (1, 0), .remove (9, 9)]

lemma narrow_proper : ∀ call ∈ narrow, call.Proper stretchOrder := by
  unfold narrow
  simp only [List.forall_mem_cons]
  refine ⟨trivial, trivial, fun old merged hmerge => ?_, ⟨by decide, fun run merged hmerge => ?_⟩,
    trivial, trivial, by simp⟩
  · obtain rfl := Except.ok.inj hmerge
    unfold stretch
    refine IntervalOrder.covers_of_ends (fun p => by omega) ?_ ?_
    · dsimp only
      omega
    · dsimp only
      omega
  · obtain rfl := Except.ok.inj hmerge
    decide

/-- The elements stay in order, as nothing overlaps two of them. -/
theorem narrow_stays_in_order :
    StaysInOrder stretchOrder narrow (ofHeights stretchOrder 3 fun n => n) := by
  obtain ⟨hiff, hinsert, hremove, hsplice⟩ :=
    stays_in_order_iff stretchOrder 3 (fun n => n) narrow_proper
  have hmerged : (Call.insertWith (7, 3) fun old value => .ok (stretch old value)).Clear
      stretchOrder [(0, 1), (6, 1)] := by
    intro left put hput
    obtain ⟨rfl, rfl⟩ := Prod.mk.inj (Except.ok.inj hput)
    decide
  refine hiff.mpr (.cons (l := []) rfl ((hinsert _ _).mpr (by decide)) ?_)
  refine .cons (l := [(0, 1)]) (by decide +kernel) ((hinsert _ _).mpr (by decide)) ?_
  refine .cons (l := [(0, 1), (6, 1)]) (by decide +kernel) hmerged ?_
  refine .cons (l := [(0, 1), (6, 4)]) (by decide +kernel)
    (hsplice _ _ _ _ (by decide) (by decide)) ?_
  refine .cons (l := [(0, 1), (2, 0), (3, 1), (6, 4)]) (by decide +kernel)
    ((hinsert _ _).mpr (by decide)) ?_
  exact .cons (l := [(1, 0), (2, 0), (3, 1), (6, 4)]) (by decide +kernel) (hremove _ _)
    trivial

/-- An interval that overlaps two others replaces the first of them and stands in front of the
other. -/
theorem wide_value_overlaps :
    ¬∀ calls : List (Call (Int × Nat)), (∀ call ∈ calls, call.Proper stretchOrder) →
      StaysInOrder stretchOrder calls (ofHeights stretchOrder 3 fun n => n) := by
  intro h
  obtain ⟨-, -, -, l, hshows, hasc⟩ := h [.insert (0, 1), .insert (3, 1), .insert (0, 10)]
    (by simp [Call.Proper])
  have hfound : ((Call.insert (0, 10)).onArena ((Call.insert (3, 1)).onArena
      ((Call.insert (0, 1)).onArena (ofHeights stretchOrder 3 fun n => n)).2).2).2.elements =
        .ok [(0, 10), (3, 1)] := by decide +kernel
  obtain rfl := Except.ok.inj (hfound.symm.trans hshows.elements_eq)
  exact absurd hasc (by decide)

end Arena

end TemporalAlgebra
