import TemporalAlgebra.Proofs.SkipList.Changing
import TemporalAlgebra.Proofs.SkipList.Sorted

/-!
# Arenas as sorted lists

Where the order is a total preorder, an arena is to be told from a strictly ascending list by nothing
that it answers: whatever the heights of its slots are, inserting replaces the equal element, removing
takes it out, and splicing replaces a run of elements. What is refused changes nothing.
-/
namespace TemporalAlgebra.Arena

open SortedList

variable {α : Type}

/-- What can be asked of an arena. -/
inductive Call (α : Type) where
  | insert (value : α)
  | insertWith (value : α) (merge : α → α → Result α)
  | remove (key : α)
  | splice (values : List α) (merge : List α → List α → Result (List α))
  | search (key : α)

def silently (step : ArenaStep α Unit) : ArenaStep α (Option α) := do
  step
  return none

namespace Call

def onArena (call : Call α) : Arena α → Result (Option α) × Arena α :=
  StateT.run <| ExceptT.run <| match call with
    | insert value => Arena.insert value
    | insertWith value merge => silently (Arena.insertWith value merge)
    | remove key => Arena.remove key
    | splice values merge => silently (Arena.splice values merge)
    | search key => do (← get).search key

def onList (order : α → α → Ordering) (call : Call α) (elements : List α) :
    Result (Option α) × List α :=
  match call with
  | insert value =>
    (.ok (equal? order value elements),
      below order value elements ++ value :: above order value elements)
  | insertWith value merge =>
    match equal? order value elements with
    | none => (.ok none, below order value elements ++ value :: above order value elements)
    | some old =>
      match merge old value with
      | .ok merged => (.ok none, below order value elements ++ merged :: above order value elements)
      | .error f => (.error f, elements)
  | remove key =>
    (.ok (equal? order key elements), below order key elements ++ above order key elements)
  | splice [] _ => (.ok none, elements)
  | splice (first :: more) merge =>
    let last := more.getLastD first
    let run := between order first last elements
    match replacement run (first :: more) merge with
    | .ok merged => (.ok none, below order first elements ++ merged ++ above order last elements)
    | .error f => (.error f, elements)
  | search key => (.ok (equal? order key elements), elements)

/-- What is spliced in is ascending, and what a merge makes of elements is ascending between the
neighbours of these. -/
def Fits (order : α → α → Ordering) (elements : List α) : Call α → Prop
  | insertWith value merge => ∀ old ∈ equal? order value elements, ∀ merged,
      merge old value = .ok merged →
        Ascending order (below order value elements ++ merged :: above order value elements)
  | splice (first :: more) merge =>
    let last := more.getLastD first
    let run := between order first last elements
    Ascending order (first :: more) ∧ ∀ merged, run ≠ [] → merge run (first :: more) = .ok merged →
      Ascending order (below order first elements ++ merged ++ above order last elements)
  | _ => True

def answers {σ : Type} (answer : Call α → σ → Result (Option α) × σ) :
    List (Call α) → σ → List (Result (Option α)) × σ
  | [], x => ([], x)
  | call :: calls, x =>
    let (result, x) := answer call x
    let (results, x) := answers answer calls x
    (result :: results, x)

def AllFit (order : α → α → Ordering) : List (Call α) → List α → Prop
  | [], _ => True
  | call :: calls, elements =>
    call.Fits order elements ∧ AllFit order calls (call.onList order elements).2

end Call

/-- An arena represents a skip list with the elements of a sorted list. -/
def Holds (order : α → α → Ordering) (a : Arena α) (elements : List α) : Prop :=
  ∃ row s, a.Represents row s ∧ s.order = order ∧ s.toList = elements

/-- All that can be seen of an arena is as it is for a sorted list. -/
structure Shows (a : Arena α) (elements : List α) : Prop where
  elements_eq : a.elements = .ok elements
  intoElements_eq : (intoElements.run.run a).1 = .ok elements
  size_eq : a.size = elements.length
  isEmpty_eq : a.isEmpty = elements.isEmpty

section

variable {order : α → α → Ordering} {a : Arena α} {elements : List α}

lemma Represents.linked {row : List (Nat × Tower α)} {s : SkipList α} (h : a.Represents row s) :
    ∀ t ∈ s.towers, 1 ≤ t.height := by
  rw [h.towers_eq]
  exact List.forall_mem_map.mpr fun p hp => (h.heights p hp).1

lemma Holds.shows (h : Holds order a elements) : Shows a elements := by
  obtain ⟨row, s, h, -, rfl⟩ := h
  obtain ⟨a', hdrain⟩ := intoElements_spec h
  have hsize : a.size = s.toList.length := by
    rw [h.size_eq, SkipList.toList, List.length_map, SkipList.size]
  refine ⟨elements_spec h, congrArg Prod.fst hdrain, hsize, ?_⟩
  unfold isEmpty
  rw [hsize]
  cases s.toList <;> rfl

/-- What a call does to an arena is what it does to the sorted list. -/
structure Agrees (order : α → α → Ordering) (call : Call α) (a : Arena α) (elements : List α) :
    Prop where
  answer_eq : (call.onArena a).1 = (call.onList order elements).1
  holds : Holds order (call.onArena a).2 (call.onList order elements).2

lemma Agrees.of_runs {call : Call α} {a' : Arena α} {r : Result (Option α)} {elements' : List α}
    (hrun : call.onArena a = (r, a')) (hlist : call.onList order elements = (r, elements'))
    (h : Holds order a' elements') : Agrees order call a elements := by
  refine ⟨?_, ?_⟩
  · rw [hrun, hlist]
  · rw [hrun, hlist]
    exact h

variable [Std.TransCmp order]

lemma Call.Fits.replacement {first : α} {more merged : List α}
    {merge : List α → List α → Result (List α)}
    (h : (Call.splice (first :: more) merge).Fits order elements) (hasc : Ascending order elements)
    (hmerge : SortedList.replacement (between order first (more.getLastD first) elements)
      (first :: more) merge = .ok merged) :
    Ascending order
      (below order first elements ++ merged ++ above order (more.getLastD first) elements) := by
  obtain ⟨hvalues, hmerged⟩ := h
  obtain ⟨hrising, hlast⟩ := hvalues.bounds
  unfold SortedList.replacement at hmerge
  split at hmerge
  · obtain rfl := Except.ok.inj hmerge
    exact hasc.around hvalues (hrising _ List.getLastD_mem_cons) hrising hlast
  · rename_i hrun
    exact hmerged merged (by simpa using hrun) hmerge

lemma Holds.insert (h : Holds order a elements) (hasc : Ascending order elements) (value : α) :
    Agrees order (.insert value) a elements := by
  obtain ⟨row, s, h, rfl, rfl⟩ := h
  have hs : s.Sorted s.order := ⟨rfl, h.linked, hasc⟩
  obtain ⟨a', row', hrun, h'⟩ := insert_spec h value
  rw [SkipList.insert_eq] at hrun h'
  refine .of_runs hrun ?_ ⟨row', _, h', rfl, rfl⟩
  rw [hs.toList_build, (hs.found value).1]
  rfl

lemma Holds.remove (h : Holds order a elements) (hasc : Ascending order elements) (key : α) :
    Agrees order (.remove key) a elements := by
  obtain ⟨row, s, h, rfl, rfl⟩ := h
  have hs : s.Sorted s.order := ⟨rfl, h.linked, hasc⟩
  obtain ⟨a', row', hrun, h'⟩ := remove_spec h key
  rw [SkipList.remove_eq] at hrun h'
  refine .of_runs hrun ?_ ⟨row', _, h', rfl, rfl⟩
  unfold SkipList.toList
  rw [List.map_append, hs.map_behind, (hs.found key).1, (hs.found key).2]
  rfl

lemma Holds.search (h : Holds order a elements) (hasc : Ascending order elements) (key : α) :
    Agrees order (.search key) a elements := by
  obtain ⟨row, s, h, rfl, rfl⟩ := h
  have hs : s.Sorted s.order := ⟨rfl, h.linked, hasc⟩
  have hsearch := (search_spec h key).trans (by rw [(hs.found key).1])
  have hrun : Runs (do (← get).search key) a (.ok (equal? s.order key s.toList)) a :=
    .bind (runs_get a) (runs_lift hsearch a)
  exact .of_runs hrun rfl ⟨row, s, h, rfl, rfl⟩

/-- What is merged with an equal element replaces it, whatever it is. -/
lemma Holds.insertWith (h : Holds order a elements) (hasc : Ascending order elements) (value : α)
    (merge : α → α → Result α) : Agrees order (.insertWith value merge) a elements := by
  obtain ⟨row, s, h, rfl, rfl⟩ := h
  have hs : s.Sorted s.order := ⟨rfl, h.linked, hasc⟩
  have hstep := insertWith_spec h value merge
  rw [SkipList.insertWith_eq, (hs.found value).1] at hstep
  cases hequal : equal? s.order value s.toList with
  | none =>
    rw [hequal] at hstep
    obtain ⟨a', row', hrun, h'⟩ := hstep
    refine .of_runs (Runs.bind hrun (runs_pure none a')) ?_ ⟨row', _, h', rfl, rfl⟩
    rw [hs.toList_build, Call.onList, hequal]
  | some old =>
    rw [hequal] at hstep
    dsimp only at hstep
    cases hmerge : merge old value with
    | error f =>
      rw [hmerge] at hstep
      refine .of_runs (Runs.bind_error hstep) ?_ ⟨row, s, h, rfl, rfl⟩
      simp [Call.onList, hequal, hmerge]
    | ok merged =>
      rw [hmerge] at hstep
      obtain ⟨a', row', hrun, h'⟩ := hstep
      refine .of_runs (Runs.bind hrun (runs_pure none a')) ?_ ⟨row', _, h', rfl, rfl⟩
      rw [hs.toList_build]
      simp [Call.onList, hequal, hmerge]

lemma Holds.splice (h : Holds order a elements) (hasc : Ascending order elements)
    {values : List α} {merge : List α → List α → Result (List α)}
    (hfits : (Call.splice values merge).Fits order elements) :
    Agrees order (.splice values merge) a elements := by
  obtain ⟨row, s, h, rfl, rfl⟩ := h
  have hs : s.Sorted s.order := ⟨rfl, h.linked, hasc⟩
  have hstep := splice_spec h values merge fun first _ t ht => hs.seek_again ht
  cases values with
  | nil =>
    exact .of_runs (Runs.bind (runs_pure () a) (runs_pure none a)) rfl ⟨row, s, h, rfl, rfl⟩
  | cons first more =>
    obtain ⟨towers, htowers, hlinked, heq⟩ := hs.splice_eq hfits.1 merge
    rw [heq] at hstep
    cases hmerge : replacement (between s.order first (more.getLastD first) s.toList)
        (first :: more) merge with
    | error f =>
      rw [hmerge] at hstep
      refine .of_runs (Runs.bind_error hstep) ?_ ⟨row, s, h, rfl, rfl⟩
      simp only [Call.onList, hmerge]
    | ok merged =>
      rw [hmerge] at hstep
      obtain ⟨a', row', hrun, h'⟩ := hstep
      obtain ⟨horder, hlist⟩ := SkipList.foldl_link (s := { s with towers }) rfl hlinked htowers
        (hfits.replacement hasc hmerge)
      refine .of_runs (Runs.bind hrun (runs_pure none a')) ?_ ⟨row', _, h', horder, hlist⟩
      simp only [Call.onList, hmerge]

lemma ascending_onList {call : Call α} (hasc : Ascending order elements)
    (hfits : call.Fits order elements) : Ascending order (call.onList order elements).2 := by
  have hself : ∀ v : α, order v v = .eq := fun v => Std.ReflCmp.compare_self
  have hput : ∀ v, Ascending order (below order v elements ++ v :: above order v elements) := by
    intro v
    have h : Ascending order (below order v elements ++ [v] ++ above order v elements) := by
      refine hasc.around (List.pairwise_singleton _ v) ?_ ?_ ?_ <;> simp [hself]
    simpa using h
  cases call with
  | insert value => exact hput value
  | insertWith value merge =>
    rw [Call.onList]
    cases hequal : equal? order value elements with
    | none => exact hput value
    | some old =>
      dsimp only
      cases hmerge : merge old value with
      | error f => exact hasc
      | ok merged => exact hfits old hequal merged hmerge
  | remove key =>
    have h : Ascending order (below order key elements ++ [] ++ above order key elements) := by
      refine hasc.around List.Pairwise.nil ?_ ?_ ?_ <;> simp [hself]
    simpa [Call.onList] using h
  | splice values merge =>
    cases values with
    | nil => exact hasc
    | cons first more =>
      simp only [Call.onList]
      split
      · rename_i merged hmerge
        exact hfits.replacement hasc hmerge
      · exact hasc
  | search key => exact hasc

lemma Follows.unchanged {step : ArenaStep α Unit} {r : Result (SkipList α)} {f : Failure}
    (h : Follows step a r) (hrefused : ((silently step).run.run a).1 = .error f) :
    ((silently step).run.run a).2 = a := by
  cases r with
  | ok s =>
    obtain ⟨a', row', hrun, -⟩ := h
    have hsilent : Runs (silently step) a (.ok none) a' := .bind hrun (runs_pure none a')
    exact nomatch hrefused.symm.trans (congrArg Prod.fst hsilent)
  | error g =>
    have hsilent : Runs (silently step) a (.error g) a := .bind_error h
    exact congrArg Prod.snd hsilent

lemma Holds.unchanged (h : Holds order a elements) (hasc : Ascending order elements)
    {call : Call α} {f : Failure} (hrefused : (call.onArena a).1 = .error f) :
    (call.onArena a).2 = a := by
  obtain ⟨row, s, h, rfl, rfl⟩ := h
  have hs : s.Sorted s.order := ⟨rfl, h.linked, hasc⟩
  cases call with
  | insert value =>
    obtain ⟨a', row', hrun, -⟩ := insert_spec h value
    exact nomatch hrefused.symm.trans (congrArg Prod.fst hrun)
  | insertWith value merge => exact (insertWith_spec h value merge).unchanged hrefused
  | remove key =>
    obtain ⟨a', row', hrun, -⟩ := remove_spec h key
    exact nomatch hrefused.symm.trans (congrArg Prod.fst hrun)
  | splice values merge =>
    exact (splice_spec h values merge fun first _ t ht => hs.seek_again ht).unchanged hrefused
  | search key =>
    have hrun : Runs (do (← get).search key) a (.ok (s.search key)) a :=
      .bind (runs_get a) (runs_lift (search_spec h key) a)
    exact congrArg Prod.snd hrun

theorem Holds.agrees (h : Holds order a elements) (hasc : Ascending order elements)
    {call : Call α} (hfits : call.Fits order elements) : Agrees order call a elements := by
  cases call with
  | insert value => exact h.insert hasc value
  | insertWith value merge => exact h.insertWith hasc value merge
  | remove key => exact h.remove hasc key
  | splice values merge => exact h.splice hasc hfits
  | search key => exact h.search hasc key

/-- Calls that fit, one after the other, do to an arena what they do to the sorted list. -/
theorem Holds.answers (h : Holds order a elements) (hasc : Ascending order elements)
    {calls : List (Call α)} (hfit : Call.AllFit order calls elements) :
    (Call.answers Call.onArena calls a).1 =
        (Call.answers (Call.onList order) calls elements).1 ∧
      Holds order (Call.answers Call.onArena calls a).2
        (Call.answers (Call.onList order) calls elements).2 ∧
      Ascending order (Call.answers (Call.onList order) calls elements).2 := by
  induction calls generalizing a elements with
  | nil => exact ⟨rfl, h, hasc⟩
  | cons call calls ih =>
    obtain ⟨hfits, hrest⟩ := hfit
    obtain ⟨hanswer, h'⟩ := h.agrees hasc hfits
    obtain ⟨hanswers, hlast, hasc'⟩ := ih h' (ascending_onList hasc hfits) hrest
    exact ⟨congrArg₂ List.cons hanswer hanswers, hlast, hasc'⟩

end

/-- Whatever is asked of an arena, it answers as a strictly ascending list does, and it shows the
same elements. A refused call changes nothing, and a merge may put anything in the place of an equal
element, though only what keeps the elements in order lets the calls after it be foretold. -/
theorem answers_as_sorted_list (order : α → α → Ordering) [Std.TransCmp order] (maxLevel : Nat)
    (heights : Nat → Nat) (calls : List (Call α)) (hfit : Call.AllFit order calls []) :
    let arena := Call.answers Call.onArena calls (ofHeights order maxLevel heights)
    let list := Call.answers (Call.onList order) calls []
    arena.1 = list.1 ∧ arena.2.Shows list.2 ∧ Ascending order list.2 ∧
      (∀ (call : Call α) f, (call.onArena arena.2).1 = .error f →
        (call.onArena arena.2).2 = arena.2) ∧
      ∀ value merge,
        ((Call.insertWith value merge).onArena arena.2).1 =
            ((Call.insertWith value merge).onList order list.2).1 ∧
          ((Call.insertWith value merge).onArena arena.2).2.Shows
            ((Call.insertWith value merge).onList order list.2).2 := by
  have hempty : Holds order (ofHeights order maxLevel heights) [] :=
    ⟨[], SkipList.ofHeights order maxLevel heights, represents_ofHeights .., rfl, rfl⟩
  obtain ⟨hanswers, h, hasc⟩ := hempty.answers List.Pairwise.nil hfit
  refine ⟨hanswers, h.shows, hasc, fun call f hf => h.unchanged hasc hf, fun value merge => ?_⟩
  obtain ⟨hanswer, h'⟩ := h.insertWith hasc value merge
  exact ⟨hanswer, h'.shows⟩

def errands : List (Call Nat) :=
  [.insert 5, .insert 1, .insert 9, .insertWith 5 fun old _ => .ok old,
    .insertWith 1 fun _ _ => .error .aborted,
    .splice [2, 5, 7] fun run values => .ok (values.filter fun v => !run.contains v),
    .splice [7, 8, 9] fun _ _ => .error .aborted, .remove 9, .insert 7, .search 2]

theorem errands_done :
    let arena := Call.answers Call.onArena errands (ofHeights compare 3 fun n => n)
    arena.1 = [.ok none, .ok none, .ok none, .ok none, .error .aborted, .ok none,
        .error .aborted, .ok (some 9), .ok (some 7), .ok (some 2)] ∧
      arena.2.elements = .ok [1, 2, 7] := by
  have hfit : Call.AllFit compare errands [] := by
    refine ⟨trivial, trivial, trivial, ?merged, ?refused, ?spliced, ?kept, trivial, trivial,
      trivial, trivial⟩
    case merged =>
      intro old hold merged hmerge
      obtain rfl : 5 = old := Option.some.inj hold
      obtain rfl := Except.ok.inj hmerge
      decide
    case refused => exact fun old hold merged hmerge => nomatch hmerge
    case spliced =>
      refine ⟨by decide, fun merged hrun hmerge => ?_⟩
      obtain rfl := Except.ok.inj hmerge
      decide
    case kept => exact ⟨by decide, fun merged hrun hmerge => nomatch hmerge⟩
  obtain ⟨hanswers, hshows, -⟩ := answers_as_sorted_list compare 3 (fun n => n) errands hfit
  exact ⟨hanswers.trans (by decide), hshows.elements_eq⟩

end TemporalAlgebra.Arena
