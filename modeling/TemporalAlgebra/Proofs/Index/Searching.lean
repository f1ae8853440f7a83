import TemporalAlgebra.Proofs.Box.Lattice
import TemporalAlgebra.Proofs.Index.Envelopes

/-!
# Searching an index

However an index was made, it finds what a look at all its boxes finds. Boxes that are refused leave
no trace in it. Of the tree that finds entries by their envelopes it is assumed that it finds all of
them and no others.
-/
namespace TemporalAlgebra

open Indexable

namespace BoxIndex

variable {β : Type} [Indexable β] {index next : BoxIndex β} {box query : β} {id : Bigint}

section Steps

variable {γ δ : Type}

omit [Indexable β] in
lemma run_bind (step : IndexStep β γ) (more : γ → IndexStep β δ) (index : BoxIndex β) :
    (step >>= more).run.run index = match step.run.run index with
      | (.ok c, after) => (more c).run.run after
      | (.error f, after) => (.error f, after) := by
  simp only [bind, ExceptT.bind, ExceptT.run, ExceptT.mk, StateT.bind, StateT.run,
    ExceptT.bindCont]
  rcases step index with ⟨c | f, after⟩ <;> rfl

omit [Indexable β] in
lemma run_bind_eq_ok {step : IndexStep β γ} {more : γ → IndexStep β δ} {d : δ}
    (h : (step >>= more).run.run index = (.ok d, next)) :
    ∃ c after, step.run.run index = (.ok c, after) ∧ (more c).run.run after = (.ok d, next) := by
  rw [run_bind] at h
  rcases hstep : step.run.run index with ⟨c | f, after⟩
  · rw [hstep] at h
    cases h
  · rw [hstep] at h
    exact ⟨_, after, rfl, h⟩

omit [Indexable β] in
lemma run_reporting (step : IndexStep β γ) (index : BoxIndex β) :
    (reporting step).run.run index =
      (reported (step.run.run index).1, (step.run.run index).2) := by
  simp only [reporting, tryCatch, tryCatchThe, MonadExceptOf.tryCatch, ExceptT.tryCatch,
    ExceptT.run, ExceptT.mk, bind, StateT.bind, StateT.run]
  rcases step index with ⟨c | f, after⟩ <;> rfl

def Accepts (index : BoxIndex β) (box : β) : Prop :=
  isBounded box = true ∧ ∀ dims ∈ index.dimensions?, dims = dimensions box

def checked (index : BoxIndex β) (box : β) : BoxIndex β :=
  { index with dimensions? := some (dimensions box) }

/-- A box is accepted, and the dimensions are settled, or the index stays as it is. -/
lemma run_entry (index : BoxIndex β) (box : β) (id : Bigint) :
    index.Accepts box ∧ (entry box id).run.run index = (.ok ⟨box, id⟩, index.checked box) ∨
      ¬index.Accepts box ∧ ∃ cause, (entry box id).run.run index = (refuse cause, index) := by
  unfold entry
  cases hbounded : isBounded box with
  | false => exact Or.inr ⟨fun h => Bool.false_ne_true (hbounded.symm.trans h.1), _, rfl⟩
  | true =>
    obtain ⟨entries, dims?⟩ := index
    cases dims? with
    | none => exact Or.inl ⟨⟨hbounded, fun _ h => (nomatch h)⟩, rfl⟩
    | some dims =>
      have hrest : ∀ same : Bool, (do
          require same dimensionsError
          return ⟨box, id⟩ : IndexStep β (BoxEntry β)).run.run ⟨entries, some dims⟩ =
          (if same then .ok ⟨box, id⟩ else refuse dimensionsError, ⟨entries, some dims⟩) := by
        intro same
        cases same <;> rfl
      by_cases hdims : dims = dimensions box
      · subst hdims
        refine Or.inl ⟨⟨hbounded, fun _ h => (Option.some.inj h).symm⟩, (hrest _).trans ?_⟩
        rw [beq_self_eq_true]
        rfl
      · refine Or.inr ⟨fun h => hdims (h.2 dims rfl), dimensionsError, (hrest _).trans ?_⟩
        rw [beq_false_of_ne hdims]
        rfl

lemma entry_eq_ok {e : BoxEntry β} (h : (entry box id).run.run index = (.ok e, next)) :
    index.Accepts box ∧ e = ⟨box, id⟩ ∧ next = index.checked box := by
  rcases run_entry index box id with ⟨haccepts, hrun⟩ | ⟨-, cause, hrun⟩
  · cases hrun.symm.trans h
    exact ⟨haccepts, rfl, rfl⟩
  · cases hrun.symm.trans h

lemma run_insert (index : BoxIndex β) (box : β) (id : Bigint) :
    index.Accepts box ∧ (insert box id).run.run index =
        (.ok (), { index.checked box with entries := ⟨box, id⟩ :: index.entries }) ∨
      ¬index.Accepts box ∧
        ∃ cause, (insert box id).run.run index = (.error (.refused cause 1), index) := by
  unfold insert
  rw [run_bind, run_reporting]
  rcases run_entry index box id with ⟨haccepts, hrun⟩ | ⟨hnot, cause, hrun⟩
  · refine Or.inl ⟨haccepts, ?_⟩
    rw [hrun]
    rfl
  · refine Or.inr ⟨hnot, cause, ?_⟩
    rw [hrun]
    rfl

end Steps

def entryOf (item : β × Bigint) : BoxEntry β := ⟨item.1, item.2⟩

/-- What an index keeps to: it holds the boxes that it was given, all bounded and with the same
dimensions. -/
structure Holds (index : BoxIndex β) (items : List (β × Bigint)) : Prop where
  entries_eq : index.entries = items.map entryOf
  bounded : ∀ item ∈ items, isBounded item.1 = true
  dimensions_eq : ∀ item ∈ items, index.dimensions? = some (dimensions item.1)

/-- Boxes that are all accepted: each of them agrees with the dimensions at the end. -/
lemma run_entries {items : List (β × Bigint)} {entries : List (BoxEntry β)}
    (h : (items.mapM fun item => entry item.1 item.2).run.run index = (.ok entries, next)) :
    entries = items.map entryOf ∧ next.entries = index.entries ∧
      (∀ dims ∈ index.dimensions?, next.dimensions? = some dims) ∧
      ∀ item ∈ items, isBounded item.1 = true ∧ next.dimensions? = some (dimensions item.1) := by
  -- Dimensions that are settled stay settled, so those at the end are those of every box.
  induction items generalizing index entries with
  | nil =>
    cases h
    exact ⟨rfl, rfl, fun _ h => h, by simp⟩
  | cons item items ih =>
    rw [List.mapM_cons] at h
    obtain ⟨e, after, hentry, h⟩ := run_bind_eq_ok h
    obtain ⟨rest, last, hrest, h⟩ := run_bind_eq_ok h
    cases h
    obtain ⟨haccepts, rfl, rfl⟩ := entry_eq_ok hentry
    obtain ⟨rfl, hentries, hdims, hitems⟩ := ih hrest
    have hsettled : next.dimensions? = some (dimensions item.1) := hdims _ rfl
    refine ⟨rfl, hentries, fun dims h => ?_, List.forall_mem_cons.mpr
      ⟨⟨haccepts.1, hsettled⟩, hitems⟩⟩
    rw [haccepts.2 dims h]
    exact hsettled

/-- The indexes that can be made, with the boxes that they were given. -/
inductive Built : BoxIndex β → List (β × Bigint) → Prop
  | empty : Built {} []
  | loaded {index : BoxIndex β} {items : List (β × Bigint)} :
      ofList items = .ok index → Built index items
  | inserted {index next : BoxIndex β} {items : List (β × Bigint)} {box : β} {id : Bigint} :
      Built index items → (insert box id).run.run index = (.ok (), next) →
        Built next ((box, id) :: items)
  | refused {index next : BoxIndex β} {items : List (β × Bigint)} {box : β} {id : Bigint}
      {f : Failure} : Built index items → (insert box id).run.run index = (.error f, next) →
        Built next items

lemma holds_of_ofList {items : List (β × Bigint)} (h : ofList items = .ok index) :
    index.Holds items := by
  unfold ofList at h
  rw [run_reporting] at h
  rcases hload : (load items).run.run {} with ⟨f | u, after⟩
  · rw [hload] at h
    cases h
  · rw [hload] at h
    obtain rfl : after = index := Except.ok.inj h
    obtain ⟨entries, last, hentries, h⟩ := run_bind_eq_ok hload
    cases h
    obtain ⟨rfl, -, -, hitems⟩ := run_entries hentries
    exact ⟨rfl, fun item hi => (hitems item hi).1, fun item hi => (hitems item hi).2⟩

lemma Holds.insert {items : List (β × Bigint)} (h : index.Holds items)
    (hrun : (insert box id).run.run index = (.ok (), next)) : next.Holds ((box, id) :: items) := by
  rcases run_insert index box id with ⟨haccepts, hinsert⟩ | ⟨-, cause, hinsert⟩
  · cases hinsert.symm.trans hrun
    refine ⟨?_, List.forall_mem_cons.mpr ⟨haccepts.1, h.bounded⟩,
      List.forall_mem_cons.mpr ⟨rfl, fun item hi => ?_⟩⟩
    · rw [List.map_cons, ← h.entries_eq]
      rfl
    · exact congrArg some (haccepts.2 _ (h.dimensions_eq item hi)).symm
  · cases hinsert.symm.trans hrun

lemma eq_of_refused {f : Failure} (h : (insert box id).run.run index = (.error f, next)) :
    next = index := by
  rcases run_insert index box id with ⟨-, hrun⟩ | ⟨-, cause, hrun⟩
  · cases (Prod.mk.inj (hrun.symm.trans h)).1
  · exact ((Prod.mk.inj (hrun.symm.trans h)).2).symm

lemma Built.holds {items : List (β × Bigint)} (h : Built index items) : index.Holds items := by
  induction h with
  | empty => exact ⟨rfl, by simp, by simp⟩
  | loaded h => exact holds_of_ofList h
  | inserted _ hrun ih => exact ih.insert hrun
  | refused _ hrun ih => exact eq_of_refused hrun ▸ ih

lemma nodup_eraseDups {ι : Type} [BEq ι] [LawfulBEq ι] (ids : List ι) : ids.eraseDups.Nodup := by
  match ids with
  | [] => exact List.nodup_nil
  | i :: rest =>
    have hlen := List.length_filter_le (fun j => !j == i) rest
    rw [List.eraseDups_cons, List.nodup_cons]
    refine ⟨fun h => ?_, nodup_eraseDups _⟩
    have hne := (List.mem_filter.mp (List.mem_eraseDups.mp h)).2
    simp at hne
termination_by ids.length
decreasing_by exact Nat.lt_succ_of_le hlen

/-- A tree finds exactly the entries whose envelopes meet a window, in an order of its own. -/
def Exact (locate : Locator β) : Prop :=
  ∀ entries window e, e ∈ locate entries window ↔
    e ∈ entries ∧ envelopesMeet (envelope e.box) window = true

lemma exact_scan : Exact (scan : Locator β) := fun _ _ _ => List.mem_filter

variable {locate : Locator β}

lemma search_ascending (locate : Locator β) (index : BoxIndex β) (query : β) :
    (searchBy locate index query).Pairwise fun a b => a.val < b.val := by
  unfold searchBy
  split
  · generalize hids : ((matching locate index query).map BoxEntry.id).eraseDups = ids
    -- The numbers are in order after sorting, and distinct before it.
    have hle : ∀ a b : Bigint, (compare a b).isLE = true ↔ a.val ≤ b.val := by
      intro a b
      change (compare a.val b.val).isLE = true ↔ _
      rw [Int.isLE_compare]
    have hdistinct : (ids.mergeSort fun a b => (compare a b).isLE).Pairwise (· ≠ ·) := by
      change List.Nodup _
      rw [(List.mergeSort_perm ids _).nodup_iff, ← hids]
      exact nodup_eraseDups _
    have hsorted : (ids.mergeSort fun a b => (compare a b).isLE).Pairwise
        fun a b => (compare a b).isLE = true := by
      refine List.pairwise_mergeSort (fun a b c => ?_) (fun a b => ?_) ids
      · simp only [hle]
        omega
      · simp only [Bool.or_eq_true, hle]
        omega
    refine (hsorted.and hdistinct).imp fun {a b} h => ?_
    have hval : a.val ≠ b.val := fun heq => h.2 (Signed.ext heq)
    have := (hle a b).mp h.1
    omega
  · exact List.Pairwise.nil

lemma mem_search (hquery : isBounded query = true) :
    id ∈ searchBy locate index query ↔ ∃ e ∈ matching locate index query, e.id = id := by
  unfold searchBy
  rw [if_pos hquery, List.mem_mergeSort, List.mem_eraseDups, List.mem_map]

theorem Holds.mem_search_iff [CoveredBox β] {items : List (β × Bigint)} (h : index.Holds items)
    (hlocate : Exact locate) (hquery : isBounded query = true) :
    id ∈ searchBy locate index query ↔ ∃ box, (box, id) ∈ items ∧ overlaps box query = true := by
  rw [mem_search hquery]
  unfold matching
  simp only [List.mem_filter, hlocate _ _ _]
  rw [h.entries_eq]
  constructor
  · rintro ⟨e, ⟨⟨hmem, -⟩, hover⟩, rfl⟩
    obtain ⟨item, hitem, rfl⟩ := List.mem_map.mp hmem
    exact ⟨item.1, hitem, hover⟩
  · rintro ⟨box, hitem, hover⟩
    -- A box that overlaps the query has passed the comparison of envelopes.
    exact ⟨⟨box, id⟩, ⟨⟨List.mem_map.mpr ⟨_, hitem, rfl⟩, envelopesMeet_of_overlaps
      (h.bounded _ hitem) hquery (h.dimensions_eq _ hitem) hover⟩, hover⟩, rfl⟩

/-- Every index finds, in rising order and each one once, the numbers of exactly those boxes that
overlap a query, and a box that it refuses changes nothing. This is assumed of the tree only: that
it is exact, as the scan is. `finite` are the queries that are answered. -/
structure SearchesAsScan (β : Type) [Indexable β] (finite : β → Prop)
    (overlaps : β → β → Bool) : Prop where
  exact_scan : Exact (scan : Locator β)
  ascending : ∀ {index : BoxIndex β} {items}, Built index items →
    ∀ locate query, (searchBy locate index query).Pairwise fun a b => a.val < b.val
  mem_search_iff : ∀ {locate : Locator β}, Exact locate →
    ∀ {index : BoxIndex β} {items}, Built index items →
      ∀ query, finite query → ∀ id, id ∈ searchBy locate index query ↔
        ∃ box, (box, id) ∈ items ∧ overlaps box query = true
  unchanged : ∀ {index next : BoxIndex β} {items box id f}, Built index items →
    (insert box id).run.run index = (.error f, next) →
      next = index ∧ ∀ locate query, searchBy locate next query = searchBy locate index query

lemma searchesAsScan [CoveredBox β] {finite : β → Prop}
    (h : ∀ query, finite query → isBounded query = true) :
    SearchesAsScan β finite Indexable.overlaps where
  exact_scan := exact_scan
  ascending _ locate query := search_ascending locate _ query
  mem_search_iff hlocate _ _ hbuilt query hquery id :=
    hbuilt.holds.mem_search_iff hlocate (h query hquery)
  unchanged _ hrun := by
    obtain rfl := eq_of_refused hrun
    exact ⟨rfl, fun _ _ => rfl⟩

end BoxIndex

lemma boundedAxis_ofSpan {α : Type} [SpanDomain α] [FiniteDomain α] (s : Option (Span α)) :
    BoundedAxis (s.map ofSpan) := by
  intro e he
  obtain ⟨t, -, rfl⟩ := Option.map_eq_some_iff.mp he
  exact ⟨FiniteDomain.isFinite_native _, FiniteDomain.isFinite_native _⟩

lemma boundedAxis_none : BoundedAxis none := fun _ h => nomatch h

lemma isBounded_of_finiteDomain {α : Type} [SpanDomain α] [FiniteDomain α] (s : Span α) :
    isBounded s = true := by
  have hextent : BoundedAxis (some (ofSpan s)) := boundedAxis_ofSpan (some s)
  rw [isBounded_iff]
  simp [axes, hextent, boundedAxis_none]

def TBox.IsFinite (b : TBox) : Prop :=
  ∀ s ∈ b.span, Binary64.isFinite s.lower = true ∧ Binary64.isFinite s.upper = true

lemma isBounded_of_isFinite {b : TBox} (h : b.IsFinite) : isBounded b = true := by
  have hvalue : BoundedAxis (b.span.map ofSpan) := by
    intro e he
    obtain ⟨s, hs, rfl⟩ := Option.map_eq_some_iff.mp he
    exact h s hs
  have htime : BoundedAxis (b.period.map ofSpan) := boundedAxis_ofSpan b.period
  rw [isBounded_iff]
  simp [axes, hvalue, htime, boundedAxis_none]

open BoxIndex in
/-- The index of spans of integers, dates and timestamps and the index of boxes of values and time
answer as a look at all their boxes does, although they compare bounds rounded to numbers first.
Boxes of values and time overlap where they touch in all extents that both have. -/
theorem search_is_scan :
    SearchesAsScan (Span Integer) (fun _ => True) Span.overlaps ∧
      SearchesAsScan (Span Bigint) (fun _ => True) Span.overlaps ∧
      SearchesAsScan (Span Date) (fun _ => True) Span.overlaps ∧
      SearchesAsScan Period (fun _ => True) Span.overlaps ∧
      SearchesAsScan TBox TBox.IsFinite TBox.meets ∧
      ∀ {a b : TBox}, a.Valid → b.Valid → (a.meets b = true ↔ a.Touches b) :=
  ⟨searchesAsScan fun s _ => isBounded_of_finiteDomain s,
    searchesAsScan fun s _ => isBounded_of_finiteDomain s,
    searchesAsScan fun s _ => isBounded_of_finiteDomain s,
    searchesAsScan fun s _ => isBounded_of_finiteDomain s,
    searchesAsScan fun _ h => isBounded_of_isFinite h, TBox.meets_iff_touches⟩

def only (n : Int) : Span Bigint := ⟨.clamp n, .clamp (n + 1), true, false⟩

/-- Integers that are equal as numbers are told apart. -/
theorem neighbours_told_apart :
    SpanDomain.native (only (2 ^ 60)).lower = SpanDomain.native (only (2 ^ 60 + 1)).lower ∧
      ∃ index next : BoxIndex (Span Bigint),
        BoxIndex.ofList [(only (2 ^ 60), .clamp 7), (only (2 ^ 60 + 1), .clamp 5)] = .ok index ∧
        (BoxIndex.insert (only (2 ^ 60 + 1)) (.clamp 3)).run.run index = (.ok (), next) ∧
        ∀ id : Bigint, id ∈ next.search (only (2 ^ 60 + 1)) ↔ id = .clamp 3 ∨ id = .clamp 5 := by
  obtain ⟨-, hbigints, -⟩ := search_is_scan
  have hload : BoxIndex.ofList [(only (2 ^ 60), .clamp 7), (only (2 ^ 60 + 1), .clamp 5)] =
      .ok ⟨[⟨only (2 ^ 60), .clamp 7⟩, ⟨only (2 ^ 60 + 1), .clamp 5⟩],
        some [true, false, false, false]⟩ := rfl
  have hinsert : (BoxIndex.insert (only (2 ^ 60 + 1)) (.clamp 3)).run.run
      ⟨[⟨only (2 ^ 60), .clamp 7⟩, ⟨only (2 ^ 60 + 1), .clamp 5⟩],
        some [true, false, false, false]⟩ =
      (.ok (), ⟨[⟨only (2 ^ 60 + 1), .clamp 3⟩, ⟨only (2 ^ 60), .clamp 7⟩,
        ⟨only (2 ^ 60 + 1), .clamp 5⟩], some [true, false, false, false]⟩) := rfl
  refine ⟨by decide, _, _, hload, hinsert, fun id => ?_⟩
  refine (hbigints.mem_search_iff hbigints.exact_scan
    ((BoxIndex.Built.loaded hload).inserted hinsert) _ trivial _).trans ?_
  constructor
  · rintro ⟨box, hmem, hover⟩
    simp only [List.mem_cons, Prod.mk.injEq, List.not_mem_nil, or_false] at hmem
    rcases hmem with ⟨rfl, rfl⟩ | ⟨rfl, rfl⟩ | ⟨rfl, rfl⟩
    · exact Or.inl rfl
    · exact absurd hover (by decide)
    · exact Or.inr rfl
  · rintro (rfl | rfl)
    · exact ⟨only (2 ^ 60 + 1), by simp, by decide⟩
    · exact ⟨only (2 ^ 60 + 1), by simp, by decide⟩

end TemporalAlgebra
