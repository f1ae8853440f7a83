import TemporalAlgebra.Proofs.Aggregate.Stepping
import TemporalAlgebra.Proofs.SkipList.Refinement

/-!
# States in arenas

A state can be stored in place, with its pieces in an arena that a splice changes slot by slot. The
arena represents the skip list of the state, in the order of periods, which calls pieces equal that
overlap. So a stored state answers all that it is offered as the state does, and it shows the same
pieces. What it refuses changes no slot.
-/
namespace TemporalAlgebra

open Aggregator

/-- A state whose pieces are in an arena. Its own skip list is not looked at. -/
structure Stored (V : Type) [TemporalValue V] where
  state : Aggregator V
  arena : Arena (Sequence V)

variable {V : Type} [TemporalValue V]

namespace Aggregator

def mergePieces (s : Aggregator V) (interp : Interpolation) :
    List (Sequence V) → List (Sequence V) → Result (List (Sequence V)) :=
  if interp == .discrete then mergeInstants s.combine else mergeSequences s.combine s.crossings

lemma spliced_eq (s : Aggregator V) (interp : Interpolation) (pieces : List (Sequence V)) :
    s.spliced interp pieces = (do
      s.checkInterp interp
      let list ← s.list.splice pieces (s.mergePieces interp)
      return { s with list, interp := some interp }) := rfl

end Aggregator

namespace Stored

/-- Splice pieces into the arena, once their interpolation is checked. A refusal leaves the arena as
the splice left it. -/
def splice (interp : Interpolation) (pieces : List (Sequence V)) (site : Stored V) :
    Result Unit × Stored V :=
  match site.state.checkInterp interp with
  | .error f => (.error f, site)
  | .ok _ =>
    match (Arena.splice pieces (site.state.mergePieces interp)).run.run site.arena with
    | (.error f, arena) => (.error f, { site with arena })
    | (.ok _, arena) => (.ok (), ⟨{ site.state with interp := some interp }, arena⟩)

def reporting (answer : Result Unit × Stored V) : Result Unit × Stored V :=
  (reported answer.1, answer.2)

/-- Add a value without stretching it; a refusal is reported. -/
def add (v : Temporal V) (site : Stored V) : Result Unit × Stored V :=
  reporting (site.splice v.interp (ownPieces v))

/-- Add another stored state, whose pieces are taken out of its arena; a refusal is reported. -/
def merge (other site : Stored V) : Result Unit × Stored V :=
  match other.state.interp with
  | none => (.ok (), site)
  | some interp =>
    match (Arena.intoElements.run.run other.arena).1 with
    | .error f => (.error f.again, site)
    | .ok pieces => reporting (site.splice interp pieces)

def addEach : List (Temporal V) → Stored V → List (Result Unit) × Stored V
  | [], site => ([], site)
  | v :: rest, site =>
    let (answer, next) := site.add v
    let (answers, last) := addEach rest next
    (answer :: answers, last)

/-- A state is stored: all but its skip list as it is, and the skip list in the arena. -/
structure Holds (site : Stored V) (s : Aggregator V) : Prop where
  state_eq : { site.state with list := s.list } = s
  represents : ∃ row, site.arena.Represents row s.list

/-- A step on a stored state ends as one on the state does, and changes nothing where it is
refused. -/
structure Follows (answer : Result Unit × Stored V) (site : Stored V)
    (outcome : Result Unit × Aggregator V) : Prop where
  answer_eq : answer.1 = outcome.1
  holds : answer.2.Holds outcome.2
  unchanged : ∀ f, answer.1 = .error f → answer.2 = site

variable {site other : Stored V} {s t : Aggregator V}

lemma Holds.shows (h : site.Holds s) : site.arena.Shows s.pieces := by
  obtain ⟨row, hrow⟩ := h.represents
  exact Arena.Holds.shows ⟨row, s.list, hrow, rfl, rfl⟩

lemma Holds.follows_error (h : site.Holds s) (f : Failure) :
    Follows (.error f, site) site (.error f, s) := ⟨rfl, h, fun _ _ => rfl⟩

lemma Follows.reporting {answer : Result Unit × Stored V} {next : Result (Aggregator V)}
    (h : Follows answer site (settle s next)) :
    Follows (Stored.reporting answer) site (settle s (reported next)) := by
  obtain ⟨answer, after⟩ := answer
  cases next with
  | ok next =>
    obtain rfl : answer = .ok () := h.answer_eq
    exact ⟨rfl, h.holds, fun _ hf => nomatch hf⟩
  | error f =>
    obtain rfl : answer = .error f := h.answer_eq
    exact ⟨rfl, h.holds, fun _ _ => h.unchanged f rfl⟩

section

variable [LawfulValue V]

/-- A search for a piece that another search leads to leads to the same place. -/
lemma seek_again {interp : Interpolation} {list : SkipList (Sequence V)} (h : Row interp list)
    {p : Sequence V} {t : Tower (Sequence V)} (ht : t ∈ (list.seek p).head?) :
    list.seek t.value = list.seek p := by
  obtain ⟨rest, hrest⟩ := List.head?_eq_some_iff.mp ht
  have htowers := list.behind_append_seek p
  have hmem : t ∈ list.towers := by
    rw [← htowers, hrest]
    exact List.mem_append_right _ List.mem_cons_self
  have hwf : ∀ u ∈ list.towers, u.value.WellFormed := fun u hu =>
    h.kept.wellFormed _ (List.mem_map_of_mem hu)
  have hprecedes : ∀ u ∈ list.towers, (list.precedes u t.value = true ↔ u.value.Before t.value) := by
    intro u hu
    unfold SkipList.precedes
    rw [h.order_eq, beq_iff_eq]
    exact orderPieces_eq_lt_iff (hwf u hu) (hwf t hmem)
  have hrising := List.pairwise_map.mp h.kept.rising
  rw [← htowers, hrest, List.pairwise_append] at hrising
  refine (h.searchable (hwf t hmem)).seek_again ht (fun u hu => ?_) ?_
  · have hu' : u ∈ list.towers := by
      rw [← htowers]
      exact List.mem_append_left _ hu
    exact (hprecedes u hu').mpr (hrising.2.2 u hu t List.mem_cons_self)
  · rw [← Bool.not_eq_true, hprecedes t hmem]
    exact not_lt.mpr (hwf t hmem).lo_le_hi

/-- Pieces are spliced into the arena as into the skip list that it represents. -/
theorem Holds.splice (h : site.Holds s) (hrow : s.InRow) (interp : Interpolation)
    (pieces : List (Sequence V)) :
    Follows (site.splice interp pieces) site (settle s (s.spliced interp pieces)) := by
  have hcheck : site.state.checkInterp interp = s.checkInterp interp := by
    rw [← h.state_eq]
    rfl
  have hmerge : site.state.mergePieces interp = s.mergePieces interp := by
    rw [← h.state_eq]
    rfl
  unfold Stored.splice
  rw [spliced_eq, hcheck, hmerge]
  cases hc : s.checkInterp interp with
  | error f => exact h.follows_error f
  | ok u =>
    obtain ⟨row, hrep⟩ := h.represents
    have hkept := hrow interp (checkInterp_eq_ok_iff.mp hc)
    have hstep := Arena.splice_spec hrep pieces (s.mergePieces interp) fun _ _ _ ht =>
      seek_again hkept ht
    cases hlist : s.list.splice pieces (s.mergePieces interp) with
    | error f =>
      rw [hlist] at hstep
      have hrun : (Arena.splice pieces (s.mergePieces interp)).run.run site.arena =
          (.error f, site.arena) := hstep
      dsimp only
      rw [hrun]
      exact h.follows_error f
    | ok list =>
      rw [hlist] at hstep
      obtain ⟨arena, row', hrun, hrep'⟩ := hstep
      have hrun' : (Arena.splice pieces (s.mergePieces interp)).run.run site.arena =
          (.ok (), arena) := hrun
      dsimp only
      rw [hrun']
      refine ⟨rfl, ⟨?_, row', hrep'⟩, fun _ hf => nomatch hf⟩
      change { site.state with list, interp := some interp } = { s with list, interp := some interp }
      rw [← h.state_eq]

omit [LawfulValue V] in
lemma added_eq (hw : s.window = none) (v : Temporal V) :
    s.added v = s.spliced v.interp (ownPieces v) := by
  unfold added
  rw [hw]

/-- A value is added to a stored state as to the state. -/
theorem Holds.add (h : site.Holds s) (hrow : s.InRow) (hw : s.window = none) (v : Temporal V) :
    Follows (site.add v) site (outcome (Aggregator.add v) s) := by
  rw [outcome_add, added_eq hw]
  exact (h.splice hrow _ _).reporting

/-- A stored state is merged with another one as the states are. -/
theorem Holds.merge (h : site.Holds s) (hrow : s.InRow) (ho : other.Holds t) :
    Follows (other.merge site) site (outcome (Aggregator.merge t) s) := by
  have hinterp : other.state.interp = t.interp := by
    rw [← ho.state_eq]
  rw [outcome_merge]
  unfold Stored.merge merged
  rw [hinterp]
  cases hi : t.interp with
  | none => exact ⟨rfl, h, fun _ hf => nomatch hf⟩
  | some interp =>
    dsimp only
    rw [ho.shows.intoElements_eq]
    exact (h.splice hrow _ _).reporting

end

/-- Values are added to a stored state one after the other as they are to the state: each of them
ends in the same way, and the state after the last one is stored. -/
theorem Holds.addEach [StepValue V] (h : site.Holds s) (hrow : s.InRow) (hw : s.window = none)
    {values : List (Temporal V)} (hwf : ∀ v ∈ values, v.WellFormed) :
    (site.addEach values).1 = (replay (values.map Aggregator.add) s).1 ∧
      (site.addEach values).2.Holds (replay (values.map Aggregator.add) s).2 := by
  induction values generalizing site s with
  | nil => exact ⟨rfl, h⟩
  | cons v rest ih =>
    obtain ⟨hv, hrest⟩ := List.forall_mem_cons.mp hwf
    obtain ⟨hanswer, hholds, -⟩ := h.add hrow hw v
    have hkeeps : (outcome (Aggregator.add v) s).2.InRow ∧
        (outcome (Aggregator.add v) s).2.window = none := by
      rw [outcome_add, added_eq hw]
      cases hnext : s.spliced v.interp (ownPieces v) with
      | error f => exact ⟨hrow, hw⟩
      | ok next =>
        obtain ⟨-, hwindow, -⟩ := spliced_spec hrow (kept_ownPieces hv) hnext
        exact ⟨hrow.spliced (kept_ownPieces hv) hnext, hwindow.trans hw⟩
    obtain ⟨hanswers, hlast⟩ := ih hholds hkeeps.1 hkeeps.2 hrest
    exact ⟨congrArg₂ List.cons hanswer hanswers, hlast⟩

def empty (start : Aggregator V) (maxLevel : Nat) (heights : Nat → Nat) : Stored V :=
  ⟨start, .ofHeights orderPieces maxLevel heights⟩

lemma holds_empty (start : Aggregator V) (maxLevel : Nat) (heights : Nat → Nat) :
    (empty start maxLevel heights).Holds
      { start with list := .ofHeights orderPieces maxLevel heights } :=
  ⟨rfl, [], Arena.represents_ofHeights ..⟩

/-- From the empty arena on, whatever values are added to a state in place end as they do on the
state, and the arena shows its pieces. -/
theorem added_in_place [StepValue V] {start : Aggregator V} (hw : start.window = none)
    (maxLevel : Nat) (heights : Nat → Nat) {values : List (Temporal V)}
    (hwf : ∀ v ∈ values, v.WellFormed) :
    let given := replay (values.map Aggregator.add)
      { start with list := .ofHeights orderPieces maxLevel heights }
    let stored := (empty start maxLevel heights).addEach values
    stored.1 = given.1 ∧ stored.2.Holds given.2 ∧ stored.2.arena.Shows given.2.pieces := by
  obtain ⟨hanswers, hholds⟩ := (holds_empty start maxLevel heights).addEach
    (inRow_empty start maxLevel heights) hw hwf
  exact ⟨hanswers, hholds, hholds.shows⟩

end Stored

end TemporalAlgebra
