import TemporalAlgebra.Proofs.Aggregate.Folding

/-!
# Steps of an aggregate

Every step that changes the state of an aggregate computes the next state from the one before. A
value that is stretched is spliced in piece by piece; where a piece is refused the state goes back
to the one before the value.
-/
namespace TemporalAlgebra

namespace Aggregator

variable {V : Type} [TemporalValue V]

def settle (s : Aggregator V) : Result (Aggregator V) → Result Unit × Aggregator V
  | .ok next => (.ok (), next)
  | .error f => (.error f, s)

lemma settle_eq_ok_iff {s s' : Aggregator V} {next : Result (Aggregator V)} :
    settle s next = (.ok (), s') ↔ next = .ok s' := by
  cases next <;> simp [settle]

/-- Take steps one after the other: how each of them ends, and the state after the last one. -/
def replay : List (Aggregation V Unit) → Aggregator V → List (Result Unit) × Aggregator V
  | [], s => ([], s)
  | step :: rest, s =>
    let (answer, next) := outcome step s
    let (answers, last) := replay rest next
    (answer :: answers, last)

lemma outcome_set (next : Result (Aggregator V)) (s : Aggregator V) :
    outcome (do set (← (next : Result _))) s = settle s next := by
  cases next <;> rfl

lemma outcome_bind (step : Aggregation V Unit) (more : Unit → Aggregation V Unit)
    (s : Aggregator V) :
    outcome (step >>= more) s = match outcome step s with
      | (.ok u, s') => outcome (more u) s'
      | (.error f, s') => (.error f, s') := by
  unfold outcome
  simp only [bind, ExceptT.bind, ExceptT.run, ExceptT.mk, StateT.bind, ExceptT.bindCont]
  rcases step s with ⟨u | f, s'⟩ <;> rfl

lemma outcome_bind_result {α : Type} (r : Result α) (more : α → Aggregation V Unit)
    (s : Aggregator V) :
    outcome (do more (← (r : Result α))) s = match r with
      | .ok a => outcome (more a) s
      | .error f => (.error f, s) := by
  cases r <;> rfl

lemma outcome_tryCatch (step : Aggregation V Unit) (rescue : Failure → Aggregation V Unit)
    (s : Aggregator V) :
    outcome (tryCatch step rescue) s = match outcome step s with
      | (.ok u, s') => (.ok u, s')
      | (.error f, s') => outcome (rescue f) s' := by
  unfold outcome
  simp only [tryCatch, tryCatchThe, MonadExceptOf.tryCatch, ExceptT.tryCatch, ExceptT.run,
    ExceptT.mk, bind, StateT.bind]
  rcases step s with ⟨u | f, s'⟩ <;> rfl

lemma outcome_reporting_of_settle {step : Aggregation V Unit} {s : Aggregator V}
    {next : Result (Aggregator V)} (h : outcome step s = settle s next) :
    outcome (reporting step) s = settle s (reported next) := by
  rw [outcome_reporting, h]
  cases next <;> rfl

def spliceOne (piece : Sequence V) : Aggregation V Unit := do
  set (← (← get).spliced piece.interp [piece])

lemma outcome_spliceOne (piece : Sequence V) (s : Aggregator V) :
    outcome (spliceOne piece) s = settle s (s.spliced piece.interp [piece]) :=
  outcome_set (s.spliced piece.interp [piece]) s

def splicedEach (s : Aggregator V) (pieces : List (Sequence V)) : Result (Aggregator V) :=
  pieces.foldlM (fun a piece => a.spliced piece.interp [piece]) s

lemma spliced_frame {s s' : Aggregator V} {interp : Interpolation} {pieces : List (Sequence V)}
    (h : s.spliced interp pieces = .ok s') :
    s' = { s with list := s'.list, interp := s'.interp } := by
  unfold spliced at h
  rw [check_bind_eq_ok] at h
  simp only [bind_eq_ok, pure_eq_ok] at h
  obtain ⟨-, list, -, rfl⟩ := h
  rfl

/-- Pieces are spliced in one by one until one of them is refused. What was spliced in by then
changed nothing but the pieces and their interpolation. -/
lemma outcome_forM_spliceOne (pieces : List (Sequence V)) (s : Aggregator V) :
    ∃ s', s' = { s with list := s'.list, interp := s'.interp } ∧
      outcome (pieces.forM spliceOne) s = match s.splicedEach pieces with
        | .ok next => (.ok (), next)
        | .error f => (.error f, s') := by
  induction pieces generalizing s with
  | nil => exact ⟨s, rfl, rfl⟩
  | cons piece rest ih =>
    have hfold : s.splicedEach (piece :: rest) =
        s.spliced piece.interp [piece] >>= fun next => next.splicedEach rest := List.foldlM_cons
    have hrun : outcome ((piece :: rest).forM spliceOne) s =
        outcome (spliceOne piece >>= fun _ => rest.forM spliceOne) s := rfl
    rw [hrun, outcome_bind, outcome_spliceOne, hfold]
    cases h : s.spliced piece.interp [piece] with
    | error f => exact ⟨s, rfl, rfl⟩
    | ok next =>
      obtain ⟨s', hframe, hrest⟩ := ih next
      refine ⟨s', ?_, hrest⟩
      rw [hframe, spliced_frame h]

def stretchedPieces (s : Aggregator V) (v : Temporal V) (w : Window) :
    Result (List (Sequence V)) := do
  let pieces ← v.sequences.mapM
    (stretchSequence w (if s.interp = some .linear then .linear else .step))
  return pieces.flatten

def added (s : Aggregator V) (v : Temporal V) : Result (Aggregator V) :=
  match s.window with
  | some w => do s.splicedEach (← s.stretchedPieces v w)
  | none => s.spliced v.interp (ownPieces v)

def merged (s other : Aggregator V) : Result (Aggregator V) :=
  match other.interp with
  | none => .ok s
  | some interp => s.spliced interp other.pieces

/-- A value that is stretched goes into the state as a whole or not at all. -/
theorem outcome_addStretched (v : Temporal V) (w : Window) (s : Aggregator V) :
    outcome (addStretched v w) s =
      settle s (do s.splicedEach (← s.stretchedPieces v w)) := by
  have hrun : outcome (addStretched v w) s = outcome (do
      let pieces ← (v.sequences.mapM (stretchSequence w
        (if s.interp = some .linear then .linear else .step)) : Result _)
      tryCatch (pieces.flatten.forM spliceOne) fun f => do
        modify fun a => { a with list := s.list, interp := s.interp }
        throw f) s := rfl
  rw [hrun, outcome_bind_result]
  unfold stretchedPieces
  cases v.sequences.mapM (stretchSequence w
    (if s.interp = some .linear then .linear else .step)) with
  | error f => rfl
  | ok pieces =>
    obtain ⟨s', hframe, hpieces⟩ := outcome_forM_spliceOne pieces.flatten s
    have hnext : (do s.splicedEach (← (do return (← (.ok pieces : Result _)).flatten))) =
        s.splicedEach pieces.flatten := rfl
    rw [hnext]
    dsimp only
    rw [outcome_tryCatch, hpieces]
    cases s.splicedEach pieces.flatten with
    | ok next => rfl
    | error f =>
      have hback : { s' with list := s.list, interp := s.interp } = s := by
        obtain ⟨list, combine, crossings, interp, window⟩ := s'
        cases hframe
        rfl
      exact congrArg (Prod.mk _) hback

theorem outcome_add (v : Temporal V) (s : Aggregator V) :
    outcome (add v) s = settle s (reported (s.added v)) := by
  refine outcome_reporting_of_settle ?_
  change outcome (match s.window with
    | some w => addStretched v w
    | none => addWhole v) s = _
  unfold added
  cases s.window with
  | some w => exact outcome_addStretched v w s
  | none => exact outcome_set (s.spliced v.interp (ownPieces v)) s

theorem outcome_merge (other s : Aggregator V) :
    outcome (merge other) s = settle s (reported (s.merged other)) := by
  refine outcome_reporting_of_settle ?_
  obtain ⟨list, combine, crossings, interp, window⟩ := other
  cases interp with
  | none => rfl
  | some interp => exact outcome_set _ _

end Aggregator

end TemporalAlgebra
