import TemporalAlgebra.Proofs.Aggregate.Storage
import TemporalAlgebra.Proofs.Aggregate.Windows

/-!
# Refusals leave no trace

A step that is refused leaves the state of an aggregate as it was, also when some pieces of a value
had been spliced in before another one was refused. A run of steps goes as it would if those that
are refused had never been offered.
-/
namespace TemporalAlgebra

namespace Aggregator

/-- The steps by which values and other states go into a state. -/
inductive Offered : ∀ {V : Type} [TemporalValue V], Aggregation V Unit → Prop
  | add {V : Type} [TemporalValue V] (v : Temporal V) : Offered (Aggregator.add v)
  | addCount {W : Type} [TemporalValue W] (v : Temporal W) : Offered (Aggregator.addCount v)
  | addAverage {W : Type} [NumericValue W] (v : Temporal W) : Offered (Aggregator.addAverage v)
  | merge {V : Type} [TemporalValue V] (other : Aggregator V) : Offered (Aggregator.merge other)

variable {V : Type} [TemporalValue V]

lemma Offered.outcome_eq {step : Aggregation V Unit} (h : Offered step) (s : Aggregator V) :
    ∃ next, outcome step s = settle s next := by
  cases h with
  | add v => exact ⟨_, outcome_add v s⟩
  | merge other => exact ⟨_, outcome_merge other s⟩
  | addCount v =>
    have hrun := outcome_bind_result (v.constantLike (Signed.clamp 1 : Integer)) Aggregator.add s
    refine ⟨do reported (s.added (← v.constantLike (Signed.clamp 1 : Integer))), hrun.trans ?_⟩
    cases v.constantLike (Signed.clamp 1 : Integer) with
    | error f => rfl
    | ok ones => exact outcome_add ones s
  | addAverage v =>
    generalize hpairs : (reported (v.mapValues fun x => .ok ⟨NumericValue.toFloat x, 1.0⟩) :
      Result (Temporal Pair)) = pairs
    have hrun := outcome_bind_result pairs Aggregator.add s
    rw [← hpairs] at hrun
    refine ⟨do reported (s.added (← pairs)), hrun.trans ?_⟩
    rw [hpairs]
    cases pairs with
    | error f => rfl
    | ok pairs => exact outcome_add pairs s

lemma Offered.eq_of_refused {step : Aggregation V Unit} (h : Offered step) {s s' : Aggregator V}
    {f : Failure} (hrefused : outcome step s = (.error f, s')) : s' = s := by
  obtain ⟨next, hnext⟩ := h.outcome_eq s
  rw [hnext] at hrefused
  cases next with
  | error e => exact ((Prod.mk.inj hrefused).2).symm
  | ok next => cases (Prod.mk.inj hrefused).1

/-- The steps of a run that are not refused. -/
def accepted : List (Aggregation V Unit) → Aggregator V → List (Aggregation V Unit)
  | [], _ => []
  | step :: rest, s =>
    match outcome step s with
    | (.ok _, next) => step :: accepted rest next
    | (.error _, next) => accepted rest next

lemma replay_accepted {steps : List (Aggregation V Unit)} (h : ∀ step ∈ steps, Offered step)
    (s : Aggregator V) :
    replay (accepted steps s) s =
      ((replay steps s).1.filter fun answer => answer.isOk, (replay steps s).2) := by
  induction steps generalizing s with
  | nil => rfl
  | cons step rest ih =>
    have hrest := fun s => ih (fun step hstep => h step (by simp [hstep])) s
    rw [accepted, replay]
    rcases hstep : outcome step s with ⟨f | u, next⟩
    · obtain rfl := (h step (by simp)).eq_of_refused hstep
      rw [hrest]
      rfl
    · dsimp only
      rw [replay, hstep]
      dsimp only
      rw [hrest]
      rfl

/-- A step that is refused leaves no trace: the state has the same periods and pieces as before,
ends with the same value and goes through all later steps in the same way. So a run goes like that
of its steps that are not refused. Where the pieces are stored in an arena, a splice ends as it does
on the state, and changes no slot if it is refused. -/
theorem refusals_leave_no_trace (s : Aggregator V) :
    (∀ {step : Aggregation V Unit} {f : Failure} {s' : Aggregator V}, Offered step →
      outcome step s = (.error f, s') →
        s'.periods = s.periods ∧ s'.pieces = s.pieces ∧ s'.finish = s.finish ∧
          ∀ later, replay later s' = replay later s) ∧
    (∀ {steps : List (Aggregation V Unit)}, (∀ step ∈ steps, Offered step) →
      replay (accepted steps s) s =
        ((replay steps s).1.filter fun answer => answer.isOk, (replay steps s).2)) ∧
    ∀ [LawfulValue V] {site : Stored V}, site.Holds s → s.InRow → ∀ interp pieces,
      Stored.Follows (site.splice interp pieces) site (settle s (s.spliced interp pieces)) := by
  refine ⟨fun {step f s'} hstep hrefused => ?_, fun hsteps => replay_accepted hsteps s,
    fun hsite hrow interp pieces => hsite.splice hrow interp pieces⟩
  obtain rfl := hstep.eq_of_refused hrefused
  exact ⟨rfl, rfl, rfl, fun _ => rfl⟩

/-- Two instants so close that a window of five microseconds sees both, with a sum out of range. -/
def surge : Temporal Integer :=
  .sequence (.ofRun ⟨.clamp 1, .nearest 20⟩ [⟨.maximum, .nearest 21⟩] true true .discrete)

lemma surge_wellFormed : surge.WellFormed := by
  change Sequence.check _ _ _ _ _ = _
  rfl

/-- The surge is refused by a sum over a window of five microseconds that holds the sevens. -/
lemma exists_refused_surge {s : Aggregator Integer} (h : Reached shortSum add s [sevens]) :
    ∃ f s', outcome (add surge) s = (.error f, s') := by
  rcases hout : outcome (add surge) s with ⟨f | u, s'⟩
  · exact ⟨f, s', rfl⟩
  · obtain ⟨found, -, htrails⟩ := (h.offer hout).trails (by decide) totals_sum rfl (.refl _)
      (by simp [sevens_wellFormed, surge_wellFormed])
    obtain ⟨x, hx⟩ := (htrails.defined_iff (.nearest 21)).mpr
      ⟨surge, by simp, _, List.mem_cons_self, by decide⟩
    have hover : x.val = 2 ^ 31 := htrails.total_of_eq_some _ x hx
    exact absurd x.upper (by rw [hover]; decide)

/-- What a sum over a window holds is still there after a surge, which is refused for its second
instant. -/
theorem surge_leaves_no_trace : ∃ s f s', Reached shortSum add s [sevens] ∧
    outcome (add surge) s = (.error f, s') ∧ s'.pieces = s.pieces ∧ s'.finish = s.finish ∧
      replay (accepted [add surge, add sevens] s) s =
        ((replay [add surge, add sevens] s).1.filter fun answer => answer.isOk,
          (replay [add surge, add sevens] s).2) := by
  obtain ⟨s, hs⟩ := exists_added_sevens
  obtain ⟨f, s', hrefused⟩ := exists_refused_surge ((Reached.empty _ _).offer hs)
  obtain ⟨hsame, hreplay, -⟩ := refusals_leave_no_trace s
  obtain ⟨-, hpieces, hfinish, -⟩ := hsame (.add surge) hrefused
  exact ⟨s, f, s', (Reached.empty _ _).offer hs, hrefused, hpieces, hfinish, hreplay
    (List.forall_mem_cons.mpr ⟨.add surge, List.forall_mem_singleton.mpr (.add sevens)⟩)⟩

end Aggregator

end TemporalAlgebra
