import TemporalAlgebra.Proofs.Temporal.WellFormed
import TemporalAlgebra.Temporal.InPlace

/-!
# Steps in place

Steps that change a value where it stands do the same as a computation of the value that takes its
place, if every step that can be refused comes before the first change. Appending an instant is of
this kind, whether memory is granted or not. Where the computation is given up, so are the steps,
whatever they leave.
-/
namespace TemporalAlgebra

lemma map_reported {α β : Type} (f : α → β) (r : Result α) :
    (reported r).map f = reported (r.map f) := by
  cases r <;> rfl

lemma map_bind_result {α β γ : Type} (f : β → γ) (r : Result α) (g : α → Result β) :
    (r >>= g).map f = r >>= fun a => (g a).map f := by
  cases r <;> rfl

namespace Edit

variable {σ τ ρ α β : Type}

lemma outcome_bind (steps : Edit σ α) (more : α → Edit σ β) (s : σ) :
    outcome (steps >>= more) s = match outcome steps s with
      | (.ok a, s') => outcome (more a) s'
      | (.error f, s') => (.error f, s') := by
  unfold outcome
  simp only [bind, ExceptT.bind, ExceptT.run, ExceptT.mk, StateT.bind, ExceptT.bindCont, StateT.run]
  rcases steps s with ⟨a | f, s'⟩ <;> rfl

lemma outcome_get_bind (more : σ → Edit σ β) (s : σ) :
    outcome (get >>= more) s = outcome (more s) s := rfl

lemma outcome_modify_bind (f : σ → σ) (more : Unit → Edit σ β) (s : σ) :
    outcome (modify f >>= more) s = outcome (more ()) (f s) := rfl

lemma outcome_result_bind (r : Result α) (more : α → Edit σ β) (s : σ) :
    outcome (do more (← (r : Result α))) s = match r with
      | .ok a => outcome (more a) s
      | .error f => (.error f, s) := by
  cases r <;> rfl

lemma outcome_reporting (steps : Edit σ α) (s : σ) :
    outcome (reporting steps) s = (reported (outcome steps s).1, (outcome steps s).2) := by
  unfold outcome
  simp only [reporting, tryCatch, tryCatchThe, MonadExceptOf.tryCatch, ExceptT.tryCatch,
    ExceptT.run, ExceptT.mk, bind, StateT.bind, StateT.run]
  rcases steps s with ⟨a | f, s'⟩ <;> rfl

/-- Steps do what a computation of the state that they leave does, or are refused the memory they
ask for. When they are refused the state is the one before them. They are given up with the
computation. -/
def Settles (memory : Memory) (steps : Edit σ α) (s : σ) (next : Result (α × σ)) : Prop :=
  (outcome steps s = match next with
    | .ok (a, s') => (.ok a, s')
    | .error f => (.error f, s)) ∨
  (∃ f, outcome steps s = (.error f, s) ∧ ∃ count refusal, memory count = .error refusal) ∨
  next = .error .aborted ∧ (outcome steps s).1 = .error .aborted

lemma Settles.of_error {memory : Memory} {steps : Edit σ α} {s s' : σ} {next : Result (α × σ)}
    {f : Failure} (h : Settles memory steps s next) (hdone : Completes next)
    (hrun : outcome steps s = (.error f, s')) : s' = s := by
  rcases h with h | ⟨g, h, -⟩ | ⟨habort, -⟩
  · rw [hrun] at h
    rcases next with e | ⟨a, t⟩
    · exact (Prod.mk.inj h).2
    · cases h
  · rw [hrun] at h
    exact (Prod.mk.inj h).2
  · exact absurd habort hdone

lemma Settles.of_ok {memory : Memory} {steps : Edit σ α} {s s' : σ} {next : Result (α × σ)}
    {a : α} (h : Settles memory steps s next) (hrun : outcome steps s = (.ok a, s')) :
    next = .ok (a, s') := by
  rcases h with h | ⟨g, h, -⟩ | ⟨-, h⟩
  · rw [hrun] at h
    rcases next with e | ⟨b, t⟩
    · cases h
    · obtain ⟨hb, rfl⟩ := Prod.mk.inj h
      obtain rfl := Except.ok.inj hb
      rfl
  · rw [hrun] at h
    cases h
  · rw [hrun] at h
    cases h

lemma outcome_within (put : σ → τ) (part : σ) (steps : Edit σ α) (s : τ) :
    outcome (within put part steps) s = match outcome steps part with
      | (.ok a, part) => (.ok (a, part), put part)
      | (.error f, part) => (.error f, put part) := rfl

lemma settles_of_ok {memory : Memory} {steps : Edit σ α} {s s' : σ} {a : α}
    (h : outcome steps s = (.ok a, s')) : Settles memory steps s (.ok (a, s')) := Or.inl h

lemma settles_result_bind {memory : Memory} {r : Result α} {more : α → Edit σ β} {s : σ}
    {next : α → Result (β × σ)} (h : ∀ a, r = .ok a → Settles memory (more a) s (next a)) :
    Settles memory (do more (← (r : Result α))) s (r >>= next) := by
  unfold Settles
  rw [outcome_result_bind]
  cases r with
  | error f => exact Or.inl rfl
  | ok a => exact h a rfl

lemma settles_put {memory : Memory} (r : Result τ) (put : τ → σ) (s : σ) :
    Settles memory (do set (put (← (r : Result τ)))) s (do return ((), put (← r))) :=
  settles_result_bind fun _ _ => settles_of_ok rfl

/-- Steps on a part settle for the whole, if the part is put back where it was. -/
lemma Settles.within {memory : Memory} {part : σ} {steps : Edit σ α} {s : τ} {r : Result ρ}
    {left : ρ → α × σ} (h : Settles memory steps part (r.map left)) (put : σ → τ)
    (hput : put part = s) :
    Settles memory (within put part steps) s (r.map fun x => (left x, put (left x).2)) := by
  subst hput
  unfold Settles
  rw [outcome_within]
  rcases h with h | ⟨f, h, hmemory⟩ | ⟨hnext, h⟩
  · rw [h]
    cases r <;> exact Or.inl rfl
  · rw [h]
    exact Or.inr (Or.inl ⟨f, rfl, hmemory⟩)
  · cases r with
    | ok x => cases hnext
    | error f =>
      obtain rfl : f = .aborted := Except.error.inj hnext
      refine Or.inr (Or.inr ⟨rfl, ?_⟩)
      generalize outcome steps part = left at h ⊢
      rcases left with ⟨f | a, t⟩
      · rw [Except.error.inj h]
      · cases h

lemma settles_get_bind {memory : Memory} {more : σ → Edit σ α} {s : σ} {next : Result (α × σ)} :
    Settles memory (get >>= more) s next ↔ Settles memory (more s) s next := Iff.rfl

lemma Settles.reporting {memory : Memory} {steps : Edit σ α} {s : σ} {next : Result (α × σ)}
    (h : Settles memory steps s next) : Settles memory (reporting steps) s (reported next) := by
  unfold Settles
  rw [outcome_reporting]
  rcases h with h | ⟨f, h, hmemory⟩ | ⟨rfl, h⟩
  · rw [h]
    cases next <;> exact Or.inl rfl
  · rw [h]
    exact Or.inr (Or.inl ⟨f.again, rfl, hmemory⟩)
  · rw [h]
    exact Or.inr (Or.inr ⟨rfl, rfl⟩)

lemma settles_aside {memory : Memory} {steps : Edit τ Unit} {t t' : τ} {s : σ}
    (h : Settles memory steps t (.ok ((), t'))) (put : τ → σ) :
    Settles memory (do set (put (← (aside steps t : Result τ)))) s (.ok ((), put t')) := by
  unfold Settles
  rw [outcome_result_bind]
  unfold aside
  rcases h with h | ⟨f, h, hmemory⟩ | ⟨hnext, -⟩
  · rw [h]
    exact Or.inl rfl
  · rw [h]
    exact Or.inr (Or.inl ⟨f, rfl, hmemory⟩)
  · cases hnext

lemma Settles.bind {memory : Memory} {steps : Edit σ α} {more : α → Edit σ β} {s : σ}
    {r : Result ρ} {left : ρ → α × σ} {last : ρ → Result (β × σ)}
    (h : Settles memory steps s (r.map left))
    (hmore : ∀ x, r = .ok x →
      (∃ b t, outcome (more (left x).1) (left x).2 = (.ok b, t) ∧ last x = .ok (b, t)) ∨
        ((left x).2 = s ∧ Settles memory (more (left x).1) s (last x)) ∨
        (outcome (more (left x).1) (left x).2).1 = .error .aborted ∧
          last x = .error .aborted) :
    Settles memory (steps >>= more) s (r >>= last) := by
  unfold Settles
  rw [outcome_bind]
  rcases h with h | ⟨f, h, hmemory⟩ | ⟨hnext, h⟩
  · rw [h]
    cases r with
    | error f => exact Or.inl rfl
    | ok x =>
      dsimp only [Except.map]
      rcases hmore x rfl with ⟨b, t, hrun, hlast⟩ | ⟨hsame, hsettles⟩ | ⟨hrun, hlast⟩
      · refine Or.inl ?_
        rw [hrun, bind_of_ok rfl, hlast]
      · rw [hsame, bind_of_ok rfl]
        exact hsettles
      · exact Or.inr (Or.inr ⟨hlast, hrun⟩)
  · rw [h]
    exact Or.inr (Or.inl ⟨f, rfl, hmemory⟩)
  · cases r with
    | ok x => cases hnext
    | error f =>
      obtain rfl : f = .aborted := Except.error.inj hnext
      refine Or.inr (Or.inr ⟨rfl, ?_⟩)
      generalize outcome steps s = left at h ⊢
      rcases left with ⟨f | a, t⟩
      · rw [Except.error.inj h]
      · cases h

end Edit

variable {V : Type} [TemporalValue V]

namespace Sequence

open Edit

lemma settles_reserving (memory : Memory) (capacity : Nat) (s : Sequence V) :
    Settles memory (reserving memory capacity) s (.ok ((), s.reserve capacity)) := by
  unfold reserving
  rw [settles_get_bind]
  by_cases hlt : s.instants.length < capacity
  · simp only [if_pos hlt]
    unfold Settles
    rw [outcome_result_bind]
    cases hm : memory (capacity - s.instants.length) with
    | error f => exact Or.inr (Or.inl ⟨f, rfl, _, f, hm⟩)
    | ok _ => exact Or.inl rfl
  · simp only [if_neg hlt]
    exact Or.inl rfl

lemma returns_last_extend (interp : Interpolation) (a i : Instant V) (rest : List (Instant V)) :
    Returns (fun found => found.getLastD a = i) (extend interp a i rest) := by
  fun_induction extend interp a i rest with
  | case1 a => exact Returns.ok rfl
  | case2 a m =>
    refine Returns.after fun dropped => Returns.ok ?_
    cases dropped <;> rfl
  | case3 a m n rest ih =>
    refine Returns.bind ih fun found hfound => Returns.ok ?_
    rw [List.getLastD_cons]
    exact hfound

lemma unrefused_extend (interp : Interpolation) (a i : Instant V) (rest : List (Instant V)) :
    Unrefused (extend interp a i rest) := by
  fun_induction extend interp a i rest with
  | case1 a => exact Unrefused.ok _
  | case2 a m => exact (unrefused_redundant interp a m i).bind fun _ _ => Unrefused.ok _
  | case3 a m n rest ih => exact ih.bind fun _ _ => Unrefused.ok _

/-- Room for one more instant. -/
def grown (s : Sequence V) (config : AppendConfig) : Sequence V :=
  if s.capacity ≤ s.instants.length then s.reserve (config.grow s.capacity) else s

lemma settles_growing (memory : Memory) (config : AppendConfig) (s : Sequence V) :
    Settles memory (growing memory config) s (.ok ((), s.grown config)) := by
  unfold growing grown
  rw [settles_get_bind]
  split
  · exact settles_reserving memory _ s
  · exact settles_of_ok rfl

lemma settles_pushing (memory : Memory) (i : Instant V) (config : AppendConfig)
    (s : Sequence V) : Settles memory (pushing memory i config) s
      ((s.push i config).map fun s => ((), s)) := by
  have hgrown : Settles memory (growing memory config) s
      ((.ok (s.grown config) : Result _).map fun s => ((), s)) := settles_growing memory config s
  suffices Settles memory (pushing memory i config) s
    ((.ok (s.grown config) : Result _) >>= fun _ => (s.push i config).map fun s => ((), s)) from
      this
  refine hgrown.bind fun x hx => ?_
  obtain rfl := Except.ok.inj hx
  have hrun : (s.grown config).interp = s.interp ∧ (s.grown config).first = s.first ∧
      (s.grown config).rest = s.rest := by
    unfold grown
    split <;> exact ⟨rfl, rfl, rfl⟩
  simp only [outcome_get_bind, outcome_modify_bind, outcome_result_bind, hrun]
  unfold push
  cases hext : extend s.interp s.first i s.rest with
  | error f =>
    obtain rfl := unrefused_extend _ _ _ _ f hext
    exact Or.inr (Or.inr ⟨rfl, rfl⟩)
  | ok rest =>
    have hlast := returns_last_extend _ _ _ _ rest hext
    refine Or.inl ⟨(), _, rfl, ?_⟩
    unfold grown period last
    by_cases hfull : s.capacity ≤ s.instants.length
    · simp only [if_pos hfull, reserve, hlast]
      rfl
    · simp only [if_neg hfull, hlast]
      rfl

/-- An instant is appended in place as it is to a sequence that is put in the place of the old
one. -/
lemma settles_appending (memory : Memory) (i : Instant V) (limits : GapLimits)
    (config : AppendConfig) (s : Sequence V) :
    Settles memory (appending memory i limits config) s
      ((s.append? i limits config).map fun found => (found.isSome, found.getD s)) := by
  unfold appending append?
  rw [settles_get_bind]
  split
  · exact Or.inl rfl
  split
  · unfold appendAtEnd
    split
    · cases require (i.value == s.last.value) (conflictError i.time) <;> exact Or.inl rfl
    · split
      · exact Or.inl rfl
      · split <;> exact Or.inl rfl
  split
  · exact Or.inl rfl
  · rw [map_bind_result]
    exact (settles_pushing memory i config s).bind fun s' _ => Or.inl ⟨true, s', rfl, rfl⟩

end Sequence

namespace SequenceSet

open Edit

lemma setLast_last (s : SequenceSet V) : s.setLast s.last = s := by
  obtain ⟨first, rest, box⟩ := s
  rcases List.eq_nil_or_concat' rest with rfl | ⟨before, x, rfl⟩
  · rfl
  · cases before with
    | nil => rfl
    | cons y before =>
      change (⟨first, ((y :: before) ++ [x]).dropLast ++ [((y :: before) ++ [x]).getLastD first],
        box⟩ : SequenceSet V) = _
      rw [List.dropLast_concat, List.getLastD_concat]

lemma last_setLast (s : SequenceSet V) (x : Sequence V) : (s.setLast x).last = x := by
  obtain ⟨first, rest, box⟩ := s
  cases rest with
  | nil => rfl
  | cons y rest => exact List.getLastD_concat

lemma last_continued (s : SequenceSet V) (x : Sequence V) : (s.continued x).last = x :=
  List.getLastD_concat

lemma enclosing_setLast (s : SequenceSet V) (x : Sequence V) :
    (s.setLast x).enclosing = s.replaceLast x none := by
  unfold enclosing
  rw [last_setLast]
  obtain ⟨first, rest, box⟩ := s
  cases rest <;> rfl

lemma enclosing_continued (s : SequenceSet V) (x : Sequence V) :
    (s.continued x).enclosing = s.replaceLast s.last (some x) := by
  unfold enclosing
  rw [last_continued]
  obtain ⟨first, rest, box⟩ := s
  rcases List.eq_nil_or_concat' rest with rfl | ⟨before, y, rfl⟩
  · rfl
  · have hrest : (before ++ [y]).dropLast ++ (before ++ [y]).getLastD first :: [x] =
        before ++ [y] ++ [x] := by
      rw [List.dropLast_concat, List.getLastD_concat, List.append_assoc, List.singleton_append]
    cases before with
    | nil => rfl
    | cons z before => exact congrArg (SequenceSet.mk first · _) hrest.symm

lemma settles_appending (memory : Memory) (i : Instant V) (limits : GapLimits)
    (config : AppendConfig) (s : SequenceSet V) :
    Settles memory (appending memory i limits config) s
      ((s.append i limits config).map fun s => ((), s)) := by
  have hlast := (Sequence.settles_appending memory i limits config s.last).within
    s.setLast s.setLast_last
  unfold append
  rw [map_bind_result]
  refine hlast.bind fun found _ => Or.inl ?_
  cases found with
  | some longer =>
    refine ⟨(), (s.setLast longer).enclosing, rfl, ?_⟩
    rw [enclosing_setLast]
    rfl
  | none =>
    refine ⟨(), ((s.setLast s.last).continued (.ofInstant i s.last.interp)).enclosing, rfl, ?_⟩
    rw [setLast_last, enclosing_continued]
    rfl

end SequenceSet

namespace Temporal

open Edit

lemma settles_pairing (memory : Memory) (first i : Instant V) (interp : Interpolation)
    (limits : GapLimits) (config : AppendConfig) :
    Settles memory (pairing memory first i interp limits config) (instant first)
      ((appendToInstant first i interp limits config).map fun v => ((), v)) := by
  unfold pairing appendToInstant
  split
  · exact Or.inl rfl
  split
  · cases require (i.value == first.value) (conflictError i.time) <;> exact Or.inl rfl
  split
  · rw [map_bind_result]
    refine settles_result_bind fun start _ => ?_
    rw [map_bind_result]
    exact settles_put (SequenceSet.make [start, .ofInstant i interp] false) sequenceSet _
  · rw [map_bind_result]
    refine settles_result_bind fun s _ => ?_
    exact settles_aside (Sequence.settles_reserving memory config.initialMaxcount s) sequence

/-- An instant is appended in place as it is to a value that is put in the place of the old one, or
refused for lack of memory. -/
theorem settles_appending (memory : Memory) (i : Instant V) (interp : Interpolation)
    (limits : GapLimits) (config : AppendConfig) (v : Temporal V) :
    Settles memory (appending memory i interp limits config) v
      ((v.appendInstant i interp limits config).map fun v => ((), v)) := by
  unfold appending appendInstant
  rw [map_reported]
  refine Settles.reporting ?_
  rw [settles_get_bind, map_bind_result]
  refine settles_result_bind fun _ _ => ?_
  cases v with
  | instant first => exact settles_pairing memory first i interp limits config
  | sequence s =>
    have hwithin := (Sequence.settles_appending memory i limits config s).within
      sequence rfl
    rw [map_bind_result]
    refine hwithin.bind fun found _ => ?_
    cases found with
    | some longer => exact Or.inl ⟨(), sequence longer, rfl, rfl⟩
    | none =>
      refine Or.inr (Or.inl ⟨rfl, ?_⟩)
      rw [map_bind_result]
      exact settles_put (SequenceSet.make [s, .ofInstant i s.interp] false) sequenceSet _
  | sequenceSet s =>
    have hwithin := (SequenceSet.settles_appending memory i limits config s).within
      sequenceSet rfl
    rw [map_bind_result]
    exact hwithin.bind fun found _ => Or.inl ⟨(), sequenceSet found, rfl, rfl⟩

end Temporal

end TemporalAlgebra
