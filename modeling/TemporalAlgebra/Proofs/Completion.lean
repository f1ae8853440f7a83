import TemporalAlgebra.Proofs.Outcome

/-!
# Computations that are not given up

A computation completes if it ends with a value or with a refusal. One that is made of steps is
given up at the first step that is. One that is never refused ends with a value if it completes.
-/
namespace TemporalAlgebra

variable {α β : Type}

/-- A computation ends with a value or with a refusal: it is not given up. -/
def Completes (r : Result α) : Prop := r ≠ .error .aborted

lemma bind_eq_aborted {r : Result α} {f : α → Result β} :
    (r >>= f) = .error .aborted ↔ r = .error .aborted ∨ ∃ a, r = .ok a ∧ f a = .error .aborted := by
  cases r with
  | error e => simp [bind, Except.bind]
  | ok a => simp [bind, Except.bind]

lemma bind_eq_aborted_iff {r : Result α} {f : α → Result β}
    (hf : ∀ a, r = .ok a → Completes (f a)) :
    (r >>= f) = .error .aborted ↔ r = .error .aborted := by
  rw [bind_eq_aborted]
  exact or_iff_left fun ⟨a, ha, h⟩ => hf a ha h

@[simp] lemma reported_eq_aborted {r : Result α} :
    reported r = .error .aborted ↔ r = .error .aborted := by
  rcases r with (_ | _) | _ <;> simp [reported, Failure.again]

lemma completes_reported {r : Result α} : Completes (reported r) ↔ Completes r :=
  not_congr reported_eq_aborted

lemma orAbort_eq_aborted {found : Option α} : orAbort found = .error .aborted ↔ found = none := by
  cases found <;> simp [orAbort]

lemma Silent.completes {r : Result α} (h : Silent r) : Completes r := by
  intro heq
  obtain ⟨cause, hcause⟩ := h _ heq
  exact Failure.noConfusion hcause

namespace Completes

lemma ok (a : α) : Completes (.ok a) := fun h => nomatch h

lemma refuse (cause : Error) : Completes (refuse cause : Result α) :=
  (Silent.refuse cause).completes

lemma require (condition : Bool) (cause : Error) : Completes (require condition cause) :=
  (Silent.require condition cause).completes

lemma orRefuse (found : Option α) (cause : Error) : Completes (orRefuse found cause) :=
  (Silent.orRefuse found cause).completes

lemma bind {r : Result α} {f : α → Result β} (hr : Completes r)
    (hf : ∀ a, r = .ok a → Completes (f a)) : Completes (r >>= f) := by
  unfold Completes
  rwa [Ne, bind_eq_aborted_iff hf]

lemma refuse_bind (cause : Error) (f : α → Result β) :
    Completes (TemporalAlgebra.refuse cause >>= f) :=
  (refuse cause).bind fun _ h => absurd h refuse_ne_ok

lemma map {r : Result α} (f : α → β) (h : Completes r) : Completes (f <$> r) := by
  rw [map_eq_pure_bind]
  exact h.bind fun _ _ => ok _

lemma mapM {f : α → Result β} {as : List α} (h : ∀ a ∈ as, Completes (f a)) :
    Completes (as.mapM f) := by
  induction as with
  | nil => exact ok []
  | cons a as ih =>
    rw [List.forall_mem_cons] at h
    rw [List.mapM_cons]
    exact h.1.bind fun _ _ => (ih h.2).bind fun _ _ => ok _

lemma of_eq_ok {r : Result α} {a : α} (h : r = .ok a) : Completes r := by
  rw [h]
  exact ok a

lemma left {r : Result α} {f : α → Result β} (h : Completes (r >>= f)) : Completes r :=
  fun hr => h (bind_eq_aborted.mpr (.inl hr))

lemma right {r : Result α} {f : α → Result β} {a : α} (h : Completes (r >>= f))
    (hr : r = .ok a) : Completes (f a) := fun hf => h (bind_eq_aborted.mpr (.inr ⟨a, hr, hf⟩))

/-- If each step ends with a value unless it is given up, then so do all of them together. -/
lemma exists_mapM {f : α → Result β} {p : α → β → Prop} {as : List α}
    (h : ∀ a ∈ as, Completes (f a) → ∃ b, f a = .ok b ∧ p a b)
    (hdone : Completes (as.mapM f)) : ∃ bs, as.mapM f = .ok bs ∧ List.Forall₂ p as bs := by
  induction as with
  | nil => exact ⟨[], rfl, .nil⟩
  | cons a as ih =>
    rw [List.forall_mem_cons] at h
    rw [List.mapM_cons] at hdone ⊢
    obtain ⟨b, hb, hp⟩ := h.1 hdone.left
    obtain ⟨bs, hbs, hps⟩ := ih h.2 (hdone.right hb).left
    exact ⟨b :: bs, by rw [bind_of_ok hb, bind_of_ok hbs]; rfl, .cons hp hps⟩

end Completes

/-- A computation ends with a value or is given up. -/
def Unrefused (r : Result α) : Prop := ∀ f, r = .error f → f = .aborted

namespace Unrefused

lemma ok (a : α) : Unrefused (.ok a) := fun _ h => nomatch h

lemma orAbort (found : Option α) : Unrefused (orAbort found) := by
  cases found with
  | some a => exact ok a
  | none => exact fun _ h => (Except.error.inj h).symm

lemma bind {r : Result α} {f : α → Result β} (hr : Unrefused r)
    (hf : ∀ a, r = .ok a → Unrefused (f a)) : Unrefused (r >>= f) := by
  cases r with
  | ok a => exact hf a rfl
  | error e =>
    rw [hr e rfl]
    exact fun _ h => (Except.error.inj h).symm

lemma exists_ok {r : Result α} (h : Unrefused r) (hr : Completes r) : ∃ a, r = .ok a := by
  cases r with
  | ok a => exact ⟨a, rfl⟩
  | error e => exact absurd (congrArg _ (h e rfl)) hr

lemma of_exists {r : Result α} (h : Completes r → ∃ a, r = .ok a) : Unrefused r := by
  intro f hf
  by_contra hne
  obtain ⟨a, ha⟩ := h fun haborted => hne (Except.error.inj (hf.symm.trans haborted))
  rw [hf] at ha
  cases ha

lemma reported {r : Result α} (h : Unrefused r) : Unrefused (TemporalAlgebra.reported r) := by
  refine of_exists fun hdone => ?_
  obtain ⟨a, ha⟩ := h.exists_ok (completes_reported.mp hdone)
  exact ⟨a, reported_eq_ok.mpr ha⟩

lemma mapM {f : α → Result β} {as : List α} (h : ∀ a ∈ as, Unrefused (f a)) :
    Unrefused (as.mapM f) := by
  intro e he
  obtain ⟨a, ha, hae⟩ := mapM_eq_error he
  exact h a ha e hae

end Unrefused

end TemporalAlgebra
