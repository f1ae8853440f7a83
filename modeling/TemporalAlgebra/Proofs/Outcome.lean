import Mathlib.Data.List.Forall2
import Mathlib.Tactic.Common
import TemporalAlgebra.Error

/-!
# Outcomes that are no refusal

When a computation in `Result` ends with a value: each step of it does. What it returns has a
property if every step keeps to it.
-/
namespace TemporalAlgebra

variable {α β : Type}

lemma bind_of_ok {ε : Type} {r : Except ε α} {f : α → Except ε β} {a : α} (h : r = .ok a) :
    (r >>= f) = f a := by
  rw [h]
  rfl

lemma bind_of_error {ε : Type} {r : Except ε α} {f : α → Except ε β} {e : ε} (h : r = .error e) :
    (r >>= f) = .error e := by
  rw [h]
  rfl

@[simp] lemma bind_eq_ok {r : Result α} {f : α → Result β} {b : β} :
    (r >>= f) = .ok b ↔ ∃ a, r = .ok a ∧ f a = .ok b := by
  cases r with
  | error e => simp [bind, Except.bind]
  | ok a => simp [bind, Except.bind]

lemma check_bind_eq_ok {r : Result Unit} {f : Unit → Result β} {b : β} :
    (r >>= f) = .ok b ↔ r = .ok () ∧ f () = .ok b := by
  rw [bind_eq_ok]
  exact ⟨fun ⟨_, h⟩ => h, fun h => ⟨(), h⟩⟩

@[simp] lemma pure_eq_ok {a b : α} : (pure a : Result α) = .ok b ↔ a = b := by
  simp [pure, Except.pure]

@[simp] lemma refuse_ne_ok {cause : Error} {a : α} : (refuse cause : Result α) ≠ .ok a := by
  simp [refuse]

@[simp] lemma require_eq_ok {condition : Bool} {cause : Error} {u : Unit} :
    require condition cause = .ok u ↔ condition = true := by
  cases condition <;> simp [require, refuse]

@[simp] lemma orRefuse_eq_ok {found : Option α} {cause : Error} {a : α} :
    orRefuse found cause = .ok a ↔ found = some a := by
  cases found <;> simp [orRefuse, refuse]

@[simp] lemma orAbort_eq_ok {found : Option α} {a : α} : orAbort found = .ok a ↔ found = some a := by
  cases found <;> simp [orAbort]

@[simp] lemma map_eq_ok {r : Result α} {f : α → β} {b : β} :
    f <$> r = .ok b ↔ ∃ a, r = .ok a ∧ f a = b := by
  cases r <;> simp [Functor.map, Except.map]

lemma map_eq_error {r : Result α} {f : α → β} {e : Failure} :
    f <$> r = .error e ↔ r = .error e := by
  cases r <;> simp [Functor.map, Except.map]

lemma mapM_eq_ok {f : α → Result β} {as : List α} {bs : List β} :
    as.mapM f = .ok bs ↔ List.Forall₂ (fun a b => f a = .ok b) as bs := by
  induction as generalizing bs with
  | nil =>
    rw [List.mapM_nil, pure_eq_ok, List.forall₂_nil_left_iff]
    exact eq_comm
  | cons a as ih =>
    rw [List.mapM_cons, List.forall₂_cons_left_iff]
    simp only [bind_eq_ok, pure_eq_ok, ih]
    constructor
    · rintro ⟨b, hb, cs, hcs, rfl⟩
      exact ⟨b, cs, hb, hcs, rfl⟩
    · rintro ⟨b, cs, hb, hcs, rfl⟩
      exact ⟨b, hb, cs, hcs, rfl⟩

lemma mapM_eq_error {f : α → Result β} {as : List α} {e : Failure} (h : as.mapM f = .error e) :
    ∃ a ∈ as, f a = .error e := by
  induction as with
  | nil => cases h
  | cons a as ih =>
    rw [List.mapM_cons] at h
    cases ha : f a with
    | error e' =>
      rw [bind_of_error ha] at h
      exact ⟨a, by simp, ha.trans (congrArg _ (Except.error.inj h))⟩
    | ok b =>
      rw [bind_of_ok ha] at h
      cases has : as.mapM f with
      | error e' =>
        rw [bind_of_error has] at h
        obtain ⟨x, hx, hfx⟩ := ih (has.trans (congrArg _ (Except.error.inj h)))
        exact ⟨x, by simp [hx], hfx⟩
      | ok bs =>
        rw [bind_of_ok has] at h
        cases h

lemma mapM_eq_map {f : α → Result β} {g : α → β} {as : List α} (h : ∀ a ∈ as, f a = .ok (g a)) :
    as.mapM f = .ok (as.map g) := by
  induction as with
  | nil => rfl
  | cons a as ih =>
    rw [List.mapM_cons, h a (by simp), ih fun x hx => h x (by simp [hx])]
    rfl

lemma mapM_map_eq_ok {γ : Type} {f : α → Result β} {g : β → γ} {as : List α} {cs : List γ} :
    (as.mapM fun a => do return g (← f a)) = .ok cs ↔
      ∃ bs, as.mapM f = .ok bs ∧ bs.map g = cs := by
  induction as generalizing cs with
  | nil =>
    simp only [List.mapM_nil, pure_eq_ok]
    constructor
    · rintro rfl
      exact ⟨[], rfl, rfl⟩
    · rintro ⟨_, rfl, rfl⟩
      rfl
  | cons a as ih =>
    simp only [List.mapM_cons, bind_eq_ok, pure_eq_ok, ih]
    constructor
    · rintro ⟨-, ⟨b, hb, rfl⟩, -, ⟨bs, hbs, rfl⟩, rfl⟩
      exact ⟨b :: bs, ⟨b, hb, bs, hbs, rfl⟩, rfl⟩
    · rintro ⟨-, ⟨b, hb, bs, hbs, rfl⟩, rfl⟩
      exact ⟨g b, ⟨b, hb, rfl⟩, bs.map g, ⟨bs, hbs, rfl⟩, rfl⟩

lemma mapM_eq_ok_of_iff {f : α → Result β} {p : α → Prop} {g : α → β} {as : List α}
    {bs : List β} (h : ∀ a ∈ as, ∀ b, f a = .ok b ↔ p a ∧ g a = b) :
    as.mapM f = .ok bs ↔ (∀ a ∈ as, p a) ∧ as.map g = bs := by
  rw [mapM_eq_ok]
  induction as generalizing bs with
  | nil => simp [eq_comm]
  | cons a as ih =>
    rw [List.forall_mem_cons] at h
    simp only [List.forall₂_cons_left_iff, h.1, ih h.2, List.forall_mem_cons, List.map_cons]
    constructor
    · rintro ⟨_, _, ⟨ha, rfl⟩, ⟨has, rfl⟩, rfl⟩
      exact ⟨⟨ha, has⟩, rfl⟩
    · rintro ⟨⟨ha, has⟩, rfl⟩
      exact ⟨_, _, ⟨ha, rfl⟩, ⟨has, rfl⟩, rfl⟩

lemma exists_forall₂_iff {R : α → β → Prop} {as : List α} :
    (∃ bs, List.Forall₂ R as bs) ↔ ∀ a ∈ as, ∃ b, R a b := by
  induction as with
  | nil => exact iff_of_true ⟨[], .nil⟩ (by simp)
  | cons a as ih =>
    rw [List.forall_mem_cons, ← ih]
    constructor
    · rintro ⟨_, hab | ⟨hab, hrest⟩⟩
      exact ⟨⟨_, hab⟩, _, hrest⟩
    · rintro ⟨⟨b, hab⟩, bs, hrest⟩
      exact ⟨b :: bs, .cons hab hrest⟩

lemma exists_of_mem_right {R : α → β → Prop} {as : List α} {bs : List β}
    (h : List.Forall₂ R as bs) {b : β} (hb : b ∈ bs) : ∃ a ∈ as, R a b := by
  induction h with
  | nil => simp at hb
  | cons hab _ ih =>
    rcases List.mem_cons.mp hb with rfl | hb
    · exact ⟨_, by simp, hab⟩
    · obtain ⟨a, ha, hf⟩ := ih hb
      exact ⟨a, by simp [ha], hf⟩

lemma exists_of_mem_left {R : α → β → Prop} {as : List α} {bs : List β}
    (h : List.Forall₂ R as bs) {a : α} (ha : a ∈ as) : ∃ b ∈ bs, R a b :=
  exists_of_mem_right h.flip ha

lemma pairwise_of_forall₂ {R : α → β → Prop} {S : α → α → Prop} {T : β → β → Prop} {as : List α}
    {bs : List β} (h : List.Forall₂ R as bs) (hs : as.Pairwise S)
    (hST : ∀ a b a' b', R a b → R a' b' → S a a' → T b b') : bs.Pairwise T := by
  induction h with
  | nil => exact List.Pairwise.nil
  | cons hab hrest ih =>
    obtain ⟨ha, hs⟩ := List.pairwise_cons.mp hs
    refine List.pairwise_cons.mpr ⟨fun b' hb' => ?_, ih hs⟩
    obtain ⟨a', ha', hab'⟩ := exists_of_mem_right hrest hb'
    exact hST _ _ _ _ hab hab' (ha a' ha')

lemma mem_of_mapM_eq_ok {f : α → Result β} {as : List α} {bs : List β} (h : as.mapM f = .ok bs)
    {b : β} (hb : b ∈ bs) : ∃ a ∈ as, f a = .ok b :=
  exists_of_mem_right (mapM_eq_ok.mp h) hb

lemma mem_mapM_of_mem {f : α → Result β} {as : List α} {bs : List β} (h : as.mapM f = .ok bs)
    {a : α} (ha : a ∈ as) : ∃ b ∈ bs, f a = .ok b :=
  exists_of_mem_left (mapM_eq_ok.mp h) ha

/-- What a look-up found, if it ended and found something. -/
def foundIn : Result (Option α) → Option α
  | .ok found => found
  | .error _ => none

@[simp] lemma foundIn_ok (found : Option α) : foundIn (.ok found) = found := rfl

lemma foundIn_eq_some {r : Result (Option α)} {a : α} :
    foundIn r = some a ↔ r = .ok (some a) := by
  cases r with
  | ok found => simp
  | error f => simp [foundIn]

lemma findSomeM?_of_none {f : α → Result (Option β)} {a : α} (as : List α)
    (h : f a = .ok none) : (a :: as).findSomeM? f = as.findSomeM? f := by
  rw [List.findSomeM?, bind_of_ok h]

lemma findSomeM?_of_ne_none {f : α → Result (Option β)} {a : α} (as : List α)
    (h : f a ≠ .ok none) : (a :: as).findSomeM? f = f a := by
  rw [List.findSomeM?]
  cases hfa : f a with
  | error e => rfl
  | ok found =>
    cases found with
    | none => exact absurd hfa h
    | some b => rfl

/-- Of look-ups of which only one may find something, that one decides. -/
lemma findSomeM?_of_unique {f : α → Result (Option β)} {a : α} {as : List α}
    (h : as.Pairwise fun a b => f a = .ok none ∨ f b = .ok none) (ha : a ∈ as)
    (hfound : f a ≠ .ok none) : as.findSomeM? f = f a := by
  induction as with
  | nil => cases ha
  | cons b as ih =>
    rcases List.mem_cons.mp ha with rfl | ha
    · exact findSomeM?_of_ne_none as hfound
    · rw [findSomeM?_of_none as ((List.rel_of_pairwise_cons h ha).resolve_right hfound)]
      exact ih h.tail ha

lemma findSomeM?_eq_none {f : α → Result (Option β)} {as : List α}
    (h : ∀ a ∈ as, f a = .ok none) : as.findSomeM? f = .ok none := by
  induction as with
  | nil => rfl
  | cons a as ih =>
    rw [List.forall_mem_cons] at h
    rw [findSomeM?_of_none as h.1, ih h.2]

/-- Every value that a computation returns has a property. -/
def Returns (p : α → Prop) (r : Result α) : Prop := ∀ a, r = .ok a → p a

namespace Returns

variable {p : α → Prop} {q : β → Prop}

lemma ok {a : α} (h : p a) : Returns p (.ok a) := by
  intro b hb
  obtain rfl := Except.ok.inj hb
  exact h

lemma refuse (cause : Error) : Returns p (refuse cause) := fun _ h => absurd h refuse_ne_ok

lemma bind {r : Result α} {f : α → Result β} (hr : Returns p r)
    (hf : ∀ a, p a → Returns q (f a)) : Returns q (r >>= f) := by
  intro b hb
  obtain ⟨a, ha, hb⟩ := bind_eq_ok.mp hb
  exact hf a (hr a ha) b hb

lemma after {r : Result α} {f : α → Result β} (hf : ∀ a, Returns q (f a)) :
    Returns q (r >>= f) := by
  intro b hb
  obtain ⟨a, -, hb⟩ := bind_eq_ok.mp hb
  exact hf a b hb

lemma reported {r : Result α} (h : Returns p r) : Returns p (reported r) :=
  fun a ha => h a (reported_eq_ok.mp ha)

lemma found {a : α} (h : p a) : Returns (∀ x ∈ ·, p x) (.ok (some a)) := by
  refine ok fun x hx => ?_
  obtain rfl := Option.mem_some.mp hx
  exact h

lemma nothing : Returns (∀ x ∈ ·, p x) (.ok (none : Option α)) := ok (by simp)

lemma asFound {r : Result α} {f : α → β} (h : Returns (fun a => q (f a)) r) :
    Returns (∀ x ∈ ·, q x) (do return some (f (← r))) := bind h fun _ ha => found ha

lemma mapM {f : α → Result β} {as : List α} (h : ∀ a ∈ as, Returns q (f a)) :
    Returns (fun bs => ∀ b ∈ bs, q b) (as.mapM f) := by
  intro bs hbs b hb
  obtain ⟨a, ha, hab⟩ := mem_of_mapM_eq_ok hbs hb
  exact h a ha b hab

end Returns

/-- A computation ends with a value or with a refusal that was not reported yet. -/
def Silent (r : Result α) : Prop := ∀ f, r = .error f → ∃ cause, f = .refused cause 0

namespace Silent

lemma ok (a : α) : Silent (.ok a) := fun _ h => nomatch h

lemma refuse (cause : Error) : Silent (refuse cause : Result α) := by
  intro f h
  obtain rfl := Except.error.inj h
  exact ⟨cause, rfl⟩

lemma require (condition : Bool) (cause : Error) : Silent (require condition cause) := by
  cases condition with
  | true => exact ok ()
  | false => exact refuse cause

lemma orRefuse (found : Option α) (cause : Error) : Silent (orRefuse found cause) := by
  cases found with
  | some a => exact ok a
  | none => exact refuse cause

lemma bind {r : Result α} {f : α → Result β} (hr : Silent r) (hf : ∀ a, Silent (f a)) :
    Silent (r >>= f) := by
  cases r with
  | ok a => exact hf a
  | error e =>
    obtain ⟨cause, rfl⟩ := hr e rfl
    exact refuse cause

end Silent

end TemporalAlgebra
