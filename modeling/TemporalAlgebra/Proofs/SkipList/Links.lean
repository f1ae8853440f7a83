import Mathlib.Data.List.Induction
import Mathlib.Data.List.Nodup
import Mathlib.Data.Nat.Basic
import TemporalAlgebra.Proofs.Outcome
import TemporalAlgebra.SkipList.Arena

/-!
# Links of an arena

The slots of an arena make a row: on each of its levels a slot is followed by the next one in the row
that is linked there. A slot that is hooked behind the last ones before it is wired into the row, and
one that these pass over is wired no more.
-/
namespace TemporalAlgebra.Arena

variable {α β γ : Type}

/-- A step on an arena ends in some way and leaves another arena. -/
def Runs (step : ArenaStep α β) (a : Arena α) (r : Result β) (a' : Arena α) : Prop :=
  step.run.run a = (r, a')

lemma runs_pure (b : β) (a : Arena α) : Runs (pure b) a (.ok b) a := rfl

lemma runs_get (a : Arena α) : Runs get a (.ok a) a := rfl

lemma runs_set (a a' : Arena α) : Runs (set a') a (.ok ()) a' := rfl

lemma runs_modify (f : Arena α → Arena α) (a : Arena α) : Runs (modify f) a (.ok ()) (f a) := rfl

lemma runs_lift {r r' : Result β} (h : r = r') (a : Arena α) : Runs (liftM r) a r' a := by
  subst h
  cases r <;> rfl

section

variable {a a' a'' : Arena α} {step : ArenaStep α β} {more : β → ArenaStep α γ}

lemma Runs.bind {b : β} {r : Result γ} (h : Runs step a (.ok b) a') (h' : Runs (more b) a' r a'') :
    Runs (step >>= more) a r a'' := by
  unfold Runs at *
  rw [ExceptT.run_bind, StateT.run_bind, h]
  exact h'

lemma Runs.bind_error {f : Failure} (h : Runs step a (.error f) a') :
    Runs (step >>= more) a (.error f) a' := by
  unfold Runs at *
  rw [ExceptT.run_bind, StateT.run_bind, h]
  rfl

end

def next? (nodes : Array (Node α)) (slot level : Nat) : Option Nat :=
  nodes[slot]?.bind fun node => node.next[level]?

def value? (nodes : Array (Node α)) (slot : Nat) : Option (Option α) :=
  nodes[slot]?.map Node.value

@[simp] lemma orAbort_eq_ok {found : Option β} {b : β} : orAbort found = .ok b ↔ found = some b := by
  cases found <;> simp [orAbort]

lemma node_eq_ok {a : Arena α} {slot : Nat} {n : Node α} :
    a.node slot = .ok n ↔ a.nodes[slot]? = some n := orAbort_eq_ok

lemma next_eq_ok {a : Arena α} {slot level following : Nat} :
    a.next slot level = .ok following ↔ next? a.nodes slot level = some following := by
  unfold next next?
  rw [bind_eq_ok, Option.bind_eq_some_iff]
  simp only [node_eq_ok, orAbort_eq_ok]

lemma exists_node {nodes : Array (Node α)} {slot : Nat} {x : Option α}
    (h : value? nodes slot = some x) : ∃ n, nodes[slot]? = some n ∧ n.value = x :=
  Option.map_eq_some_iff.mp h

lemma next?_congr {nodes nodes' : Array (Node α)} {slot : Nat} (h : nodes'[slot]? = nodes[slot]?)
    (level : Nat) : next? nodes' slot level = next? nodes slot level := by
  unfold next?
  rw [h]

lemma value?_congr {nodes nodes' : Array (Node α)} {slot : Nat} (h : nodes'[slot]? = nodes[slot]?) :
    value? nodes' slot = value? nodes slot := by
  unfold value?
  rw [h]

/-- What a step does to the links of an arena, all else being as it was. -/
structure Relinks (nodes nodes' : Array (Node α)) (links : Nat → Nat → Option Nat) : Prop where
  size_eq : nodes'.size = nodes.size
  value_eq : ∀ slot, value? nodes' slot = value? nodes slot
  next_eq : ∀ slot level, next? nodes' slot level = links slot level

lemma runs_setNext {a : Arena α} {slot level old : Nat} (h : next? a.nodes slot level = some old)
    (following : Nat) :
    ∃ nodes, Runs (setNext slot level following) a (.ok ()) { a with nodes } ∧
      Relinks a.nodes nodes fun j l =>
        if j = slot ∧ l = level then some following else next? a.nodes j l := by
  obtain ⟨n, hn, hold⟩ := Option.bind_eq_some_iff.mp h
  have hslot : slot < a.nodes.size := by
    by_contra hge
    rw [Array.getElem?_eq_none (by omega)] at hn
    cases hn
  have hlevel : level < n.next.length := by
    by_contra hge
    rw [List.getElem?_eq_none (by omega)] at hold
    cases hold
  refine ⟨a.nodes.setIfInBounds slot { n with next := n.next.set level following }, ?_, ?_⟩
  · unfold setNext setNode
    refine .bind (runs_get a) (.bind (runs_lift (node_eq_ok.mpr hn) a)
      (.bind (runs_lift (orAbort_eq_ok.mpr hold) a) ?_))
    exact .bind (runs_get a) (.bind (runs_lift (node_eq_ok.mpr hn) a) (runs_set a _))
  · refine ⟨Array.size_setIfInBounds, fun j => ?_, fun j l => ?_⟩
    · unfold value?
      rw [Array.getElem?_setIfInBounds]
      split
      · rename_i hj
        rw [← hj, hn]
        rfl
      · rfl
    · unfold next?
      rw [Array.getElem?_setIfInBounds]
      by_cases hj : slot = j
      · subst hj
        rw [if_pos rfl, if_pos hslot, hn]
        simp only [true_and, Option.bind_some, List.getElem?_set]
        by_cases hl : l = level
        · subst hl
          simp [hlevel]
        · simp [hl, Ne.symm hl]
      · rw [if_neg hj, if_neg (fun h => hj h.1.symm)]

/-- A slot that is hooked behind others is followed by what followed them, and they by it. -/
lemma runs_hook (slot : Nat) {f : Nat → Nat} (count level : Nat) {a : Arena α}
    (h : ∀ l, level ≤ l → l < level + count → f l ≠ slot ∧
      (next? a.nodes slot l).isSome ∧ (next? a.nodes (f l) l).isSome) :
    ∃ nodes, Runs (hook slot level ((List.range' level count).map f)) a (.ok ()) { a with nodes } ∧
      Relinks a.nodes nodes fun j l =>
        if level ≤ l ∧ l < level + count then
          if j = slot then next? a.nodes (f l) l
          else if j = f l then some slot else next? a.nodes j l
        else next? a.nodes j l := by
  induction count generalizing level a with
  | zero =>
    refine ⟨a.nodes, runs_pure () a, rfl, fun _ => rfl, fun j l => ?_⟩
    rw [if_neg (by omega)]
  | succ count ih =>
    obtain ⟨hne, hslot, hlast⟩ := h level (le_refl _) (by omega)
    obtain ⟨old, hold⟩ := Option.isSome_iff_exists.mp hslot
    obtain ⟨following, hfollowing⟩ := Option.isSome_iff_exists.mp hlast
    obtain ⟨nodes₁, hrun₁, h₁⟩ := runs_setNext hold following
    have hlast₁ : next? nodes₁ (f level) level = some following := by
      rw [h₁.next_eq, if_neg (fun hj => hne hj.1), hfollowing]
    obtain ⟨nodes₂, hrun₂, h₂⟩ := runs_setNext (a := { a with nodes := nodes₁ }) hlast₁ slot
    have hother : ∀ j l, l ≠ level → next? nodes₂ j l = next? a.nodes j l := by
      intro j l hl
      rw [h₂.next_eq, if_neg (fun h => hl h.2), h₁.next_eq, if_neg (fun h => hl h.2)]
    obtain ⟨nodes, hrun, h'⟩ := ih (level + 1) (a := { a with nodes := nodes₂ })
      fun l hl hl' => by
        rw [hother _ l (by omega), hother _ l (by omega)]
        exact h l (by omega) (by omega)
    refine ⟨nodes, ?_, h'.size_eq.trans (h₂.size_eq.trans h₁.size_eq),
      fun j => (h'.value_eq j).trans ((h₂.value_eq j).trans (h₁.value_eq j)), fun j l => ?_⟩
    · rw [List.range'_succ, List.map_cons]
      exact .bind (runs_get a) (.bind (runs_lift (next_eq_ok.mpr hfollowing) a)
        (.bind hrun₁ (.bind hrun₂ hrun)))
    · rw [h'.next_eq]
      by_cases hl : l = level
      · subst hl
        rw [if_neg (by omega), if_pos (by omega), h₂.next_eq, h₁.next_eq]
        by_cases hj : j = slot
        · subst hj
          simp [hne.symm, hfollowing]
        · simp [hj]
      · dsimp only
        rw [hother _ l hl, hother _ l hl]
        refine if_congr ?_ rfl rfl
        omega

/-- Passing over a slot changes no link but one that leads to it. -/
lemma runs_pass {slot level last : Nat} {a : Arena α} (hlast : (next? a.nodes last level).isSome)
    (hslot : next? a.nodes last level = some slot → (next? a.nodes slot level).isSome) :
    ∃ nodes, Runs (pass slot level last) a (.ok ()) { a with nodes } ∧
      Relinks a.nodes nodes fun j l =>
        if l = level ∧ j = last ∧ next? a.nodes j l = some slot then next? a.nodes slot l
        else next? a.nodes j l := by
  obtain ⟨following, hfollowing⟩ := Option.isSome_iff_exists.mp hlast
  have hpass : ∀ {r : Result Unit} {a' : Arena α}, Runs (if following = slot then do
      setNext last level (← (a.next slot level : Result _)) else pure ()) a r a' →
        Runs (pass slot level last) a r a' := fun h =>
    .bind (runs_get a) (.bind (runs_lift (next_eq_ok.mpr hfollowing) a) h)
  by_cases heq : following = slot
  · subst heq
    obtain ⟨further, hfurther⟩ := Option.isSome_iff_exists.mp (hslot hfollowing)
    obtain ⟨nodes, hrun, hnodes⟩ := runs_setNext hfollowing further
    refine ⟨nodes, hpass ?_, hnodes.size_eq, hnodes.value_eq, fun j l => ?_⟩
    · rw [if_pos rfl]
      exact .bind (runs_lift (next_eq_ok.mpr hfurther) a) hrun
    · rw [hnodes.next_eq]
      by_cases hj : j = last ∧ l = level
      · obtain ⟨rfl, rfl⟩ := hj
        rw [if_pos ⟨rfl, rfl⟩, if_pos ⟨rfl, rfl, hfollowing⟩, hfurther]
      · rw [if_neg hj, if_neg (fun h => hj ⟨h.2.1, h.1⟩)]
  · refine ⟨a.nodes, hpass ?_, rfl, fun _ => rfl, fun j l => ?_⟩
    · rw [if_neg heq]
      exact runs_pure () a
    · rw [if_neg]
      rintro ⟨rfl, rfl, hslot'⟩
      exact heq (Option.some.inj (hfollowing.symm.trans hslot'))

/-- A slot that is unhooked is passed over where it followed others. -/
lemma runs_unhook (slot : Nat) {f : Nat → Nat} (count level : Nat) {a : Arena α}
    (h : ∀ l, level ≤ l → l < level + count → (next? a.nodes (f l) l).isSome ∧
      (next? a.nodes (f l) l = some slot → (next? a.nodes slot l).isSome)) :
    ∃ nodes, Runs (unhook slot level ((List.range' level count).map f)) a (.ok ())
        { a with nodes } ∧
      Relinks a.nodes nodes fun j l =>
        if (level ≤ l ∧ l < level + count) ∧ j = f l ∧ next? a.nodes j l = some slot then
          next? a.nodes slot l
        else next? a.nodes j l := by
  induction count generalizing level a with
  | zero =>
    refine ⟨a.nodes, runs_pure () a, rfl, fun _ => rfl, fun j l => ?_⟩
    rw [if_neg (by omega)]
  | succ count ih =>
    obtain ⟨hlast, hslot⟩ := h level (le_refl _) (by omega)
    obtain ⟨nodes₁, hrun₁, h₁⟩ := runs_pass hlast hslot
    have hother : ∀ j l, l ≠ level → next? nodes₁ j l = next? a.nodes j l := by
      intro j l hl
      rw [h₁.next_eq, if_neg (fun h => hl h.1)]
    obtain ⟨nodes, hrun, h'⟩ := ih (level + 1) (a := { a with nodes := nodes₁ })
      fun l hl hl' => by
        rw [hother _ l (by omega), hother _ l (by omega)]
        exact h l (by omega) (by omega)
    refine ⟨nodes, ?_, h'.size_eq.trans h₁.size_eq,
      fun j => (h'.value_eq j).trans (h₁.value_eq j), fun j l => ?_⟩
    · rw [List.range'_succ, List.map_cons]
      exact .bind hrun₁ hrun
    · rw [h'.next_eq]
      dsimp only
      by_cases hl : l = level
      · subst hl
        rw [if_neg (by omega), h₁.next_eq]
        refine if_congr ?_ rfl rfl
        simp
      · rw [hother _ l hl, hother _ l hl]
        refine if_congr (and_congr_left' ?_) rfl rfl
        omega

/-- The first of some slots, given with their heights, that is linked on a level; the tail if none
is. -/
def landing (level : Nat) : List (Nat × Nat) → Nat
  | [] => tail
  | (slot, height) :: rest => if level < height then slot else landing level rest

/-- The last of some slots that is linked on a level; the head if none is. -/
def lastOn (level : Nat) (slots : List (Nat × Nat)) : Nat :=
  slots.foldl (fun last p => if level < p.2 then p.1 else last) head

section

variable {level : Nat} {left right : List (Nat × Nat)} {p : Nat × Nat}

lemma landing_cons_of_lt (h : level < p.2) : landing level (p :: right) = p.1 := if_pos h

lemma landing_append_of_le (h : ∀ q ∈ left, q.2 ≤ level) :
    landing level (left ++ right) = landing level right := by
  induction left with
  | nil => rfl
  | cons q left ih =>
    have hq := h q (by simp)
    rw [List.cons_append, landing, if_neg (by omega), ih fun r hr => h r (by simp [hr])]

lemma landing_append_of_lt (h : ∃ q ∈ left, level < q.2) :
    landing level (left ++ right) = landing level left := by
  induction left with
  | nil => simp at h
  | cons q left ih =>
    rw [List.cons_append, landing, landing]
    split
    · rfl
    · rename_i hq
      obtain ⟨r, hr, hlt⟩ := h
      rcases List.mem_cons.mp hr with rfl | hr
      · exact absurd hlt hq
      · exact ih ⟨r, hr, hlt⟩

lemma landing_mem (h : landing level right ≠ tail) : landing level right ∈ right.map Prod.fst := by
  induction right with
  | nil => exact absurd rfl h
  | cons q right ih =>
    rw [landing] at h ⊢
    split
    · simp
    · rename_i hq
      rw [if_neg hq] at h
      exact List.mem_cons_of_mem _ (ih h)

lemma lastOn_append_of_le (left : List (Nat × Nat)) (h : ∀ q ∈ right, q.2 ≤ level) :
    lastOn level (left ++ right) = lastOn level left := by
  unfold lastOn
  rw [List.foldl_append]
  generalize left.foldl (fun last p => if level < p.2 then p.1 else last) head = last
  induction right generalizing last with
  | nil => rfl
  | cons q right ih =>
    have hq := h q (by simp)
    rw [List.foldl_cons, if_neg (by omega), ih fun r hr => h r (by simp [hr])]

lemma lastOn_split (hp : level < p.2) (h : ∀ q ∈ right, q.2 ≤ level) :
    lastOn level (left ++ p :: right) = p.1 := by
  rw [List.append_cons, lastOn_append_of_le _ h]
  unfold lastOn
  rw [List.foldl_append]
  exact if_pos hp

lemma exists_lastOn (h : ∃ q ∈ left, level < q.2) : ∃ before q after, left = before ++ q :: after ∧
    level < q.2 ∧ (∀ r ∈ after, r.2 ≤ level) ∧ lastOn level left = q.1 := by
  induction left using List.reverseRecOn with
  | nil => simp at h
  | append_singleton left q ih =>
    by_cases hq : level < q.2
    · exact ⟨left, q, [], rfl, hq, by simp, lastOn_split hq (by simp)⟩
    · obtain ⟨r, hr, hlt⟩ := h
      have hr' : r ∈ left := by
        rcases List.mem_append.mp hr with hr | hr
        · exact hr
        · obtain rfl := List.mem_singleton.mp hr
          exact absurd hlt hq
      obtain ⟨before, x, after, rfl, hx, hafter, hlast⟩ := ih ⟨r, hr', hlt⟩
      refine ⟨before, x, after ++ [q], by simp, hx, fun y hy => ?_, ?_⟩
      · rcases List.mem_append.mp hy with hy | hy
        · exact hafter y hy
        · obtain rfl := List.mem_singleton.mp hy
          omega
      · rw [lastOn_append_of_le _ (by simpa using hq), hlast]

lemma lastOn_mem (left : List (Nat × Nat)) (h : ∃ q ∈ right, level < q.2) :
    lastOn level (left ++ right) ∈ right.map Prod.fst := by
  obtain ⟨before, q, after, rfl, hq, hafter, -⟩ := exists_lastOn h
  rw [← List.append_assoc, lastOn_split hq hafter]
  simp

lemma lastOn_mem_of_head (h : head ∈ left.map Prod.fst) : lastOn level left ∈ left.map Prod.fst := by
  by_cases hex : ∃ q ∈ left, level < q.2
  · exact lastOn_mem [] hex
  · have hle : ∀ q ∈ left, q.2 ≤ level := fun q hq => not_lt.mp fun hlt => hex ⟨q, hq, hlt⟩
    have hnone : lastOn level left = head := lastOn_append_of_le [] hle
    rwa [hnone]

end

lemma cut_append_cases {left right before after : List β} {p : β}
    (h : left ++ right = before ++ p :: after) :
    (∃ m, left = before ++ p :: m ∧ after = m ++ right) ∨
      ∃ m, before = left ++ m ∧ right = m ++ p :: after := by
  rcases List.append_eq_append_iff.mp h with ⟨m, hbefore, hright⟩ | ⟨m, hleft, hafter⟩
  · exact Or.inr ⟨m, hbefore, hright⟩
  · cases m with
    | nil =>
      rw [List.append_nil] at hleft
      exact Or.inr ⟨[], by simpa using hleft.symm, by simpa using hafter.symm⟩
    | cons y m =>
      rw [List.cons_append] at hafter
      obtain ⟨rfl, rfl⟩ := List.cons.inj hafter
      exact Or.inl ⟨m, hleft, rfl⟩

lemma cut_cases {left right before after : List β} {x p : β}
    (h : left ++ x :: right = before ++ p :: after) :
    (∃ m, left = before ++ p :: m ∧ after = m ++ x :: right) ∨
      (before = left ∧ p = x ∧ after = right) ∨
      ∃ m, before = left ++ x :: m ∧ right = m ++ p :: after := by
  rcases cut_append_cases h with hleft | ⟨m, hbefore, hright⟩
  · exact Or.inl hleft
  · cases m with
    | nil =>
      obtain ⟨rfl, rfl⟩ := List.cons.inj hright
      exact Or.inr (Or.inl ⟨by simpa using hbefore, rfl, rfl⟩)
    | cons y m =>
      obtain ⟨rfl, rfl⟩ := List.cons.inj hright
      exact Or.inr (Or.inr ⟨m, hbefore, rfl⟩)

/-- Every slot of a row is followed on each of its levels by the next one that is linked there. -/
def Wired (nodes : Array (Node α)) (slots : List (Nat × Nat)) : Prop :=
  ∀ before p after, slots = before ++ p :: after → ∀ level < p.2,
    next? nodes p.1 level = some (landing level after)

section

variable {nodes nodes' : Array (Node α)} {left right : List (Nat × Nat)} {slot height : Nat}

lemma Wired.congr {slots : List (Nat × Nat)} (h : Wired nodes slots)
    (hnext : ∀ p ∈ slots, ∀ l, next? nodes' p.1 l = next? nodes p.1 l) : Wired nodes' slots :=
  fun before p after hcut level hlevel =>
    (hnext p (by simp [hcut]) level).trans (h before p after hcut level hlevel)

/-- A slot that is hooked behind the last ones before it is wired into the row. -/
lemma Wired.hook (h : Wired nodes (left ++ right)) (hnodup : ((left ++ right).map Prod.fst).Nodup)
    (hslot : slot ∉ (left ++ right).map Prod.fst) (hleft : ∀ l < height, ∃ p ∈ left, l < p.2)
    (hnext : ∀ j l, next? nodes' j l =
      if 0 ≤ l ∧ l < 0 + height then
        if j = slot then next? nodes (lastOn l left) l
        else if j = lastOn l left then some slot else next? nodes j l
      else next? nodes j l) :
    Wired nodes' (left ++ (slot, height) :: right) := by
  have hother : ∀ j l, j ≠ slot → (l < height → j ≠ lastOn l left) →
      next? nodes' j l = next? nodes j l := by
    intro j l hj hlast
    rw [hnext, if_neg hj]
    split
    · rw [if_neg (hlast (by omega))]
    · rfl
  have hne : ∀ j ∈ (left ++ right).map Prod.fst, j ≠ slot := fun j hj heq => hslot (heq ▸ hj)
  intro before p after hcut level hlevel
  rcases cut_cases hcut with ⟨m, rfl, rfl⟩ | ⟨rfl, rfl, rfl⟩ | ⟨m, rfl, rfl⟩
  · have hp := h before p (m ++ right) (by simp) level hlevel
    have hpslot := hne p.1 (by simp)
    have hpm : p.1 ∉ m.map Prod.fst := by
      simp only [List.map_append, List.map_cons, List.nodup_append, List.nodup_cons] at hnodup
      exact hnodup.1.2.1.1
    by_cases hm : ∃ q ∈ m, level < q.2
    · -- A later slot before the new one comes first on this level.
      rw [landing_append_of_lt hm] at hp ⊢
      refine (hother _ _ hpslot fun _ heq => hpm ?_).trans hp
      rw [List.append_cons] at heq
      exact heq ▸ lastOn_mem _ hm
    · have hle : ∀ q ∈ m, q.2 ≤ level := fun q hq => not_lt.mp fun hlt => hm ⟨q, hq, hlt⟩
      rw [landing_append_of_le hle] at hp ⊢
      by_cases hh : level < height
      · rw [hnext, if_pos (by omega), if_neg hpslot, if_pos (lastOn_split hlevel hle).symm]
        rw [landing, if_pos hh]
      · rw [hother _ _ hpslot fun hlt => absurd hlt hh, hp, landing, if_neg hh]
  · -- The new slot is followed by what followed the last one before it.
    obtain ⟨before', q, m, rfl, hq, hle, hlast⟩ := exists_lastOn (hleft level hlevel)
    rw [hnext, if_pos (by omega), if_pos rfl, hlast,
      h before' q (m ++ after) (by simp) level hq, landing_append_of_le hle]
  · have hp := h (left ++ m) p after (by simp) level hlevel
    refine (hother _ _ (hne p.1 (by simp)) fun hlt heq => ?_).trans hp
    have hmem := lastOn_mem [] (hleft level hlt)
    rw [List.nil_append, ← heq] at hmem
    rw [List.map_append, List.nodup_append] at hnodup
    exact hnodup.2.2 _ hmem _ (by simp) rfl

/-- A row is wired without a slot that others pass over. -/
lemma Wired.unhook {levels : Nat} (h : Wired nodes (left ++ (slot, height) :: right))
    (hnodup : ((left ++ (slot, height) :: right).map Prod.fst).Nodup)
    (hhead : head ∈ left.map Prod.fst) (htail : slot ≠ tail) (hheight : height ≤ levels)
    (hnext : ∀ j l, next? nodes' j l =
      if (0 ≤ l ∧ l < 0 + levels) ∧ j = lastOn l left ∧ next? nodes j l = some slot then
        next? nodes slot l
      else next? nodes j l) :
    Wired nodes' (left ++ right) := by
  intro before p after hcut level hlevel
  rcases cut_append_cases hcut with ⟨m, rfl, rfl⟩ | ⟨m, rfl, rfl⟩
  · have hp := h before p (m ++ (slot, height) :: right) (by simp) level hlevel
    simp only [List.map_append, List.map_cons, List.nodup_append, List.nodup_cons] at hnodup
    have hpm : p.1 ∉ m.map Prod.fst := hnodup.1.2.1.1
    have hright : slot ∉ right.map Prod.fst := hnodup.2.1.1
    by_cases hm : ∃ q ∈ m, level < q.2
    · rw [landing_append_of_lt hm] at hp ⊢
      rw [hnext, if_neg, hp]
      rintro ⟨-, heq, -⟩
      rw [List.append_cons] at heq
      exact hpm (heq ▸ lastOn_mem _ hm)
    · have hle : ∀ q ∈ m, q.2 ≤ level := fun q hq => not_lt.mp fun hlt => hm ⟨q, hq, hlt⟩
      rw [landing_append_of_le hle] at hp ⊢
      rw [landing] at hp
      rw [hnext, hp, lastOn_split hlevel hle]
      by_cases hh : level < height
      · rw [if_pos hh, if_pos ⟨⟨by omega, by omega⟩, rfl, rfl⟩]
        exact h (before ++ p :: m) (slot, height) right (by simp) level hh
      · -- The slot is not linked on this level, so nothing leads to it.
        rw [if_neg hh, if_neg]
        rintro ⟨-, -, heq⟩
        have hland := Option.some.inj heq
        exact hright (hland ▸ landing_mem (hland.symm ▸ htail))
  · have hp := h (left ++ (slot, height) :: m) p after (by simp) level hlevel
    rw [hnext, if_neg, hp]
    rintro ⟨-, heq, -⟩
    rw [List.map_append, List.nodup_append] at hnodup
    exact hnodup.2.2 _ (lastOn_mem_of_head hhead) _ (by simp) heq.symm

end

end TemporalAlgebra.Arena
