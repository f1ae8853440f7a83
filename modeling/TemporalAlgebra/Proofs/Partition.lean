import Mathlib.Data.List.Basic

/-!
# Lists that a property cuts in two

If no element with a property stands behind one without it, the elements with the property are the
front of a list and those without it the rest. This is what a search by halves for the place of the
cut relies on.
-/
namespace TemporalAlgebra

variable {α : Type} {p : α → Bool} {as : List α}

lemma takeWhile_eq_filter (h : as.Pairwise fun a b => p b = true → p a = true) :
    as.takeWhile p = as.filter p ∧ as.dropWhile p = as.filter fun a => !p a := by
  induction as with
  | nil => exact ⟨rfl, rfl⟩
  | cons a rest ih =>
    obtain ⟨ha, hrest⟩ := List.pairwise_cons.mp h
    obtain ⟨htake, hdrop⟩ := ih hrest
    cases hp : p a with
    | true => simp [hp, htake, hdrop]
    | false =>
      have hnone : ∀ b ∈ a :: rest, p b = false := by
        intro b hb
        rcases List.mem_cons.mp hb with rfl | hb
        · exact hp
        · exact Bool.eq_false_iff.mpr fun hpb => by simp [ha b hb hpb] at hp
      rw [List.takeWhile_cons_of_neg (by simp [hp]), List.dropWhile_cons_of_neg (by simp [hp])]
      exact ⟨(List.filter_eq_nil_iff.mpr fun b hb => by simp [hnone b hb]).symm,
        (List.filter_eq_self.mpr fun b hb => by simp [hnone b hb]).symm⟩

lemma countP_le_one (h : as.Pairwise fun a b => p a = true → p b = false) : as.countP p ≤ 1 := by
  induction as with
  | nil => simp
  | cons a rest ih =>
    obtain ⟨ha, hrest⟩ := List.pairwise_cons.mp h
    by_cases hp : p a = true
    · have hzero : rest.countP p = 0 := List.countP_eq_zero.mpr fun b hb => by simp [ha b hb hp]
      simp [hp, hzero]
    · rw [List.countP_cons_of_neg hp]
      exact ih hrest

end TemporalAlgebra
