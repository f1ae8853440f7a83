import Mathlib.Data.List.Basic
import Mathlib.Data.List.TakeWhile
import Mathlib.Tactic.Common
import TemporalAlgebra.Text.Blank

/-!
# Texts without white space at their ends

Trimming leaves a text alone that neither starts nor ends with white space.
-/
namespace TemporalAlgebra.Text

/-- There is no white space at the ends of a text. -/
structure Tight (cs : List Char) : Prop where
  first : ∀ c ∈ cs.head?, isBlank c = false
  last : ∀ c ∈ cs.getLast?, isBlank c = false

lemma trimStart_eq_self {cs : List Char} (h : ∀ c ∈ cs.head?, isBlank c = false) :
    trimStart cs = cs := by
  cases cs with
  | nil => rfl
  | cons c cs => exact List.dropWhile_cons_of_neg (by simp [h c rfl])

lemma trimEnd_eq_self {cs : List Char} (h : ∀ c ∈ cs.getLast?, isBlank c = false) :
    trimEnd cs = cs := by
  have hreverse : trimStart cs.reverse = cs.reverse := by
    apply trimStart_eq_self
    rwa [List.head?_reverse]
  unfold trimEnd dropEndWhile
  rw [← trimStart, hreverse, List.reverse_reverse]

lemma Tight.trim_eq {cs : List Char} (h : Tight cs) : trim cs = cs := by
  unfold trim
  rw [trimStart_eq_self h.first, trimEnd_eq_self h.last]

lemma tight_of_forall {cs : List Char} (h : ∀ c ∈ cs, isBlank c = false) : Tight cs :=
  ⟨fun c hc => h c (List.mem_of_mem_head? hc), fun c hc => h c (List.mem_of_mem_getLast? hc)⟩

lemma Tight.append {cs ds : List Char} (hc : ∀ c ∈ cs.head?, isBlank c = false) (hne : cs ≠ [])
    (hd : ∀ d ∈ ds.getLast?, isBlank d = false) (hne' : ds ≠ []) : Tight (cs ++ ds) := by
  constructor
  · rwa [List.head?_append_of_ne_nil _ hne]
  · rwa [List.getLast?_append_of_ne_nil _ hne']

lemma Tight.trim_blank_cons {c : Char} (hc : isBlank c = true) {cs : List Char} (h : Tight cs) :
    trim (c :: cs) = cs := by
  have hdrop : trimStart (c :: cs) = trimStart cs := List.dropWhile_cons_of_pos hc
  unfold trim
  rw [hdrop]
  exact h.trim_eq

lemma trimStart_append {front cs : List Char} (h : ∀ c ∈ front, isBlank c = true) :
    trimStart (front ++ cs) = trimStart cs := by
  unfold trimStart
  rw [List.dropWhile_append, List.dropWhile_eq_nil_iff.mpr h]
  rfl

lemma trimEnd_append {cs back : List Char} (h : ∀ c ∈ back, isBlank c = true) :
    trimEnd (cs ++ back) = trimEnd cs := by
  have hback : ∀ c ∈ back.reverse, isBlank c = true := by
    intro c hc
    exact h c (List.mem_reverse.mp hc)
  unfold trimEnd dropEndWhile
  rw [List.reverse_append, ← trimStart, trimStart_append hback]
  rfl

lemma Tight.trim_append {front cs back : List Char} (h : Tight cs) (hne : cs ≠ [])
    (hfront : ∀ c ∈ front, isBlank c = true) (hback : ∀ c ∈ back, isBlank c = true) :
    trim (front ++ cs ++ back) = cs := by
  have hstart : trimStart (cs ++ back) = cs ++ back := by
    apply trimStart_eq_self
    intro c hc
    rw [List.head?_append_of_ne_nil _ hne] at hc
    exact h.first c hc
  unfold trim
  rw [List.append_assoc, trimStart_append hfront, hstart, trimEnd_append hback]
  exact trimEnd_eq_self h.last

lemma mem_trimStart {c : Char} {cs : List Char} (hc : c ∈ cs) (h : isBlank c = false) :
    c ∈ trimStart cs := by
  unfold trimStart
  rw [← List.takeWhile_append_dropWhile (p := isBlank) (l := cs), List.mem_append] at hc
  apply hc.resolve_left
  intro hfront
  rw [List.mem_takeWhile_imp hfront] at h
  cases h

/-- Nothing but blanks is trimmed. -/
lemma mem_trim {c : Char} {cs : List Char} (hc : c ∈ cs) (h : isBlank c = false) : c ∈ trim cs := by
  have hmem := mem_trimStart (List.mem_reverse.mpr (mem_trimStart hc h)) h
  exact List.mem_reverse.mpr hmem

lemma isPrefix_dropEndWhile (p : Char → Bool) (cs : List Char) : dropEndWhile p cs <+: cs := by
  rw [← List.reverse_suffix]
  unfold dropEndWhile
  rw [List.reverse_reverse]
  exact List.dropWhile_suffix p

lemma trimStart_suffix (cs : List Char) : trimStart cs <:+ cs := List.dropWhile_suffix isBlank

lemma isPrefix_trimEnd (cs : List Char) : trimEnd cs <+: cs := isPrefix_dropEndWhile isBlank cs

lemma isInfix_trim (cs : List Char) : trim cs <:+: cs :=
  (isPrefix_trimEnd _).isInfix.trans (trimStart_suffix cs).isInfix

lemma trimStart_trimStart (cs : List Char) : trimStart (trimStart cs) = trimStart cs := by
  apply trimStart_eq_self
  intro c hc
  have hfirst := List.head?_dropWhile_not isBlank cs
  unfold trimStart at hc
  rwa [Option.mem_def.mp hc] at hfirst

lemma trimStart_trim (cs : List Char) : trimStart (trim cs) = trim cs := by
  obtain ⟨back, hback⟩ := isPrefix_trimEnd (trimStart cs)
  apply trimStart_eq_self
  intro c hc
  have hhead : (trimStart cs).head? = some c := by
    rw [← hback]
    rw [List.head?_append]
    exact Option.or_eq_some_iff.mpr (.inl hc)
  have hfirst := List.head?_dropWhile_not isBlank cs
  unfold trimStart at hhead
  rwa [hhead] at hfirst

end TemporalAlgebra.Text
