import Mathlib.Data.List.TakeWhile
import TemporalAlgebra.Proofs.Completion
import TemporalAlgebra.Proofs.Text.Split

/-!
# Pieces of texts

What a reader takes out of a text is a piece of it: a run of its characters from its start on, or
behind a boundary.
-/
namespace TemporalAlgebra.Text

/-- A character behind which a reader may begin: white space, an opening bracket, a quote or a
separator. -/
def isBoundary (c : Char) : Bool := isBlank c || isOpening c || c == '"' || c == ',' || c == ';'

lemma isBoundary_of_isBlank {c : Char} (h : isBlank c = true) : isBoundary c = true := by
  unfold isBoundary
  rw [h]
  rfl

lemma isBoundary_of_isOpening {c : Char} (h : isOpening c = true) : isBoundary c = true := by
  unfold isBoundary
  rw [h, Bool.or_true]
  rfl

/-- `part` stands in `cs`, at its start or behind a boundary. -/
def Piece (cs part : List Char) : Prop :=
  ∃ front back, cs = front ++ part ++ back ∧ ∀ c ∈ front.getLast?, isBoundary c = true

namespace Piece

variable {cs part : List Char}

lemma isInfix (h : Piece cs part) : part <:+: cs := by
  obtain ⟨front, back, rfl, -⟩ := h
  exact ⟨front, back, rfl⟩

lemma subset (h : Piece cs part) : part ⊆ cs := h.isInfix.subset

lemma of_isPrefix (h : part <+: cs) : Piece cs part := by
  obtain ⟨back, rfl⟩ := h
  exact ⟨[], back, rfl, by simp⟩

lemma refl (cs : List Char) : Piece cs cs := of_isPrefix (List.prefix_refl cs)

lemma of_boundary {c : Char} (hc : isBoundary c = true) (h : c :: part <:+: cs) :
    Piece cs part := by
  obtain ⟨front, back, rfl⟩ := h
  refine ⟨front ++ [c], back, by simp, fun d hd => ?_⟩
  rw [List.getLast?_concat] at hd
  rwa [← Option.some.inj hd]

lemma trans {piece : List Char} (h : Piece cs part) (h' : Piece part piece) : Piece cs piece := by
  obtain ⟨front, back, rfl, hfront⟩ := h
  obtain ⟨front', back', rfl, hfront'⟩ := h'
  refine ⟨front ++ front', back' ++ back, by simp, fun c hc => ?_⟩
  cases front' with
  | nil => exact hfront c (by simpa using hc)
  | cons d ds =>
    rw [List.getLast?_append_of_ne_nil _ (List.cons_ne_nil _ _)] at hc
    exact hfront' c hc

lemma dropWhile {p : Char → Bool} (hp : ∀ c, p c = true → isBoundary c = true) (cs : List Char) :
    Piece cs (cs.dropWhile p) := by
  refine ⟨cs.takeWhile p, [], by simp, fun c hc => hp c ?_⟩
  exact List.mem_takeWhile_imp (List.mem_of_mem_getLast? hc)

lemma dropEndWhile (p : Char → Bool) (cs : List Char) : Piece cs (dropEndWhile p cs) :=
  of_isPrefix (isPrefix_dropEndWhile p cs)

lemma trimStart (cs : List Char) : Piece cs (trimStart cs) :=
  dropWhile (fun _ => isBoundary_of_isBlank) cs

lemma trimEnd (cs : List Char) : Piece cs (trimEnd cs) := dropEndWhile isBlank cs

lemma trim (cs : List Char) : Piece cs (trim cs) := (trimStart cs).trans (trimEnd _)

end Piece

lemma prefix_of_reverse_eq_cons {c : Char} {cs back : List Char} (h : cs.reverse = c :: back) :
    back.reverse <+: cs := by
  rw [← List.reverse_suffix, List.reverse_reverse, h]
  exact List.suffix_cons c back

/-! ### What is taken out of a text -/

lemma Piece.unwrap {opening closing : Char} (ho : isBoundary opening = true) {cs inner : List Char}
    (h : unwrap opening closing cs = some inner) : Piece cs inner := by
  rw [unwrap_eq_append h]
  exact of_boundary ho ⟨[], [closing], rfl⟩

lemma Piece.stripBraces {what : String} {cs inner : List Char}
    (h : stripBraces what cs = .ok inner) : Piece cs inner :=
  (Piece.trim cs).trans (Piece.unwrap (by decide) (orRefuse_eq_ok.mp h))

lemma completes_stripBraces (what : String) (cs : List Char) : Completes (stripBraces what cs) :=
  Completes.orRefuse _ _

lemma Piece.splitTopLevel {cs : List Char} {parts : List (List Char)}
    (h : splitTopLevel cs = .ok parts) : ∀ part ∈ parts, Piece cs part := by
  unfold Text.splitTopLevel at h
  dsimp only at h
  split at h
  · exact absurd h refuse_ne_ok
  · exact absurd h refuse_ne_ok
  · next found hfound =>
    split at h
    · exact absurd h refuse_ne_ok
    · obtain rfl := Except.ok.inj h
      obtain ⟨first, rest, rfl, hfirst, hrest⟩ := partFrom_isInfix hfound
      intro part hpart
      obtain ⟨raw, hraw, rfl⟩ := List.mem_map.mp hpart
      have hpiece : Piece cs raw := by
        rcases List.mem_cons.mp hraw with rfl | hraw
        · exact of_isPrefix hfirst
        · exact of_boundary (by decide) (hrest raw hraw)
      exact hpiece.trans (Piece.trim raw)

lemma completes_splitTopLevel (cs : List Char) : Completes (splitTopLevel cs) := by
  unfold splitTopLevel
  dsimp only
  split
  · exact Completes.refuse _
  · exact Completes.refuse _
  · split
    · exact Completes.refuse _
    · exact Completes.ok _

/-- Behind a separator stands an end of the text, without white space in front. -/
def Behind (cs rest : List Char) : Prop := ∃ after, ';' :: after <:+ cs ∧ rest = trimStart after

namespace Behind

variable {cs rest : List Char}

lemma piece (h : Behind cs rest) : Piece cs rest := by
  obtain ⟨after, hafter, rfl⟩ := h
  exact (Piece.of_boundary (by decide) hafter.isInfix).trans (Piece.trimStart after)

lemma suffix (h : Behind cs rest) : rest <:+ cs := by
  obtain ⟨after, hafter, rfl⟩ := h
  exact (trimStart_suffix after).trans ((List.suffix_cons ';' after).trans hafter)

lemma length_lt (h : Behind cs rest) : rest.length < cs.length := by
  obtain ⟨after, hafter, rfl⟩ := h
  have hlen := hafter.length_le
  have htrim := (trimStart_suffix after).length_le
  rw [List.length_cons] at hlen
  omega

lemma trimStart_eq (h : Behind cs rest) : trimStart rest = rest := by
  obtain ⟨after, -, rfl⟩ := h
  exact trimStart_trimStart after

end Behind

lemma behind_of_dropWord {word : String} {cs tail name after : List Char}
    (htail : dropWord word cs = .ok (some tail))
    (hsplit : splitOnce ';' tail = some (name, after)) : Behind cs (trimStart after) := by
  obtain ⟨head, hhead, -⟩ := dropWord_eq_some htail
  refine ⟨after, ?_, rfl⟩
  rw [hhead, splitOnce_eq_append hsplit, ← List.append_assoc]
  exact List.suffix_append _ _

end TemporalAlgebra.Text
