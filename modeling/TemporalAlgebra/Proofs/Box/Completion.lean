import TemporalAlgebra.Box.STBox
import TemporalAlgebra.Box.TBox
import TemporalAlgebra.Proofs.SpanSet.Completion

/-!
# Reading points and boxes to the end

Points and boxes start with a word: the mark of a reference system, or the name of a box. Reading
them is given up if the comparison with this word cuts the text inside a character. Behind the word
only the timestamps of a period can be given up.
-/
namespace TemporalAlgebra

open Text

lemma splitSrid_eq_aborted {cs : List Char} :
    splitSrid cs = .error .aborted ↔ BreaksAt "SRID=" (trimStart cs) := by
  unfold splitSrid
  rw [bind_eq_aborted_iff, dropWord_eq_aborted]
  intro tail _
  cases tail with
  | none => exact Completes.ok _
  | some tail =>
    exact (Completes.orRefuse _ _).bind fun _ _ =>
      (Completes.orRefuse _ _).bind fun _ _ => Completes.ok _

lemma splitSrid_cases {cs rest : List Char} {srid : Option Integer}
    (h : splitSrid cs = .ok (srid, rest)) :
    (dropWord "SRID=" (trimStart cs) = .ok none ∧ rest = trimStart cs) ∨
      Behind (trimStart cs) rest := by
  unfold splitSrid at h
  rw [bind_eq_ok] at h
  obtain ⟨tail, htail, h⟩ := h
  cases tail with
  | none => exact .inl ⟨htail, (Prod.mk.inj (Except.ok.inj h)).2.symm⟩
  | some tail =>
    simp only [bind_eq_ok, pure_eq_ok, orRefuse_eq_ok] at h
    obtain ⟨⟨number, after⟩, hsplit, _, -, hparts⟩ := h
    rw [← (Prod.mk.inj hparts).2]
    exact .inr (behind_of_dropWord htail hsplit)

lemma splitSrid_suffix {cs rest : List Char} {srid : Option Integer}
    (h : splitSrid cs = .ok (srid, rest)) : rest <:+ cs := by
  rcases splitSrid_cases h with ⟨-, rfl⟩ | hbehind
  · exact trimStart_suffix cs
  · exact hbehind.suffix.trans (trimStart_suffix cs)

namespace Point

lemma read_eq_aborted {input : List Char} :
    read input = .error .aborted ↔ BreaksAt "SRID=" (trim input) := by
  unfold read
  rw [bind_eq_aborted_iff, splitSrid_eq_aborted, trimStart_trim]
  rintro ⟨srid, body⟩ -
  refine (Completes.orRefuse _ _).bind fun rest _ => (Completes.orRefuse _ _).bind fun inner _ =>
    (Completes.mapM fun word _ => Completes.orRefuse _ _).bind fun coordinates _ => ?_
  split
  · exact Completes.ok _
  · exact Completes.ok _
  · exact Completes.refuse _

lemma completes_read {input : List Char} (h : ¬BreaksAt "SRID=" (trim input)) :
    Completes (read input) := fun heq => h (read_eq_aborted.mp heq)

end Point

namespace TBox

lemma splitAfterBracket_eq_append {cs span after : List Char}
    (h : splitAfterBracket cs = some (span, after)) : cs = span ++ after := by
  induction cs generalizing span after with
  | nil => simp [splitAfterBracket] at h
  | cons c cs ih =>
    rw [splitAfterBracket] at h
    split at h
    · obtain ⟨rfl, rfl⟩ := Prod.mk.inj (Option.some.inj h)
      rfl
    · obtain ⟨⟨front, back⟩, hfound, hparts⟩ := Option.map_eq_some_iff.mp h
      obtain ⟨rfl, rfl⟩ := Prod.mk.inj hparts
      rw [ih hfound]
      rfl

lemma read_eq_aborted {input : List Char} (h : ReadsPieces Timestamp input) :
    read input = .error .aborted ↔ BreaksAt "TBOX" (trim input) := by
  unfold read
  rw [bind_eq_aborted_iff, dropWord_eq_aborted]
  intro tail htail
  refine (Completes.orRefuse _ _).bind fun body hbody =>
    (Completes.orRefuse _ _).bind fun ⟨dims, after⟩ hsplit => ?_
  obtain ⟨head, hhead, -⟩ := dropWord_eq_some (htail.trans (by rw [orRefuse_eq_ok.mp hbody]))
  have hafter : Piece input after := by
    apply Piece.of_boundary (show isBoundary '(' = true by decide)
    have hopening : '(' :: after <:+: trimStart body :=
      ⟨dims, [], by rw [List.append_nil, splitOnce_eq_append (orRefuse_eq_ok.mp hsplit)]⟩
    have htrimmed : body <:+: trim input := ⟨head, [], by rw [List.append_nil, hhead]⟩
    have hbody : trimStart body <:+: input :=
      (trimStart_suffix body).isInfix.trans (htrimmed.trans (isInfix_trim input))
    exact hopening.trans hbody
  dsimp only
  split
  case h_2 => exact Completes.refuse_bind _ _
  next back heq =>
  -- The dimensions that are named decide which spans stand between the brackets.
  obtain ⟨inner, hinner⟩ : ∃ inner, inner = trim back.reverse := ⟨_, rfl⟩
  rw [← hinner, pure_bind]
  have hinside : Piece input inner := by
    rw [hinner]
    exact hafter.trans ((Piece.of_isPrefix (prefix_of_reverse_eq_cons heq)).trans (Piece.trim _))
  split
  · refine (Completes.orRefuse _ _).bind fun ⟨span, rest⟩ hspan =>
      (Span.completes_read (ReadableDomain.readsPieces Float span)).bind fun s _ => ?_
    split
    · next period hperiod =>
      have hcomma : ',' :: period <:+: inner := by
        rw [splitAfterBracket_eq_append (orRefuse_eq_ok.mp hspan), ← hperiod]
        exact ((trimStart_suffix rest).trans (List.suffix_append _ _)).isInfix
      have hpiece : Piece input period := hinside.trans (Piece.of_boundary (by decide) hcomma)
      exact (Span.completes_read (h.piece hpiece)).bind fun _ _ => Completes.ok _
    · exact Completes.refuse _
  · exact (Span.completes_read (ReadableDomain.readsPieces Float inner)).bind fun _ _ =>
      Completes.ok _
  · exact (Span.completes_read (h.piece hinside)).bind fun _ _ => Completes.ok _
  · exact Completes.refuse _

end TBox

namespace STBox

lemma completes_ofSpace (space : Space) (srid : Integer) : Completes (ofSpace space srid) := by
  refine (Completes.require _ _).bind fun _ _ => (Completes.require _ _).bind fun _ _ => ?_
  cases space.z with
  | none => exact Completes.ok _
  | some z => exact (Completes.require _ _).bind fun _ _ => Completes.ok _

lemma completes_readSpace (error : Error) (srid : Integer) (count : Nat) (cs : List Char) :
    Completes (readSpace error srid count cs) := by
  have hcorner (corner : List Char) : Completes (readCorner error count corner) :=
    (Completes.orRefuse _ _).bind fun _ _ =>
      (Completes.mapM fun _ _ => Completes.orRefuse _ _).bind fun _ _ =>
      (Completes.require _ _).bind fun _ _ => Completes.ok _
  have hcorners (low high : List Float) : Completes (ofCorners srid low high error) := by
    unfold ofCorners
    split
    · exact completes_ofSpace _ _
    · exact completes_ofSpace _ _
    · exact Completes.refuse _
  refine (completes_splitTopLevel cs).bind fun parts _ => ?_
  split
  · next low high _ =>
    exact (hcorner low).bind fun _ _ => (hcorner high).bind fun _ _ => hcorners _ _
  · exact Completes.refuse _

lemma dropName_suffix {cs rest : List Char} {geodetic : Bool}
    (h : dropName cs = some (geodetic, rest)) : rest <:+ cs := by
  unfold dropName at h
  dsimp only at h
  split at h
  · obtain ⟨-, rfl⟩ := Prod.mk.inj (Option.some.inj h)
    exact List.drop_suffix 9 cs
  · split at h
    · obtain ⟨-, rfl⟩ := Prod.mk.inj (Option.some.inj h)
      exact List.drop_suffix 5 cs
    · simp at h

lemma read_eq_aborted {input : List Char} (h : ReadsPieces Timestamp input) :
    read input = .error .aborted ↔ BreaksAt "SRID=" (trimStart input) := by
  unfold read
  dsimp only
  rw [bind_eq_aborted_iff, splitSrid_eq_aborted]
  rintro ⟨srid, body⟩ hsrid
  refine (Completes.orRefuse _ _).bind fun ⟨geodetic, named⟩ hname =>
    (Completes.orRefuse _ _).bind fun ⟨dims, after⟩ hsplit => ?_
  have hafter : Piece input after := by
    apply Piece.of_boundary (show isBoundary '(' = true by decide)
    have hopening : '(' :: after <:+ trimStart named := by
      rw [splitOnce_eq_append (orRefuse_eq_ok.mp hsplit)]
      exact List.suffix_append _ _
    have hnamed := (dropName_suffix (orRefuse_eq_ok.mp hname)).trans (splitSrid_suffix hsrid)
    exact (hopening.trans ((trimStart_suffix named).trans hnamed)).isInfix
  dsimp only
  split
  case h_2 => exact Completes.refuse_bind _ _
  next back heq =>
  obtain ⟨inner, hinner⟩ : ∃ inner, inner = back.reverse := ⟨_, rfl⟩
  rw [← hinner, pure_bind]
  have hinside : Piece input inner := by
    rw [hinner]
    exact hafter.trans
      ((Piece.trimEnd after).trans (Piece.of_isPrefix (prefix_of_reverse_eq_cons heq)))
  have hperiod {part : List Char} (hpart : Piece inner part) :
      Completes (Span.read part : Result Period) :=
    Span.completes_read (h.piece (hinside.trans hpart))
  -- The cases are the names of dimensions: in space only, in both, in time only, and all others.
  split
  case h_1 | h_2 => exact (completes_readSpace _ _ _ _).bind fun _ _ => Completes.ok _
  case h_3 | h_4 =>
    refine ((completes_splitTopLevel inner).bind fun parts hparts => ?_).bind fun _ _ =>
      Completes.ok _
    split
    · next space period =>
      have hpiece := Piece.splitTopLevel hparts period (by simp)
      exact (Completes.orRefuse _ _).bind fun _ _ => (completes_readSpace _ _ _ _).bind fun _ _ =>
        (hperiod hpiece).bind fun _ _ => Completes.ok _
    · exact Completes.refuse _
  case h_5 => exact (hperiod (Piece.refl inner)).bind fun _ _ => Completes.ok _
  case h_6 => exact Completes.refuse_bind _ _

end STBox

end TemporalAlgebra
