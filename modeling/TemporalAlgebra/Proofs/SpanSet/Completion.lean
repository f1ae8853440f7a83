import TemporalAlgebra.Proofs.Time.Completion
import TemporalAlgebra.ValueSet

/-!
# Reading spans and sets to the end

Spans, sets and span sets are put together without giving up. Reading them ends with a value or a
refusal if reading the pieces of the text as values of the domain does.
-/
namespace TemporalAlgebra

open Text

/-- The values of a domain are read from the pieces of a text without giving up. -/
def ReadsPieces (α : Type) [SpanDomain α] (cs : List Char) : Prop :=
  ∀ part, Piece cs part → Completes (SpanDomain.read part : Result α)

/-- A domain in which no step to a next value is given up. -/
class SteadyDomain (α : Type) [SpanDomain α] : Prop where
  successor : ∀ a : α, Completes (SpanDomain.successor a)

instance : SteadyDomain Integer where
  successor _ := Completes.orRefuse _ _

instance : SteadyDomain Bigint where
  successor _ := Completes.orRefuse _ _

instance : SteadyDomain Float where
  successor _ := Completes.ok _

instance : SteadyDomain Date where
  successor _ := Completes.orRefuse _ _

instance : SteadyDomain Timestamp where
  successor _ := Completes.ok _

/-- A domain whose values are read from every text without giving up. -/
class ReadableDomain (α : Type) [SpanDomain α] : Prop extends SteadyDomain α where
  read : ∀ cs, Completes (SpanDomain.read cs : Result α)

instance : ReadableDomain Integer where
  read _ := Completes.orRefuse _ _

instance : ReadableDomain Bigint where
  read _ := Completes.orRefuse _ _

instance : ReadableDomain Float where
  read _ := Completes.orRefuse _ _

instance : ReadableDomain Date where
  read := Date.completes_read

lemma ReadableDomain.readsPieces (α : Type) [SpanDomain α] [ReadableDomain α] (cs : List Char) :
    ReadsPieces α cs := fun part _ => ReadableDomain.read part

lemma Timestamp.readsPieces {cs : List Char} (h : ∀ part, Piece cs part → ¬Faulty part) :
    ReadsPieces Timestamp cs := by
  intro part hpart
  -- A timestamp may stand between quotes, which are left out.
  have hquote (c : Char) (hc : (c == '"') = true) : isBoundary c = true := by
    rw [beq_iff_eq.mp hc]
    rfl
  have hquoted : Piece part (dropEndWhile (· == '"') (part.dropWhile (· == '"'))) :=
    (Piece.dropWhile hquote part).trans (Piece.dropEndWhile _ _)
  exact Timestamp.completes_read.mpr (h _ (hpart.trans hquoted))

variable {α : Type} [SpanDomain α]

lemma ReadsPieces.piece {cs part : List Char} (h : ReadsPieces α cs) (hpart : Piece cs part) :
    ReadsPieces α part := fun _ hpiece => h _ (hpart.trans hpiece)

lemma ValueSet.completes_read {input : List Char} (h : ReadsPieces α input) :
    Completes (read input : Result (ValueSet α)) := by
  refine (completes_stripBraces _ _).bind fun inner hinner =>
    (completes_splitTopLevel inner).bind fun parts hparts => ?_
  refine (Completes.mapM fun part hpart => ?_).bind fun values _ =>
    (Completes.orRefuse _ _).bind fun _ _ => (Completes.require _ _).bind fun _ _ => Completes.ok _
  exact h part ((Piece.stripBraces hinner).trans (Piece.splitTopLevel hparts part hpart))

lemma Span.piece_inner {cs : List Char} {lowerInc : Bool}
    (h : cs.head?.bind openingInc? = some lowerInc) : Piece cs (cs.drop 1).dropLast := by
  obtain ⟨c, hhead, hfound⟩ := Option.bind_eq_some_iff.mp h
  obtain ⟨rest, rfl⟩ := List.head?_eq_some_iff.mp hhead
  have hbracket : isOpening c = true := by
    unfold openingInc? at hfound
    split at hfound
    · rfl
    · rfl
    · simp at hfound
  exact (Piece.of_boundary (isBoundary_of_isOpening hbracket) (List.infix_refl _)).trans
    (Piece.of_isPrefix <| List.dropLast_prefix rest)

variable [SteadyDomain α]

namespace Span

lemma completes_canonical (lower upper : α) (lowerInc upperInc : Bool) :
    Completes (canonical lower upper lowerInc upperInc) := by
  have hcheck (l u : α) : Completes (do
      require (SpanDomain.order l u == .lt) emptyError
      return ⟨l, u, true, false⟩ : Result (Span α)) :=
    (Completes.require _ _).bind fun _ _ => Completes.ok _
  cases lowerInc with
  | true =>
    cases upperInc with
    | true => exact (SteadyDomain.successor upper).bind fun u _ => hcheck lower u
    | false => exact hcheck lower upper
  | false =>
    refine (SteadyDomain.successor lower).bind fun l _ => ?_
    cases upperInc with
    | true => exact (SteadyDomain.successor upper).bind fun u _ => hcheck l u
    | false => exact hcheck l upper

lemma completes_make (lower upper : α) (lowerInc upperInc : Bool) :
    Completes (make lower upper lowerInc upperInc) := by
  unfold make
  refine (Completes.require _ _).bind fun _ _ => (Completes.require _ _).bind fun _ _ =>
    (Completes.require _ _).bind fun _ _ => ?_
  split
  · exact completes_canonical lower upper lowerInc upperInc
  · exact Completes.ok _

lemma completes_read {input : List Char} (h : ReadsPieces α input) :
    Completes (read input : Result (Span α)) := by
  unfold read
  refine (Completes.orRefuse _ _).bind fun lowerInc hopening =>
    (Completes.orRefuse _ _).bind fun upperInc _ =>
    (Completes.orRefuse _ _).bind fun ⟨lower, upper⟩ hcomma => ?_
  have hinner := piece_inner (orRefuse_eq_ok.mp hopening)
  have hparts := splitOnce_eq_append (orRefuse_eq_ok.mp hcomma)
  -- One bound is a piece behind the bracket, the other one behind the comma.
  have hlower : Piece ((trim input).drop 1).dropLast lower := by
    rw [hparts]
    exact Piece.of_isPrefix (List.prefix_append _ _)
  have hupper : Piece ((trim input).drop 1).dropLast upper := by
    rw [hparts]
    exact Piece.of_boundary (by decide) (List.suffix_append _ _).isInfix
  have hbound {part : List Char} (hpart : Piece ((trim input).drop 1).dropLast part) :
      Completes (SpanDomain.read (trim part) : Result α) :=
    h _ ((Piece.trim input).trans (hinner.trans (hpart.trans (Piece.trim part))))
  exact (hbound hlower).bind fun _ _ => (hbound hupper).bind fun _ _ => completes_make _ _ _ _

end Span

lemma SpanSet.completes_read {input : List Char} (h : ReadsPieces α input) :
    Completes (read input : Result (SpanSet α)) := by
  refine (completes_stripBraces _ _).bind fun inner hinner =>
    (completes_splitTopLevel inner).bind fun parts hparts => ?_
  refine (Completes.mapM fun part hpart => ?_).bind fun spans _ => Completes.orRefuse _ _
  exact Span.completes_read (h.piece
    ((Piece.stripBraces hinner).trans (Piece.splitTopLevel hparts part hpart)))

end TemporalAlgebra
