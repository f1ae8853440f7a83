import Mathlib.Logic.Relation
import TemporalAlgebra.Proofs.Box.Completion
import TemporalAlgebra.Proofs.Temporal.Joining
import TemporalAlgebra.Temporal.Text
import TemporalAlgebra.Value.Compound

/-!
# Reading temporal values to the end

Sequences and sets of them are put together without giving up, unless they are interpolated between
timestamps that lie too far apart. In front of a value stand options, and at each place where one
may stand the text is compared with two words. If no comparison cuts the text inside a character,
reading the value ends with a value or a refusal, as long as reading its timestamps and its values
does.
-/
namespace TemporalAlgebra

open Text

/-- Values which are compared with each other without giving up. -/
class SteadyValue (V : Type) [TemporalValue V] : Prop where
  compatible : ∀ x y : V, Completes (TemporalValue.compatible x y)

instance {V : Type} [TemporalValue V] [StepValue V] : SteadyValue V where
  compatible x y := by
    rw [StepValue.compatible_eq_ok]
    exact Completes.ok ()

instance : SteadyValue Float where
  compatible _ _ := Completes.ok ()

instance : SteadyValue Pair where
  compatible _ _ := Completes.ok ()

instance : SteadyValue Point where
  compatible _ _ := (Completes.require _ _).bind fun _ _ => Completes.require _ _

/-- Values which are read from every text without giving up. -/
class ReadableValue (V : Type) [TemporalValue V] : Prop extends SteadyValue V where
  read : ∀ (context : ValueContext) (cs : List Char),
    Completes (BaseValue.read context cs : Result V)

instance : ReadableValue Bool where
  read _ cs := by
    change Completes (readTruth cs)
    unfold readTruth
    dsimp only
    split
    · exact Completes.ok _
    · split
      · exact Completes.ok _
      · exact Completes.refuse _

instance : ReadableValue Integer where
  read _ _ := Completes.orRefuse _ _

instance : ReadableValue Float where
  read _ _ := Completes.orRefuse _ _

instance : ReadableValue String where
  read _ cs := by
    change Completes (Quoted.read cs)
    unfold Quoted.read
    dsimp only
    split
    · exact Completes.ok _
    · split
      · exact Completes.refuse _
      · exact Completes.ok _

instance : ReadableValue Pair where
  read _ _ := (Completes.orRefuse _ _).bind fun _ _ => (Completes.orRefuse _ _).bind fun _ _ =>
    (Completes.orRefuse _ _).bind fun _ _ => (Completes.orRefuse _ _).bind fun _ _ =>
      Completes.ok _

namespace Timestamp

/-- A timestamp stands in a text, behind a mark. -/
def Written (cs : List Char) (t : Timestamp) : Prop :=
  ∃ part, '@' :: part <:+: cs ∧ read part = .ok t

lemma Written.of_isInfix {cs part : List Char} {t : Timestamp} (h : Written part t)
    (hpart : part <:+: cs) : Written cs t := by
  obtain ⟨time, htime, hread⟩ := h
  exact ⟨time, htime.trans hpart, hread⟩

/-- Two timestamps stand in a text from one to the other of which the microseconds do not fit in 64
bits. -/
def FarApart (cs : List Char) : Prop :=
  ∃ t u, Written cs t ∧ Written cs u ∧ ¬Fits (u.micros - t.micros)

lemma FarApart.of_isInfix {cs part : List Char} (h : FarApart part) (hpart : part <:+: cs) :
    FarApart cs := by
  obtain ⟨t, u, ht, hu, hfar⟩ := h
  exact ⟨t, u, ht.of_isInfix hpart, hu.of_isInfix hpart, hfar⟩

lemma lt_of_not_farApart {cs : List Char} (h : ¬FarApart cs) {t u : Timestamp} (ht : Written cs t)
    (hu : Written cs u) : u.micros - t.micros < 2 ^ 63 := by
  by_contra hle
  exact h ⟨t, u, ht, hu, fun hfits => hle hfits.2⟩

end Timestamp

/-- The values and the timestamps in a text are read without giving up: the values from its pieces,
the timestamps from what follows a mark. Where values are interpolated, the timestamps do not lie
too far apart. -/
structure ReadsInstants (V : Type) [TemporalValue V] (cs : List Char) : Prop where
  values : ∀ (context : ValueContext) (part : List Char), Piece cs part →
    Completes (BaseValue.read context part : Result V)
  times : ∀ part, '@' :: part <:+: cs → ¬Timestamp.Faulty part
  near : TemporalValue.continuous V = true → ¬Timestamp.FarApart cs

/-- Points are read from the pieces of a text whose comparison with the mark of a reference system
does not break. -/
lemma Point.completes_readIn {cs : List Char} (h : ¬BreaksAt "SRID=" (trim cs))
    (context : ValueContext) : Completes (readIn context cs) := by
  refine (completes_read h).bind fun p _ => ?_
  split
  · exact Completes.ok _
  · exact (Completes.require _ _).bind fun _ _ => Completes.ok _

namespace TextOptions

/-- One of the comparisons for an option at the start of the text breaks. -/
def Breaks (cs : List Char) : Prop :=
  BreaksAt "SRID=" cs ∨ dropWord "SRID=" cs = .ok none ∧ BreaksAt "Interp=" cs

variable {input cs : List Char} {options : TextOptions}

def Step (input : List Char) (place next : TextOptions × List Char) : Prop :=
  place.1.splitOne input place.2 = .ok (some next)

/-- The places of a text at which an option may stand, with the options before them. -/
def Reaches (input : List Char) : TextOptions × List Char → Prop :=
  Relation.ReflTransGen (Step input) ({}, trimStart input)

lemma behind_of_splitOne (htrim : trimStart cs = cs) {next : TextOptions × List Char}
    (h : options.splitOne input cs = .ok (some next)) : Behind cs next.2 := by
  unfold splitOne at h
  rw [bind_eq_ok] at h
  obtain ⟨mark, hmark, h⟩ := h
  cases mark with
  | some tail =>
    simp only [Option.isSome_some, if_true, bind_eq_ok, pure_eq_ok] at h
    obtain ⟨⟨srid, rest⟩, hsrid, hparts⟩ := h
    rw [← Option.some.inj hparts]
    rcases splitSrid_cases hsrid with ⟨hnone, -⟩ | hbehind
    · rw [htrim, hmark] at hnone
      cases hnone
    · rwa [htrim] at hbehind
  | none =>
    simp only [Option.isSome_none, Bool.false_eq_true, if_false, bind_eq_ok] at h
    obtain ⟨tail, htail, h⟩ := h
    cases tail with
    | none => simp at h
    | some tail =>
      simp only [bind_eq_ok, pure_eq_ok, orRefuse_eq_ok] at h
      obtain ⟨⟨name, after⟩, hsplit, _, -, hparts⟩ := h
      rw [← Option.some.inj hparts]
      exact behind_of_dropWord htail hsplit

lemma completes_readInterp (name : List Char) : Completes (readInterp name) := by
  unfold readInterp
  dsimp only
  split
  · exact Completes.ok _
  · exact Completes.ok _
  · exact Completes.refuse _

lemma splitOne_eq_aborted (htrim : trimStart cs = cs) :
    options.splitOne input cs = .error .aborted ↔ Breaks cs := by
  unfold splitOne Breaks
  rw [bind_eq_aborted, dropWord_eq_aborted]
  refine or_congr_right ⟨?_, ?_⟩
  · rintro ⟨mark, hmark, h⟩
    cases mark with
    | some tail =>
      rw [Option.isSome_some, if_pos rfl, bind_eq_aborted] at h
      rcases h with h | ⟨_, -, h⟩
      · -- The mark was found, so that looking for it once more does not break.
        rw [splitSrid_eq_aborted, htrim, ← dropWord_eq_aborted, hmark] at h
        cases h
      · cases h
    | none =>
      rw [Option.isSome_none, if_neg (by simp), bind_eq_aborted_iff, dropWord_eq_aborted] at h
      · exact ⟨hmark, h⟩
      · intro tail _
        cases tail with
        | none => exact Completes.ok _
        | some tail =>
          refine (Completes.orRefuse _ _).bind fun parts _ => ?_
          obtain ⟨name, rest⟩ := parts
          exact (completes_readInterp name).bind fun _ _ => Completes.ok _
  · rintro ⟨hmark, hbreaks⟩
    refine ⟨none, hmark, ?_⟩
    rw [Option.isSome_none, if_neg (by simp)]
    exact bind_eq_aborted.mpr (.inl (dropWord_eq_aborted.mpr hbreaks))

/-- Splitting off the options is given up if a comparison breaks at one of the places at which an
option may stand. -/
lemma split_eq_aborted (htrim : trimStart cs = cs) : split input options cs = .error .aborted ↔
    ∃ place, Relation.ReflTransGen (Step input) (options, cs) place ∧ Breaks place.2 := by
  -- A break is either here or behind the option that is split off here.
  fun_induction split input options cs with
  | case1 options cs f hone =>
    have hhere : options.splitOne input cs = .error .aborted ↔ Breaks cs :=
      splitOne_eq_aborted htrim
    rw [hone, Except.error.injEq] at hhere
    rw [Except.error.injEq, hhere]
    constructor
    · exact fun hbreaks => ⟨(options, cs), .refl, hbreaks⟩
    · rintro ⟨place, hreach, hbreaks⟩
      rcases hreach.cases_head with rfl | ⟨next, hstep, -⟩
      · exact hbreaks
      · exact nomatch hone.symm.trans hstep
  | case2 options cs hone =>
    refine ⟨(nomatch ·), ?_⟩
    rintro ⟨place, hreach, hbreaks⟩
    rcases hreach.cases_head with rfl | ⟨next, hstep, -⟩
    · exact nomatch hone.symm.trans ((splitOne_eq_aborted htrim).mpr hbreaks)
    · exact nomatch hone.symm.trans hstep
  | case3 options cs next after hone hlt ih =>
    rw [ih (behind_of_splitOne htrim hone).trimStart_eq]
    constructor
    · rintro ⟨place, hreach, hbreaks⟩
      exact ⟨place, .head hone hreach, hbreaks⟩
    · rintro ⟨place, hreach, hbreaks⟩
      rcases hreach.cases_head with rfl | ⟨other, hstep, hreach⟩
      · exact nomatch hone.symm.trans ((splitOne_eq_aborted htrim).mpr hbreaks)
      · obtain rfl := Option.some.inj (Except.ok.inj (hone.symm.trans hstep))
        exact ⟨place, hreach, hbreaks⟩
  | case4 options cs next after hone hle =>
    exact absurd (behind_of_splitOne htrim hone).length_lt hle

lemma split_piece (htrim : trimStart cs = cs) {found : TextOptions} {rest : List Char}
    (h : split input options cs = .ok (found, rest)) : Piece cs rest := by
  fun_induction split input options cs with
  | case1 => simp at h
  | case2 options cs hone =>
    obtain ⟨-, rfl⟩ := Prod.mk.inj (Except.ok.inj h)
    exact Piece.refl cs
  | case3 options cs next after hone hlt ih =>
    have hbehind := behind_of_splitOne htrim hone
    exact hbehind.piece.trans (ih hbehind.trimStart_eq h)
  | case4 options cs next after hone hle =>
    exact absurd (behind_of_splitOne htrim hone).length_lt hle

end TextOptions

variable {V : Type} [TemporalValue V]

lemma ReadsInstants.piece {cs part : List Char} (h : ReadsInstants V cs) (hpart : Piece cs part) :
    ReadsInstants V part :=
  ⟨fun context _ hpiece => h.values context _ (hpart.trans hpiece),
    fun _ htime => h.times _ (htime.trans hpart.isInfix),
    fun hc hfar => h.near hc (hfar.of_isInfix hpart.isInfix)⟩

namespace Instant

variable {cs : List Char} (context : ValueContext)

lemma completes_read (h : ReadsInstants V cs) :
    Completes (read context cs : Result (Instant V)) := by
  refine (Completes.orRefuse _ _).bind fun ⟨value, time⟩ hsplit => ?_
  have hparts := splitLast_eq_append (orRefuse_eq_ok.mp hsplit)
  have hvalue : Piece cs value := Piece.of_isPrefix ⟨'@' :: time, hparts.symm⟩
  have htime : '@' :: time <:+: cs := ⟨value, [], by rw [List.append_nil, hparts]⟩
  exact (h.values context value hvalue).bind fun _ _ =>
    (Timestamp.completes_read.mpr (h.times time htime)).bind fun _ _ => Completes.ok _

lemma completes_readAll (h : ReadsInstants V cs) :
    Completes (readAll context cs : Result (List (Instant V))) :=
  (completes_splitTopLevel cs).bind fun _ hparts => Completes.mapM fun part hpart =>
    completes_read context (h.piece (Piece.splitTopLevel hparts part hpart))

lemma returns_written_readAll (cs : List Char) :
    Returns (∀ i ∈ ·, Timestamp.Written cs i.time)
      (readAll context cs : Result (List (Instant V))) := by
  intro instants h i hi
  obtain ⟨parts, hparts, hread⟩ := bind_eq_ok.mp h
  obtain ⟨part, hpart, hi⟩ := mem_of_mapM_eq_ok hread hi
  have hinfix := (Piece.splitTopLevel hparts part hpart).isInfix
  unfold read at hi
  simp only [bind_eq_ok, orRefuse_eq_ok, pure_eq_ok] at hi
  obtain ⟨⟨value, time⟩, hsplit, _, -, t, ht, rfl⟩ := hi
  have htime : '@' :: time <:+: part :=
    ⟨value, [], by rw [List.append_nil, splitLast_eq_append hsplit]⟩
  exact ⟨time, htime.trans hinfix, ht⟩

end Instant

lemma SequenceSet.completes_checkKinds (interp : Interpolation) (sequences : List (Sequence V)) :
    Completes (checkKinds interp sequences) := by
  induction sequences with
  | nil => exact Completes.ok ()
  | cons s rest ih =>
    exact (Completes.require _ _).bind fun _ _ => (Completes.require _ _).bind fun _ _ => ih

variable [SteadyValue V] [LawfulValue V]

namespace Sequence

omit [LawfulValue V] in
lemma completes_checkRising (a : Instant V) (rest : List (Instant V)) :
    Completes (checkRising a rest) := by
  induction rest generalizing a with
  | nil => exact Completes.ok ()
  | cons b rest ih =>
    exact (Completes.require _ _).bind fun _ _ => (SteadyValue.compatible _ _).bind fun _ _ => ih b

omit [LawfulValue V] in
lemma completes_check (first : Instant V) (rest : List (Instant V)) (lowerInc upperInc : Bool)
    (interp : Interpolation) : Completes (check first rest lowerInc upperInc interp) :=
  (Completes.require _ _).bind fun _ _ => (completes_checkRising _ _).bind fun _ _ =>
    (Completes.require _ _).bind fun _ _ => Completes.require _ _

section

variable {cs : List Char} (hnear : TemporalValue.continuous V = true → ¬Timestamp.FarApart cs)
include hnear

lemma completes_make {instants : List (Instant V)}
    (h : ∀ i ∈ instants, Timestamp.Written cs i.time) (lowerInc upperInc : Bool)
    (interp : Interpolation) (normalizing : Bool) :
    Completes (make instants lowerInc upperInc interp normalizing) := by
  cases instants with
  | nil => exact Completes.refuse _
  | cons first rest =>
    refine (completes_check first rest lowerInc upperInc interp).bind fun _ hcheck => ?_
    have hchecked := check_eq_ok_iff.mp hcheck
    refine (completes_makeRun hchecked fun _ => ?_).right hcheck
    refine completes_normalize hchecked.rising fun hl => ?_
    exact Timestamp.lt_of_not_farApart (hnear (hchecked.linear hl)) (h first (by simp))
      (h _ List.getLastD_mem_cons)

variable {interp : Interpolation} {context : ValueContext}

lemma completes_read_of_readAll
    (h : Piece (trim cs) ((trim cs).drop 1).dropLast →
      Completes (Instant.readAll context ((trim cs).drop 1).dropLast :
        Result (List (Instant V)))) :
    Completes (read interp context cs : Result (Sequence V)) := by
  refine (Completes.orRefuse _ _).bind fun _ hopening => (Completes.orRefuse _ _).bind fun _ _ => ?_
  have hinner := Span.piece_inner (orRefuse_eq_ok.mp hopening)
  refine (h hinner).bind fun instants hread => completes_make hnear (fun i hi => ?_) _ _ _ _
  exact (Instant.returns_written_readAll context _ instants hread i hi).of_isInfix
    ((Piece.trim cs).trans hinner).isInfix

end

lemma completes_read {interp : Interpolation} {context : ValueContext} {cs : List Char}
    (h : ReadsInstants V cs) : Completes (read interp context cs : Result (Sequence V)) :=
  completes_read_of_readAll h.near fun hinner =>
    Instant.completes_readAll context (h.piece ((Piece.trim cs).trans hinner))

omit [SteadyValue V] in
lemma returns_written_read (interp : Interpolation) (context : ValueContext) (cs : List Char) :
    Returns (fun s => s.WellFormed ∧ ∀ i ∈ s.instants, Timestamp.Written cs i.time)
      (read interp context cs : Result (Sequence V)) := by
  intro s h
  unfold read at h
  simp only [bind_eq_ok, orRefuse_eq_ok] at h
  obtain ⟨_, hopening, _, -, instants, hread, hs⟩ := h
  have hwritten := Instant.returns_written_readAll context _ instants hread
  have hinner := (Piece.trim cs).trans (Span.piece_inner hopening)
  refine ⟨wellFormed_of_make hs, fun i hi => ?_⟩
  cases instants with
  | nil => exact absurd hs refuse_ne_ok
  | cons first rest =>
    exact (hwritten i ((builtFrom_of_makeRun hs).instants_subset i hi)).of_isInfix hinner.isInfix

end Sequence

namespace SequenceSet

omit [LawfulValue V] in
lemma completes_checkRising (a : Sequence V) (rest : List (Sequence V)) :
    Completes (checkRising a rest) := by
  induction rest generalizing a with
  | nil => exact Completes.ok ()
  | cons b rest ih =>
    exact (Completes.require _ _).bind fun _ _ => (SteadyValue.compatible _ _).bind fun _ _ => ih b

lemma completes_make {cs : List Char}
    (hnear : TemporalValue.continuous V = true → ¬Timestamp.FarApart cs)
    {sequences : List (Sequence V)}
    (h : ∀ s ∈ sequences, s.WellFormed ∧ ∀ i ∈ s.instants, Timestamp.Written cs i.time) :
    Completes (make sequences true) := by
  cases sequences with
  | nil => exact Completes.refuse _
  | cons first rest =>
    refine (completes_checkKinds _ _).bind fun _ hkinds =>
      (completes_checkRising _ _).bind fun _ hrising => ?_
    have hwf : (ofRun first rest).WellFormed := ⟨fun s hs => (h s hs).1, hkinds, hrising⟩
    have hcompat := (rising_of_isChain hwf.sequences (checkRising_eq_ok_iff.mp hrising)).2
    have hshort : (Temporal.sequenceSet (ofRun first rest)).Short := by
      intro hl
      have hfirst := h first (by simp)
      have hlast := h (rest.getLastD first) List.getLastD_mem_cons
      exact Timestamp.lt_of_not_farApart (hnear ((Sequence.wellFormed_iff.mp hfirst.1).linear hl))
        (hfirst.2 first.first (by simp [Sequence.instants])) (hlast.2 _ (Sequence.last_mem _))
    have hnear := Temporal.WellFormed.confined (v := .sequenceSet (ofRun first rest)) hwf hshort
    exact (completes_join hwf.isTrain hcompat hnear).bind fun _ _ => Completes.ok _

end SequenceSet

namespace Temporal

lemma completes_readBraced {interp : Interpolation} {context : ValueContext} {inner : List Char}
    (hnear : TemporalValue.continuous V = true → ¬Timestamp.FarApart inner)
    (hsequences : ((trimStart inner).head?.bind Span.openingInc?).isSome = true →
      ∀ parts, splitTopLevel inner = .ok parts → ∀ part ∈ parts,
        Completes (Sequence.read interp context part : Result (Sequence V)))
    (hinstants : ((trimStart inner).head?.bind Span.openingInc?).isSome = false →
      Completes (Instant.readAll context inner : Result (List (Instant V)))) :
    Completes (readBraced interp context inner : Result (Temporal V)) := by
  unfold readBraced
  split
  · next hopens =>
    refine (completes_splitTopLevel inner).bind fun parts hparts =>
      (Completes.mapM fun part hpart => hsequences hopens parts hparts part hpart).bind
        fun sequences hread => (SequenceSet.completes_make hnear fun s hs => ?_).bind
          fun _ _ => Completes.ok _
    obtain ⟨part, hpart, hs⟩ := mem_of_mapM_eq_ok hread hs
    obtain ⟨hwf, hwritten⟩ := Sequence.returns_written_read _ _ _ s hs
    exact ⟨hwf, fun i hi =>
      (hwritten i hi).of_isInfix (Piece.splitTopLevel hparts part hpart).isInfix⟩
  · next hopens =>
    exact (hinstants (by simpa using hopens)).bind fun instants hread =>
      (Sequence.completes_make hnear (Instant.returns_written_readAll _ _ instants hread)
        _ _ _ _).bind fun _ _ => Completes.ok _

/-- Reading a value is given up if a comparison breaks where an option may stand, and in no other
case if its values and timestamps are read to the end and those that are interpolated between do not
lie too far apart. -/
theorem read_eq_aborted {input : List Char} (h : ReadsInstants V input) :
    (read input : Result (Temporal V)) = .error .aborted ↔
      ∃ place, TextOptions.Reaches input place ∧ TextOptions.Breaks place.2 := by
  unfold read TextOptions.Reaches
  have htrim := trimStart_trimStart input
  rw [bind_eq_aborted_iff, TextOptions.split_eq_aborted htrim]
  rintro ⟨options, body⟩ hsplit
  have hbody : Piece input body :=
    (Piece.trimStart input).trans (TextOptions.split_piece htrim hsplit)
  have hreads := h.piece (hbody.trans (Piece.trim body))
  dsimp only
  split
  · exact Completes.refuse _
  · refine (completes_stripBraces _ _).bind fun inner hinner => ?_
    have hinside := hreads.piece (Piece.stripBraces hinner)
    exact completes_readBraced hinside.near
      (fun _ parts hparts part hpart =>
        Sequence.completes_read (hinside.piece (Piece.splitTopLevel hparts part hpart)))
      fun _ => Instant.completes_readAll _ hinside
  · split
    · exact (Sequence.completes_read hreads).bind fun _ _ => Completes.ok _
    · exact (Instant.completes_read _ hreads).bind fun _ _ => Completes.ok _

end Temporal

end TemporalAlgebra
