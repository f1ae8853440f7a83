import TemporalAlgebra.Proofs.SpanSet.Decoding
import TemporalAlgebra.Proofs.Temporal.Assembly
import TemporalAlgebra.Proofs.Temporal.RoundTrip

/-!
# Decoding temporal values

Whatever bytes are decoded, the temporal values have passed the checks with which values are built.
With the spans and the sets, decoding can be relied on for all bytes.
-/
namespace TemporalAlgebra

open Binary Reader

/-- Values that are decoded reliably, whatever is written in front of them. -/
class ReliableValue (V : Type) [TemporalValue V] [BinaryValue V] : Prop where
  reliable : ∀ context, Reliable (BaseValue.readForm context : Reader V) BinaryValue.Fits

instance : ReliableValue Bool where
  reliable _ := by
    refine (reliable_nat 1).bind fun n _ => ?_
    match n with
    | 0 | 1 => exact reliable_pure trivial
    | n + 2 => exact reliable_fail _

instance : ReliableValue Integer where
  reliable _ := reliable_readWord 4

instance : ReliableValue String where
  reliable _ := by
    refine (reliable_nat 8).bind fun size hsize => (reliable_take size).bind fun bytes hlen => ?_
    cases hdecode : decodeText bytes with
    | error fault => exact reliable_fail _
    | ok cs =>
      refine reliable_pure ?_
      change (encodeText (String.ofList cs).toList).length < 2 ^ 64
      have := length_le_of_decodeText hdecode
      rw [String.toList_ofList]
      omega

variable {V : Type} [TemporalValue V]

namespace Sequence

lemma instants_of_make [LawfulValue V] {instants : List (Instant V)} {lowerInc upperInc : Bool}
    {interp : Interpolation} {s : Sequence V}
    (h : make instants lowerInc upperInc interp false = .ok s) :
    s.instants = instants ∧ s.rebuilt = s := by
  cases instants with
  | nil => simp [make] at h
  | cons first rest =>
    obtain ⟨-, -, rfl⟩ := makeRun_eq_ok_iff.mp h
    exact ⟨rfl, rfl⟩

end Sequence

namespace SequenceSet

lemma rebuilt_of_make {pieces : List (Sequence V)} {set : SequenceSet V}
    (h : make pieces false = .ok set) (hrebuilt : ∀ s ∈ pieces, s.rebuilt = s) :
    set.rebuilt = set := by
  have hset := make_rebuilt h
  rw [List.map_congr_left hrebuilt, List.map_id', h] at hset
  exact (Except.ok.inj hset).symm

end SequenceSet

section

variable [BinaryValue V]

/-- A sequence as it is read: it has passed its checks, its box is computed from its instants, and
its instants can be counted and written. -/
structure Sequence.Readable (s : Sequence V) : Prop where
  wellFormed : s.WellFormed
  rebuilt_eq : s.rebuilt = s
  length_lt : s.instants.length < 2 ^ 32
  fits : ∀ i ∈ s.instants, BinaryValue.Fits i.value

/-- A value as it is read: it has passed its checks, its boxes are computed from its instants, and
all of it can be written. -/
structure Temporal.Readable (v : Temporal V) : Prop where
  wellFormed : v.WellFormed
  rebuilt_eq : v.rebuilt = v
  writable : v.Writable

namespace Temporal

lemma readable_instant {i : Instant V} (h : BinaryValue.Fits i.value) :
    (instant i).Readable where
  wellFormed := trivial
  rebuilt_eq := rfl
  writable :=
    ⟨by simp [sequences], by simp [sequences, Sequence.ofInstant, Sequence.instants],
      by simpa [sequences, Sequence.ofInstant, Sequence.instants] using h⟩

lemma readable_sequence {s : Sequence V} (h : s.Readable) : (sequence s).Readable where
  wellFormed := h.wellFormed
  rebuilt_eq := congrArg sequence h.rebuilt_eq
  writable :=
    ⟨by simp [sequences], List.forall_mem_singleton.mpr h.length_lt,
      List.forall_mem_singleton.mpr h.fits⟩

/-- Read a value whose form and interpolation are known. -/
def readParts (subtype : Subtype) (interp : Reader Interpolation) (context : ValueContext) :
    Reader (Temporal V) := do
  match subtype with
  | .instant => return instant (← Instant.readBody context)
  | .sequence => return sequence (← Sequence.readBody (← interp) context)
  | .sequenceSet => return sequenceSet (← readSet (← interp) context)

end Temporal

variable [ReliableValue V]

lemma Instant.reliable_readBody (context : ValueContext) :
    Reliable (readBody context : Reader (Instant V)) fun i => BinaryValue.Fits i.value :=
  (ReliableValue.reliable context).bind fun _ hvalue =>
    (reliable_int 8).bind fun _ _ => reliable_pure hvalue

variable [StepValue V]

lemma Sequence.reliable_readBody (interp : Interpolation) (context : ValueContext) :
    Reliable (readBody interp context : Reader (Sequence V)) Readable := by
  refine (reliable_count _).bind fun n hn => reliable_boundFlags.bind fun flags _ => ?_
  refine ((Instant.reliable_readBody context).many n).bind fun instants hi => ?_
  refine reliable_ofResult (silent_make _ _ _ _) fun s hs => ?_
  obtain ⟨hinstants, hrebuilt⟩ := instants_of_make hs
  refine ⟨wellFormed_of_make hs, hrebuilt, ?_, ?_⟩
  · rw [hinstants, hi.1]
    exact hn.2
  · rw [hinstants]
    exact hi.2

namespace Temporal

lemma reliable_readSet (interp : Interpolation) (context : ValueContext) :
    Reliable (readSet interp context : Reader (SequenceSet V)) fun set =>
      (sequenceSet set).Readable := by
  refine (Sequence.reliable_readBody interp context).counted SequenceSet.silent_make
    fun pieces hlt hp set hset => ?_
  have hsequences := SequenceSet.sequences_of_make hset
  have hrebuilt := SequenceSet.rebuilt_of_make hset fun s hs => (hp s hs).rebuilt_eq
  refine ⟨SequenceSet.wellFormed_of_make (fun s hs => (hp s hs).wellFormed) hset,
    congrArg sequenceSet hrebuilt, ?_, ?_, ?_⟩
  · change set.sequences.length < 2 ^ 32
    rw [hsequences]
    exact hlt
  · change ∀ s ∈ set.sequences, _
    rw [hsequences]
    exact fun s hs => (hp s hs).length_lt
  · change ∀ s ∈ set.sequences, _
    rw [hsequences]
    exact fun s hs => (hp s hs).fits

lemma reliable_readParts (subtype : Subtype) {interp : Reader Interpolation}
    (hinterp : Reliable interp fun _ => True) (context : ValueContext) :
    Reliable (readParts subtype interp context : Reader (Temporal V)) Readable := by
  cases subtype with
  | instant =>
    exact (Instant.reliable_readBody context).bind fun i hi => reliable_pure (readable_instant hi)
  | sequence =>
    exact hinterp.bind fun interp _ => (Sequence.reliable_readBody interp context).bind fun s hs =>
      reliable_pure (readable_sequence hs)
  | sequenceSet =>
    exact hinterp.bind fun interp _ => (reliable_readSet interp context).bind fun s hs =>
      reliable_pure hs

lemma reliable_readBody (flags : TemporalFlags) :
    Reliable (readBody flags : Reader (Temporal V)) Readable := by
  have hsrid : ∀ read : Integer → Reader (Temporal V), (∀ srid, Reliable (read srid) Readable) →
      Reliable (if flags.hasSrid then SpanDomain.readWord 4 >>= read
        else pure unknownSrid >>= read) Readable := by
    intro read hread
    split
    · exact (reliable_readWord 4).bind fun srid _ => hread srid
    · exact hread unknownSrid
  unfold readBody
  cases Subtype.ofCode? flags.subtype with
  | none => exact reliable_fail _
  | some subtype =>
    refine hsrid _ fun srid => ?_
    cases Interpolation.ofCode? flags.interp with
    | none => exact reliable_readParts subtype (reliable_fail _) ⟨srid, flags.hasZ⟩
    | some interp => exact reliable_readParts subtype (reliable_pure trivial) ⟨srid, flags.hasZ⟩

/-- Temporal values are decoded well-formed, with boxes that are computed from their instants. -/
theorem decodesReliably :
    DecodesReliably (Temporal V) fun v => v.WellFormed ∧ v.rebuilt = v := by
  refine (decodesReliably_of_read (p := Readable) ?_ fun v hv variant => ?_).imp
    fun v hv => ⟨hv.wellFormed, hv.rebuilt_eq⟩
  · refine reliable_order.bind fun _ _ => (reliable_type _).bind fun _ _ => ?_
    refine (reliable_nat 1).bind fun n _ => ?_
    cases TemporalFlags.ofCode? n with
    | none => exact reliable_fail _
    | some flags => exact reliable_readBody flags
  · refine ⟨v.form variant, encode_eq hv.writable variant, ?_⟩
    rw [decode_form hv.wellFormed hv.writable, hv.rebuilt_eq]

end Temporal

end

/-- What is made of the values of a domain is decoded reliably: spans are canonical and not empty,
span sets are in normal form, and the values of a set rise strictly. -/
structure DecodesDomain (α : Type) [SpanDomain α] [LawfulDomain α] : Prop where
  spans : DecodesReliably (Span α) Span.Valid
  spanSets : DecodesReliably (SpanSet α) SpanSet.WellFormed
  valueSets : DecodesReliably (ValueSet α) ValueSet.Ascending

lemma decodesDomain (α : Type) [SpanDomain α] [LawfulDomain α] [SuccessorDomain α]
    [WordDomain α] : DecodesDomain α :=
  ⟨Span.decodesReliably, SpanSet.decodesReliably, ValueSet.decodesReliably⟩

/-- Any bytes are refused as no binary form or are decoded as a value that has passed all checks
and is read back from its own bytes. No other refusal is possible, and bytes that are a form are
none when some are missing at their end or more follow. -/
theorem decoding_is_reliable :
    DecodesDomain Integer ∧ DecodesDomain Bigint ∧ DecodesDomain Date ∧ DecodesDomain Timestamp ∧
      (DecodesReliably (Temporal Bool) fun v => v.WellFormed ∧ v.rebuilt = v) ∧
      (DecodesReliably (Temporal Integer) fun v => v.WellFormed ∧ v.rebuilt = v) ∧
      (DecodesReliably (Temporal String) fun v => v.WellFormed ∧ v.rebuilt = v) :=
  ⟨decodesDomain Integer, decodesDomain Bigint, decodesDomain Date, decodesDomain Timestamp,
    Temporal.decodesReliably, Temporal.decodesReliably, Temporal.decodesReliably⟩

/-- An empty span is refused like bytes that are no form. -/
example : (BinaryForm.decode [1, 19, 0, 1, 5, 0, 0, 0, 5, 0, 0, 0] : Result (Span Integer)) =
    .error (.refused (.binaryInput "Invalid argument value: Span cannot be empty") 1) := by
  rfl

end TemporalAlgebra
