import TemporalAlgebra.Proofs.Binary.Consuming
import TemporalAlgebra.Proofs.Binary.Texts
import TemporalAlgebra.Proofs.SpanSet.Decoding

/-!
# Spans and sets read back

Spans, span sets and value sets are read back from their bytes and from the hexadecimal text of
these, whatever values they hold. A period has no other form in either byte order.
-/
namespace TemporalAlgebra

open Binary Reader

/-- A value is read back from its bytes and from their text, in every variant. -/
def Binary.BinaryForm.RoundTrips {β : Type} [BinaryForm β] (x : β) : Prop :=
  ∀ variant, ∃ bytes text,
    BinaryForm.encode x variant = .ok bytes ∧ BinaryForm.encodeHex x variant = .ok text ∧
      BinaryForm.decode bytes = .ok x ∧ BinaryForm.decodeHex text = .ok x

open BinaryForm (RoundTrips)

/-- What is read back from its bytes is read back from their text. -/
lemma roundTrips_of_decode_encode {β : Type} [BinaryForm β] {x : β}
    (h : ∀ variant, ∃ bytes,
      BinaryForm.encode x variant = .ok bytes ∧ BinaryForm.decode bytes = .ok x) :
    RoundTrips x := by
  intro variant
  obtain ⟨bytes, hencode, hdecode⟩ := h variant
  refine ⟨bytes, toHex bytes, hencode, ?_, hdecode, ?_⟩
  · unfold BinaryForm.encodeHex
    rw [hencode]
    rfl
  · unfold BinaryForm.decodeHex
    rw [ofHex_toHex]
    exact hdecode

/-- Spans and sets over a domain are read back. -/
structure RoundTripsDomain (α : Type) [SpanDomain α] [LawfulDomain α] : Prop where
  span : ∀ s : Span α, s.Valid → RoundTrips s
  spanSet : ∀ s : SpanSet α, s.WellFormed → s.spans.length < 2 ^ 32 → RoundTrips s
  valueSet : ∀ s : ValueSet α, s.Ascending → s.values.length < 2 ^ 32 → RoundTrips s

lemma roundTripsDomain (α : Type) [SpanDomain α] [LawfulDomain α] [SuccessorDomain α]
    [WordDomain α] : RoundTripsDomain α where
  span _ h := roundTrips_of_decode_encode h.decode_encode
  spanSet _ h hlt := roundTrips_of_decode_encode (SpanSet.Writable.mk h hlt).decode_encode
  valueSet _ h hlt := roundTrips_of_decode_encode (ValueSet.Writable.mk h hlt).decode_encode

namespace Period

lemma consumes_readForm : Consumes (SpanDomain.readForm : Reader Timestamp) SpanDomain.write :=
  (consumes_readWord (by decide)).map fun _ _ => rfl

/-- Periods are kept as they are read: their domain has no next elements. -/
lemma make_eq_ok {lower upper : Timestamp} {lowerInc upperInc : Bool} {p : Period}
    (h : Span.make lower upper lowerInc upperInc = .ok p) : p = ⟨lower, upper, lowerInc, upperInc⟩ :=
  (Except.ok.inj (Span.make_eq_ok_iff.mp h).2).symm

lemma consumes_readBody : Consumes (Span.readBody : Reader Period) Span.writeBody := by
  intro cursor next p h
  obtain ⟨flags, atLower, hflags, h⟩ := runAt_bind_eq_ok h
  obtain ⟨lower, atUpper, hlower, h⟩ := runAt_bind_eq_ok h
  obtain ⟨upper, last, hupper, h⟩ := runAt_bind_eq_ok h
  obtain ⟨hmake, rfl⟩ := runAt_ofResult_eq_ok h
  obtain rfl := make_eq_ok hmake
  obtain ⟨hlittle, hflags⟩ := consumes_boundFlags hflags
  obtain ⟨hlittle', hlower⟩ := consumes_readForm hlower
  obtain ⟨hlittle'', hupper⟩ := consumes_readForm hupper
  refine ⟨hlittle''.trans (hlittle'.trans hlittle), fun variant hvariant => ?_⟩
  have hvariant' := hvariant.trans hlittle.symm
  rw [hflags variant hvariant, hlower variant hvariant',
    hupper variant (hvariant'.trans hlittle'.symm)]
  unfold Span.writeBody
  simp only [List.append_assoc]

lemma encode_of_decode {bytes : Bytes} {p : Period} (h : BinaryForm.decode bytes = .ok p) :
    ∃ little, bytes.head? = some (if little then 1 else 0) ∧
      ∀ variant : Variant, variant.little = little → BinaryForm.encode p variant = .ok bytes := by
  obtain ⟨-, little, htakes⟩ := takes_of_decode Span.reliable_read h
  obtain ⟨_, atType, horder, htype⟩ := runAt_bind_eq_ok htakes.runAt
  obtain ⟨_, atBody, htype, hbody⟩ := runAt_bind_eq_ok htype
  have hbytes : bytes = (if atType.little then 1 else 0) :: atType.bytes := bytes_of_runAt_order horder
  obtain ⟨hlittle, htype⟩ := consumes_type _ htype
  refine ⟨atType.little, by rw [hbytes]; rfl, fun variant hvariant => reported_eq_ok.mpr ?_⟩
  have hrest := (consumes_readBody hbody).2 variant (hvariant.trans hlittle.symm)
  rw [hbytes, htype variant hvariant, hrest, ← hvariant]
  change Except.ok (putOrder variant ++ _ ++ _) = _
  rw [List.append_nil, List.append_assoc]
  rfl

end Period

/-- Spans, span sets and value sets are read back from their bytes and from their text, in every
variant, whatever values they hold. Bytes that are read as a period are those of its form in the
order that the first of them names. -/
theorem span_forms_round_trip :
    RoundTripsDomain Integer ∧ RoundTripsDomain Bigint ∧ RoundTripsDomain Date ∧
      RoundTripsDomain Timestamp ∧
      ∀ (bytes : Bytes) (p : Period), BinaryForm.decode bytes = .ok p →
        ∃ little, bytes.head? = some (if little then 1 else 0) ∧
          ∀ variant : Variant, variant.little = little →
            BinaryForm.encode p variant = .ok bytes :=
  ⟨roundTripsDomain Integer, roundTripsDomain Bigint, roundTripsDomain Date,
    roundTripsDomain Timestamp, fun _ _ => Period.encode_of_decode⟩

def widest : Span Bigint := ⟨.minimum, .maximum, true, false⟩

lemma widest_valid : widest.Valid := by
  rw [Span.valid_iff_of_discrete rfl]
  exact ⟨rfl, rfl, by decide⟩

/-- A period of three microseconds from the start of 2000 on, greatest byte first. -/
def firstMicros : Bytes := [0, 0, 39, 1, 0, 0, 0, 0, 0, 0, 0, 0, 0, 0, 0, 0, 0, 0, 0, 3]

/-- The limits of a domain are read back, alone and in sets, and a period is written as it was
read. -/
theorem limits_read_back :
    RoundTrips widest ∧ RoundTrips (SpanSet.ofSpan widest) ∧
      RoundTrips (ValueSet.mk (⟨.minimum⟩ : Date) [⟨.maximum⟩]) ∧
      ∃ p : Period, BinaryForm.decode firstMicros = .ok p ∧
        BinaryForm.encode p .bigEndian = .ok firstMicros := by
  obtain ⟨-, hbigints, hdates, -, hperiods⟩ := span_forms_round_trip
  have hascending : (ValueSet.mk (⟨.minimum⟩ : Date) [⟨.maximum⟩]).Ascending :=
    List.pairwise_pair.mpr (by decide)
  refine ⟨hbigints.span _ widest_valid,
    hbigints.spanSet _ (SpanSet.wellFormed_ofSpan widest_valid) (by decide),
    hdates.valueSet _ hascending (by decide), ⟨.nearest 0, .nearest 3, true, false⟩, rfl, ?_⟩
  obtain ⟨little, hhead, hencode⟩ := hperiods firstMicros ⟨.nearest 0, .nearest 3, true, false⟩ rfl
  exact hencode .bigEndian (by cases little <;> first | rfl | cases hhead)

end TemporalAlgebra
