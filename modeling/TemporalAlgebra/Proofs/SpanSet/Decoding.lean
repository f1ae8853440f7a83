import TemporalAlgebra.Proofs.Binary.Decoding
import TemporalAlgebra.Proofs.Span.Building
import TemporalAlgebra.Proofs.SpanSet.NormalForm
import TemporalAlgebra.Proofs.ValueSet

/-!
# Decoding spans and sets

Whatever bytes are decoded, the spans are not empty and in canonical form, the span sets are in
normal form, and the values of a set rise.
-/
namespace TemporalAlgebra

open Binary Reader

/-- A domain whose values are words of a fixed width in the binary form. -/
class WordDomain (α : Type) [SpanDomain α] : Prop where
  reliable : Reliable (SpanDomain.readForm : Reader α) fun _ => True
  reads : ∀ (x : α) (variant : Variant),
    Reads variant.little SpanDomain.readForm (SpanDomain.write x variant) x
  size_eq : ∀ (x : α) (variant : Variant),
    (SpanDomain.write x variant).length = SpanDomain.valueSize α

lemma reliable_readWord {w : Nat} (width : Nat) :
    Reliable (SpanDomain.readWord width : Reader (Signed w)) fun _ => True :=
  (reliable_int width).bind fun _ _ => reliable_pure trivial

lemma length_putInt (variant : Variant) (width : Nat) (n : Int) :
    (putInt variant width n).length = width := length_toBytes _ _ _

instance : WordDomain Integer where
  reliable := reliable_readWord 4
  reads x variant := reads_readWord variant.little rfl x
  size_eq x variant := length_putInt variant 4 x.val

instance : WordDomain Bigint where
  reliable := reliable_readWord 8
  reads x variant := reads_readWord variant.little rfl x
  size_eq x variant := length_putInt variant 8 x.val

instance : WordDomain Date where
  reliable := (reliable_readWord 4).map
  reads x variant := by
    change Reads _ (Date.mk <$> SpanDomain.readWord 4) (putInt variant 4 x.days) x
    rw [map_eq_pure_bind]
    exact (reads_readWord variant.little rfl x.ticks).bind_pure rfl
  size_eq x variant := length_putInt variant 4 x.days

instance : WordDomain Timestamp where
  reliable := (reliable_readWord 8).map
  reads x variant := by
    change Reads _ (Timestamp.mk <$> SpanDomain.readWord 8) (putInt variant 8 x.micros) x
    rw [map_eq_pure_bind]
    exact (reads_readWord variant.little rfl x.ticks).bind_pure rfl
  size_eq x variant := length_putInt variant 8 x.micros

lemma reliable_boundFlags : Reliable BoundFlags.read fun _ => True := by
  refine (reliable_nat 1).bind fun flags _ => ?_
  dsimp only
  split
  · exact reliable_fail_bind _ _
  · exact reliable_pure trivial

variable {α : Type} [SpanDomain α]

namespace Span

lemma length_writeBody [WordDomain α] (s : Span α) (variant : Variant) :
    (s.writeBody variant).length = 1 + 2 * SpanDomain.valueSize α := by
  unfold writeBody
  rw [List.length_append, List.length_append, WordDomain.size_eq, WordDomain.size_eq]
  change 1 + _ + _ = _
  omega

variable [LawfulDomain α] [SuccessorDomain α]

lemma silent_make (lower upper : α) (lowerInc upperInc : Bool) :
    Silent (make lower upper lowerInc upperInc) := by
  have hsuccessor : SpanDomain.discrete α = true → ∀ a : α, Silent (SpanDomain.successor a) := by
    intro hd a
    rcases SuccessorDomain.successor hd a with ⟨b, hb, -⟩ | ⟨⟨cause, hcause⟩, -⟩
    · rw [hb]
      exact Silent.ok b
    · rw [hcause]
      exact Silent.refuse cause
  unfold make
  refine (Silent.require _ _).bind fun _ => (Silent.require _ _).bind fun _ =>
    (Silent.require _ _).bind fun _ => ?_
  cases hd : SpanDomain.discrete α with
  | false => exact Silent.ok _
  | true =>
    rw [if_pos rfl, canonical_eq]
    refine Silent.bind ?_ fun l => Silent.bind ?_ fun u => (Silent.require _ _).bind fun _ =>
      Silent.ok _
    · cases lowerInc with
      | true => exact Silent.ok lower
      | false => exact hsuccessor hd lower
    · cases upperInc with
      | true => exact hsuccessor hd upper
      | false => exact Silent.ok upper

variable [WordDomain α]

lemma reliable_readBody : Reliable (readBody : Reader (Span α)) Valid := by
  refine reliable_boundFlags.bind fun flags _ => ?_
  refine WordDomain.reliable.bind fun lower _ => WordDomain.reliable.bind fun upper _ => ?_
  exact reliable_ofResult (silent_make _ _ _ _) fun s hs => (make_spec hs).1

lemma Valid.reads_body {s : Span α} (h : s.Valid) (variant : Variant) :
    Reads variant.little readBody (s.writeBody variant) s := by
  unfold writeBody
  rw [List.append_assoc]
  apply (reads_boundFlags _ _ _).bind
  apply (WordDomain.reads s.lower variant).bind
  apply (WordDomain.reads s.upper variant).bind_pure
  rw [h.make_eq]
  rfl

lemma Valid.decode_encode {s : Span α} (h : s.Valid) (variant : Variant) :
    ∃ bytes, BinaryForm.encode s variant = .ok bytes ∧ BinaryForm.decode bytes = .ok s := by
  refine ⟨_, rfl, reported_eq_ok.mpr ?_⟩
  rw [List.append_assoc]
  apply whole_order
  exact (reads_type variant.little (SpanDomain.spanType α)).bind (h.reads_body variant)

lemma reliable_read : Reliable (BinaryForm.read : Reader (Span α)) Valid :=
  reliable_order.bind fun _ _ => (reliable_type _).bind fun _ _ => reliable_readBody

/-- Spans are decoded as canonical spans that are not empty. -/
theorem decodesReliably : DecodesReliably (Span α) Valid :=
  decodesReliably_of_read reliable_read fun _ hs => hs.decode_encode

end Span

namespace SpanSet

lemma length_join_le (current : Span α) (rest : List (Span α)) :
    (join current rest).spans.length ≤ rest.length + 1 := by
  induction rest generalizing current with
  | nil => exact le_refl 1
  | cons s rest ih =>
    rw [join]
    split
    · exact Nat.le_succ_of_le (ih _)
    · exact Nat.succ_le_succ (ih s)

lemma length_le_of_ofSpans? {spans : List (Span α)} {set : SpanSet α}
    (h : ofSpans? spans = some set) : set.spans.length ≤ spans.length := by
  have hlen : (sort spans).length = spans.length := List.length_mergeSort spans
  unfold ofSpans? at h
  split at h
  · simp at h
  · rename_i first rest hsort
    obtain rfl := Option.some.inj h
    rw [hsort, List.length_cons] at hlen
    exact hlen ▸ length_join_le first rest

variable [LawfulDomain α]

/-- A set in normal form whose spans can be counted. -/
structure Writable (s : SpanSet α) : Prop where
  wellFormed : s.WellFormed
  length_lt : s.spans.length < 2 ^ 32

variable [SuccessorDomain α] [WordDomain α]

lemma reliable_read : Reliable (BinaryForm.read : Reader (SpanSet α)) Writable := by
  refine reliable_order.bind fun _ _ => (reliable_type _).bind fun _ _ => ?_
  refine Span.reliable_readBody.counted (fun _ => Silent.orRefuse _ _)
    fun spans hlt hs set hset => ?_
  have hfound := orRefuse_eq_ok.mp hset
  refine ⟨wellFormed_of_mem_ofSpans? hs hfound, ?_⟩
  exact Nat.lt_of_le_of_lt (length_le_of_ofSpans? hfound) hlt

lemma Writable.decode_encode {s : SpanSet α} (h : s.Writable) (variant : Variant) :
    ∃ bytes, BinaryForm.encode s variant = .ok bytes ∧ BinaryForm.decode bytes = .ok s := by
  have hne : s.spans ≠ [] := List.cons_ne_nil _ _
  have hcount : putCount variant s.spans.length = .ok (toBytes variant.little 4 s.spans.length) :=
    if_pos h.length_lt
  refine ⟨putOrder variant ++ putType variant (SpanDomain.spanSetType α) ++
    toBytes variant.little 4 s.spans.length ++ s.spans.flatMap fun x => x.writeBody variant,
    reported_eq_ok.mpr (bind_eq_ok.mpr ⟨_, hcount, rfl⟩), reported_eq_ok.mpr ?_⟩
  rw [List.append_assoc, List.append_assoc]
  apply whole_order
  apply (reads_type variant.little (SpanDomain.spanSetType α)).bind
  apply Reads.counted hne h.length_lt
  · exact fun x _ => Nat.le_of_eq (x.length_writeBody variant).symm
  · exact fun x hx => (h.wellFormed.normal.valid x hx).reads_body variant
  · rw [h.wellFormed.ofSpans?_eq]
    rfl

/-- Span sets are decoded in normal form. -/
theorem decodesReliably : DecodesReliably (SpanSet α) WellFormed :=
  (decodesReliably_of_read reliable_read fun _ hs => hs.decode_encode).imp
    fun _ hs => hs.wellFormed

end SpanSet

namespace ValueSet

lemma length_distinctAfter_le (current : α) (values : List α) :
    (distinctAfter current values).length ≤ values.length := by
  induction values generalizing current with
  | nil => exact le_refl 0
  | cons x rest ih =>
    rw [distinctAfter]
    split
    · exact Nat.le_succ_of_le (ih current)
    · exact Nat.succ_le_succ (ih x)

lemma length_le_of_make {values : List α} {s : ValueSet α} (h : make values = .ok s) :
    s.values.length ≤ values.length := by
  have hlen : (values.mergeSort fun a b => SpanDomain.order a b != .gt).length = values.length :=
    List.length_mergeSort values
  obtain ⟨first, rest, hsort, rfl⟩ := exists_sorted_of_make h
  rw [hsort, List.length_cons] at hlen
  exact hlen ▸ Nat.succ_le_succ (length_distinctAfter_le first rest)

lemma silent_make (values : List α) : Silent (make values) :=
  (Silent.orRefuse _ _).bind fun _ => (Silent.require _ _).bind fun _ => Silent.ok _

variable [LawfulDomain α]

structure Writable (s : ValueSet α) : Prop where
  ascending : s.Ascending
  length_lt : s.values.length < 2 ^ 32

variable [WordDomain α]

lemma reliable_read : Reliable (BinaryForm.read : Reader (ValueSet α)) Writable := by
  refine reliable_order.bind fun _ _ => (reliable_type _).bind fun _ _ => ?_
  refine WordDomain.reliable.counted silent_make fun values hlt _ set hset => ?_
  exact ⟨ascending_of_make hset, Nat.lt_of_le_of_lt (length_le_of_make hset) hlt⟩

lemma Writable.decode_encode [SuccessorDomain α] {s : ValueSet α} (h : s.Writable)
    (variant : Variant) :
    ∃ bytes, BinaryForm.encode s variant = .ok bytes ∧ BinaryForm.decode bytes = .ok s := by
  have hne : s.values ≠ [] := List.cons_ne_nil _ _
  have hcount : putCount variant s.values.length =
      .ok (toBytes variant.little 4 s.values.length) := if_pos h.length_lt
  refine ⟨putOrder variant ++ putType variant (SpanDomain.setType α) ++
    toBytes variant.little 4 s.values.length ++
      s.values.flatMap fun x => SpanDomain.write x variant,
    reported_eq_ok.mpr (bind_eq_ok.mpr ⟨_, hcount, rfl⟩), reported_eq_ok.mpr ?_⟩
  rw [List.append_assoc, List.append_assoc]
  apply whole_order
  apply (reads_type variant.little (SpanDomain.setType α)).bind
  apply Reads.counted hne h.length_lt
  · exact fun x _ => Nat.le_of_eq (WordDomain.size_eq x variant).symm
  · exact fun x _ => WordDomain.reads x variant
  · rw [h.ascending.make_eq]
    rfl

/-- Value sets are decoded with their values in strictly rising order. -/
theorem decodesReliably [SuccessorDomain α] : DecodesReliably (ValueSet α) Ascending :=
  (decodesReliably_of_read reliable_read fun _ hs => hs.decode_encode).imp
    fun _ hs => hs.ascending

end ValueSet

end TemporalAlgebra
