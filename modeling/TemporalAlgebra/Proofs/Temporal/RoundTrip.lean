import TemporalAlgebra.Proofs.Binary.Reading
import TemporalAlgebra.Proofs.Binary.Texts
import TemporalAlgebra.Proofs.Temporal.Rebuilding
import TemporalAlgebra.Proofs.Temporal.TimeRestriction
import TemporalAlgebra.Temporal.Form

/-!
# Temporal values read back

A temporal value is read back from its binary form, in either byte order, with all that it says:
its form, its interpolation, its bounds and its instants. The boxes are computed anew.
-/
namespace TemporalAlgebra

open Binary Reader

/-- Values that stand alone and are read back from their bytes. -/
class BinaryValue (V : Type) [TemporalValue V] where
  /-- Whether the length of a value can be written. -/
  Fits : V → Prop := fun _ => True
  context_eq : ∀ x : V, TemporalValue.context x = .plain
  least_le : ∀ (x : V) (variant : Variant),
    (BaseValue.baseType V).info.width.getD 8 ≤ (BaseValue.write x variant).length
  reads : ∀ {x : V}, Fits x → ∀ variant : Variant,
    Reads variant.little (BaseValue.readForm .plain) (BaseValue.write x variant) x

instance : BinaryValue Bool where
  context_eq _ := rfl
  least_le _ _ := le_refl 1
  reads {x} _ variant := by
    cases x with
    | false => exact (reads_byte _ (n := 0) (by decide)).bind_pure rfl
    | true => exact (reads_byte _ (n := 1) (by decide)).bind_pure rfl

instance : BinaryValue Integer where
  context_eq _ := rfl
  least_le x variant := by
    change 4 ≤ (putInt variant 4 x.val).length
    unfold putInt putNat
    rw [length_toBytes]
  reads {x} _ variant := reads_readWord variant.little rfl x

/-- Texts are counted in bytes, with eight of them for the count. -/
instance : BinaryValue String where
  Fits x := (encodeText x.toList).length < 2 ^ 64
  context_eq _ := rfl
  least_le x variant := by
    change 8 ≤ (putNat variant 8 (encodeText x.toList).length ++ encodeText x.toList).length
    unfold putNat
    rw [List.length_append, length_toBytes]
    omega
  reads {x} h variant := by
    apply (reads_nat variant.little h).bind
    apply (reads_take variant.little _).bind_pure
    simp only [decodeText_encodeText, String.ofList_toList]

section Writing

variable {V : Type} [TemporalValue V]

namespace Sequence

/-- What a sequence says: its interpolation, its bounds and its instants. -/
def content (s : Sequence V) : Interpolation × Bool × Bool × List (Instant V) :=
  (s.interp, s.lowerInc, s.upperInc, s.instants)

def body (s : Sequence V) (variant : Variant) : Bytes :=
  toBytes variant.little 4 s.instants.length ++ (BoundFlags.write s.lowerInc s.upperInc ++
    s.instants.flatMap fun i => i.writeBody variant)

lemma writeBody_eq {s : Sequence V} (h : s.instants.length < 2 ^ 32) (variant : Variant) :
    s.writeBody variant = .ok (s.body variant) := by
  unfold writeBody putCount body putNat
  rw [if_pos h, ← List.append_assoc]
  rfl

lemma make_instants {s : Sequence V} (h : s.WellFormed) :
    make s.instants s.lowerInc s.upperInc s.interp false = .ok s.rebuilt := by
  change makeRun s.first s.rest s.lowerInc s.upperInc s.interp false = _
  unfold makeRun
  rw [check_bind_eq_ok]
  exact ⟨h, rfl⟩

end Sequence

namespace SequenceSet

def body (s : SequenceSet V) (variant : Variant) : Bytes :=
  toBytes variant.little 4 s.sequences.length ++ s.sequences.flatMap fun x => x.body variant

lemma content_rebuilt (s : SequenceSet V) :
    s.rebuilt.sequences.map Sequence.content = s.sequences.map Sequence.content := by
  rw [sequences_rebuilt, List.map_map]
  rfl

lemma make_sequences {s : SequenceSet V} (h : s.WellFormed) :
    make (s.sequences.map Sequence.rebuilt) false = .ok s.rebuilt := by
  have hmake : make s.sequences false = .ok (ofRun s.first s.rest) := by
    change (do
      checkKinds s.interp s.sequences
      checkRising s.first s.rest
      return ofRun s.first s.rest : Result (SequenceSet V)) = _
    rw [check_bind_eq_ok, check_bind_eq_ok]
    exact ⟨h.kinds, h.rising, rfl⟩
  have hset : (ofRun s.first s.rest).rebuilt = s.rebuilt := rfl
  rw [← hset]
  exact make_rebuilt hmake

end SequenceSet

namespace TemporalFlags

lemma code_lt {f : TemporalFlags} (hsubtype : f.subtype < 4) (hinterp : f.interp < 4) :
    f.code < 0x80 := by
  unfold code
  split <;> split <;> split <;> omega

lemma ofCode?_code {f : TemporalFlags} (hsubtype : f.subtype < 4) (hinterp : f.interp < 4) :
    ofCode? f.code = some f := by
  unfold ofCode?
  rw [if_pos (code_lt hsubtype hinterp)]
  obtain ⟨subtype, interp, hasZ, hasGeodetic, hasSrid⟩ := f
  dsimp only at hsubtype hinterp
  unfold code
  rw [Option.some.injEq, mk.injEq]
  -- The parts of the sum are multiples of different powers of two.
  cases hasZ <;> cases hasGeodetic <;> cases hasSrid <;>
    simp only [beq_eq_false_iff_ne, beq_iff_eq, ne_eq, if_true, if_false, Bool.false_eq_true] <;>
    omega

end TemporalFlags

lemma Subtype.code_lt (s : Subtype) : s.code < 4 := by
  cases s <;> decide

lemma Interpolation.code_lt (i : Interpolation) : i.code < 4 := by
  cases i <;> decide

lemma Temporal.flags_interp_lt (v : Temporal V) : (v.flags false).interp < 4 := by
  cases v with
  | instant i => exact Nat.succ_pos 3
  | sequence s => exact s.interp.code_lt
  | sequenceSet s => exact s.interp.code_lt

end Writing

variable {V : Type} [TemporalValue V] [BinaryValue V]

namespace Instant

lemma leastSize_le (i : Instant V) (variant : Variant) :
    leastSize V ≤ (i.writeBody variant).length := by
  have := BinaryValue.least_le i.value variant
  unfold leastSize writeBody putInt putNat
  rw [List.length_append, length_toBytes]
  omega

lemma reads_body {i : Instant V} (h : BinaryValue.Fits i.value) (variant : Variant) :
    Reads variant.little (readBody .plain) (i.writeBody variant) i := by
  obtain ⟨value, time⟩ := i
  have hlower : -(256 ^ 8 : Nat) ≤ 2 * time.micros := by
    have := time.ticks.lower
    unfold Timestamp.micros
    omega
  have hupper : 2 * time.micros < (256 ^ 8 : Nat) := by
    have := time.ticks.upper
    unfold Timestamp.micros
    omega
  apply (BinaryValue.reads h variant).bind
  apply (reads_int variant.little hlower hupper).bind_pure
  unfold Timestamp.nearest Timestamp.micros
  rw [Signed.clamp_val]

end Instant

namespace Sequence

lemma length_instants_le (s : Sequence V) (variant : Variant) :
    s.instants.length * Instant.leastSize V ≤
      (s.instants.flatMap fun i => i.writeBody variant).length :=
  mul_le_length_flatMap fun i _ => i.leastSize_le variant

lemma leastSize_le_body (s : Sequence V) (variant : Variant) :
    4 + 1 + Instant.leastSize V ≤ (s.body variant).length := by
  have hinstants := s.length_instants_le variant
  have hone : Instant.leastSize V ≤ s.instants.length * Instant.leastSize V :=
    Nat.le_mul_of_pos_left _ (Nat.succ_pos _)
  unfold body
  rw [List.length_append, List.length_append, length_toBytes]
  change _ ≤ 4 + (1 + _)
  omega

lemma reads_body {s : Sequence V} (h : s.WellFormed) (hlen : s.instants.length < 2 ^ 32)
    (hfits : ∀ i ∈ s.instants, BinaryValue.Fits i.value) (variant : Variant) :
    Reads variant.little (readBody s.interp .plain) (s.body variant) s.rebuilt := by
  have hroom : s.instants.length * Instant.leastSize V ≤
      (BoundFlags.write s.lowerInc s.upperInc ++
        s.instants.flatMap fun i => i.writeBody variant).length := by
    have := s.length_instants_le variant
    rw [List.length_append]
    omega
  have hinstants : Reads variant.little (many (Instant.readBody .plain) s.instants.length)
      (s.instants.flatMap fun i => i.writeBody variant) s.instants := by
    have hmany := reads_many (g := id) fun i hi => Instant.reads_body (hfits i hi) variant
    rwa [List.map_id] at hmany
  apply Reads.count (Nat.succ_ne_zero _) hlen hroom
  apply (reads_boundFlags _ _ _).bind
  apply hinstants.bind_pure
  rw [make_instants h]
  rfl

end Sequence

namespace SequenceSet

lemma reads_body {s : SequenceSet V} (h : s.WellFormed) (hlen : s.sequences.length < 2 ^ 32)
    (hlens : ∀ x ∈ s.sequences, x.instants.length < 2 ^ 32)
    (hfits : ∀ x ∈ s.sequences, ∀ i ∈ x.instants, BinaryValue.Fits i.value) (variant : Variant) :
    Reads variant.little (Temporal.readSet s.interp .plain) (s.body variant) s.rebuilt := by
  have hroom := mul_le_length_flatMap fun x (_ : x ∈ s.sequences) => x.leastSize_le_body variant
  have hsequences : Reads variant.little
      (many (Sequence.readBody s.interp .plain) s.sequences.length)
      (s.sequences.flatMap fun x => x.body variant) (s.sequences.map Sequence.rebuilt) := by
    apply reads_many
    intro x hx
    have hx' := Sequence.reads_body (h.sequences x hx) (hlens x hx) (hfits x hx) variant
    rwa [((checkKinds_eq_ok_iff.mp h.kinds) x hx).1] at hx'
  apply Reads.count (Nat.succ_ne_zero _) hlen hroom
  apply hsequences.bind_pure
  rw [make_sequences h]
  rfl

end SequenceSet

namespace Temporal

/-- What can be written of a value: its sequences and their instants are counted in four bytes, and
the lengths of the values fit. -/
structure Writable (v : Temporal V) : Prop where
  sequences : v.sequences.length < 2 ^ 32
  instants : ∀ s ∈ v.sequences, s.instants.length < 2 ^ 32
  values : ∀ s ∈ v.sequences, ∀ i ∈ s.instants, BinaryValue.Fits i.value

def body (v : Temporal V) (variant : Variant) : Bytes :=
  match v with
  | instant i => i.writeBody variant
  | sequence s => s.body variant
  | sequenceSet s => s.body variant

lemma writeBody_eq {v : Temporal V} (h : v.Writable) (variant : Variant) :
    v.writeBody variant = .ok (v.body variant) := by
  cases v with
  | instant i => rfl
  | sequence s => exact Sequence.writeBody_eq (h.instants s (by simp [Temporal.sequences])) variant
  | sequenceSet s =>
    have hbodies : (s.sequences.mapM fun x => x.writeBody variant) =
        .ok (s.sequences.map fun x => x.body variant) :=
      mapM_eq_map fun x hx => Sequence.writeBody_eq (h.instants x hx) variant
    have hcount : putCount variant s.sequences.length =
        .ok (toBytes variant.little 4 s.sequences.length) := if_pos h.sequences
    change (do
      let count ← putCount variant s.sequences.length
      let bodies ← s.sequences.mapM fun x => x.writeBody variant
      return count ++ bodies.flatten : Result Bytes) = _
    simp only [bind_eq_ok, pure_eq_ok]
    refine ⟨_, hcount, _, hbodies, ?_⟩
    rw [← List.flatMap_def]
    rfl

/-- A value is read back behind its flags. -/
lemma reads_body {v : Temporal V} (h : v.WellFormed) (hw : v.Writable) (variant : Variant) :
    Reads variant.little (readBody (v.flags false)) (v.body variant) v.rebuilt := by
  have hz : (TemporalValue.context v.firstInstant.value).hasZ = false := by
    rw [BinaryValue.context_eq]
    rfl
  cases v with
  | instant i =>
    have hi : BinaryValue.Fits i.value :=
      hw.values _ (List.mem_singleton_self _) i (List.mem_singleton_self _)
    have hread := Instant.reads_body hi variant
    unfold readBody flags
    rw [hz]
    apply Reads.after_pure
    exact hread.bind_pure rfl
  | sequence s =>
    have hs : s ∈ (sequence s).sequences := List.mem_singleton_self _
    have hread := Sequence.reads_body h (hw.instants s hs) (hw.values s hs) variant
    unfold readBody flags
    rw [hz]
    simp only [interp, Interpolation.ofCode?_code]
    apply Reads.after_pure
    apply Reads.after_pure
    exact hread.bind_pure rfl
  | sequenceSet s =>
    have hread := SequenceSet.reads_body h hw.sequences hw.instants hw.values variant
    unfold readBody flags
    rw [hz]
    simp only [interp, Interpolation.ofCode?_code]
    apply Reads.after_pure
    apply Reads.after_pure
    exact hread.bind_pure rfl

def form (v : Temporal V) (variant : Variant) : Bytes :=
  putOrder variant ++ (toBytes variant.little 2 (TemporalValue.temporalType V).id ++
    (toBytes variant.little 1 (v.flags false).code ++ v.body variant))

lemma encode_eq {v : Temporal V} (h : v.Writable) (variant : Variant) :
    BinaryForm.encode v variant = .ok (v.form variant) := by
  have hsrid : ((TemporalValue.context v.firstInstant.value).srid != unknownSrid) = false := by
    rw [BinaryValue.context_eq]
    rfl
  apply reported_eq_ok.mpr
  change (do
    let body ← v.writeBody variant
    return putOrder variant ++ putType variant (TemporalValue.temporalType V) ++
      putNat variant 1 (v.flags (variant.isExtended && _)).code ++
        (if (variant.isExtended && _) = true then _ else []) ++ body : Result Bytes) = _
  rw [writeBody_eq h, hsrid, Bool.and_false]
  simp only [bind_eq_ok, pure_eq_ok]
  refine ⟨_, rfl, ?_⟩
  simp only [form, putType, putNat, List.append_assoc, Bool.false_eq_true, if_false,
    List.nil_append]

/-- A value that is well-formed and can be written is read back from its form. -/
theorem decode_form {v : Temporal V} (h : v.WellFormed) (hw : v.Writable) (variant : Variant) :
    BinaryForm.decode (v.form variant) = .ok v.rebuilt := by
  have hsubtype : (v.flags false).subtype < 4 := v.subtype.code_lt
  have hinterp : (v.flags false).interp < 4 := v.flags_interp_lt
  have hlt : (v.flags false).code < 256 ^ 1 :=
    (TemporalFlags.code_lt hsubtype hinterp).trans (by decide)
  apply reported_eq_ok.mpr
  apply whole_order
  apply (reads_type variant.little (TemporalValue.temporalType V)).bind
  apply (reads_nat variant.little hlt).bind
  simp only [TemporalFlags.ofCode?_code hsubtype hinterp]
  exact reads_body h hw variant

/-- Every well-formed value is read back from its bytes and from their hexadecimal text, in every
variant: the value read has the same form and interpolation, and its sequences have the same
interpolations, bounds and instants. -/
theorem binary_form_round_trip [StepValue V] {v : Temporal V} (h : v.WellFormed) (hw : v.Writable)
    (variant : Variant) : ∃ bytes text w,
      BinaryForm.encode v variant = .ok bytes ∧ BinaryForm.encodeHex v variant = .ok text ∧
      BinaryForm.decode bytes = .ok w ∧ BinaryForm.decodeHex text = .ok w ∧
      w.subtype = v.subtype ∧ w.interp = v.interp ∧
      w.sequences.map Sequence.content = v.sequences.map Sequence.content ∧ (w == v) = true := by
  have hencode := encode_eq hw variant
  have hdecode := decode_form h hw variant
  refine ⟨v.form variant, toHex (v.form variant), v.rebuilt, hencode, ?_, hdecode, ?_, ?_⟩
  · unfold BinaryForm.encodeHex
    rw [hencode]
    rfl
  · unfold BinaryForm.decodeHex
    rw [ofHex_toHex]
    exact hdecode
  · have hequal : (v.rebuilt == v) = true := beq_iff.mpr v.rebuilt_rebuilt
    cases v with
    | instant i => exact ⟨rfl, rfl, rfl, hequal⟩
    | sequence s => exact ⟨rfl, rfl, rfl, hequal⟩
    | sequenceSet s => exact ⟨rfl, rfl, s.content_rebuilt, hequal⟩

lemma stairs_writable : stairs.Writable := ⟨by decide, by decide, fun _ _ _ _ => trivial⟩

/-- A greeting with a pause, in characters of one byte to four. -/
def greeting : Temporal String :=
  .sequenceSet (.ofRun (.ofRun ⟨"grüße", .nearest 0⟩ [⟨"grüße", .nearest 10⟩] true true .step)
    [.ofInstant ⟨"你好 🌍", .nearest 20⟩ .step])

lemma greeting_wellFormed : greeting.WellFormed :=
  ⟨List.forall_mem_cons.mpr ⟨rfl, List.forall_mem_singleton.mpr rfl⟩, rfl, rfl⟩

lemma greeting_writable : greeting.Writable := by
  refine ⟨by decide, by decide, ?_⟩
  change ∀ s ∈ greeting.sequences, ∀ i ∈ s.instants, (encodeText i.value.toList).length < 2 ^ 64
  decide

/-- The stairs with their open end, the greeting and a single truth value are read back. -/
theorem greeting_read_back :
    stairs.WellFormed ∧ stairs.Writable ∧ greeting.WellFormed ∧ greeting.Writable ∧
      (∃ bytes w, BinaryForm.encode stairs .standard = .ok bytes ∧
        BinaryForm.decode bytes = .ok w ∧ (w == stairs) = true) ∧
      (∃ text w, BinaryForm.encodeHex greeting (Variant.bigEndian.or .extended) = .ok text ∧
        BinaryForm.decodeHex text = .ok w ∧ (w == greeting) = true) ∧
      ∃ bytes w, BinaryForm.encode (instant ⟨true, .nearest 0⟩) .bigEndian = .ok bytes ∧
        BinaryForm.decode bytes = .ok w ∧ (w == instant ⟨true, .nearest 0⟩) = true := by
  have hmoment : (instant (⟨true, .nearest 0⟩ : Instant Bool)).Writable :=
    ⟨by decide, by decide, fun _ _ _ _ => trivial⟩
  obtain ⟨bytes, -, w, hbytes, -, hw, -, -, -, -, heq⟩ :=
    binary_form_round_trip stairs_wellFormed stairs_writable .standard
  obtain ⟨-, text, g, -, htext, -, hg, -, -, -, hgreeting⟩ :=
    binary_form_round_trip greeting_wellFormed greeting_writable (Variant.bigEndian.or .extended)
  obtain ⟨raw, -, m, hraw, -, hm, -, -, -, -, htrue⟩ :=
    binary_form_round_trip (wellFormed_instant _) hmoment .bigEndian
  exact ⟨stairs_wellFormed, stairs_writable, greeting_wellFormed, greeting_writable,
    ⟨bytes, w, hbytes, hw, heq⟩, ⟨text, g, htext, hg, hgreeting⟩, raw, m, hraw, hm, htrue⟩

end Temporal

end TemporalAlgebra
