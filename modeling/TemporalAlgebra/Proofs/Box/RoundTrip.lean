import TemporalAlgebra.Box.Form
import TemporalAlgebra.Proofs.Number.Bits
import TemporalAlgebra.Proofs.SpanSet.Decoding

/-!
# Boxes of space and time read back

Flags in front of a box say which parts follow. A box that was built is read back from its bytes
part by part, in either byte order, whatever parts it has. The one exception is the reference system
of a box without an extent in space: it is written and read, and then it is not put into the box.
-/
namespace TemporalAlgebra

open Binary Reader

lemma Binary.reads_float (variant : Variant) (x : Float) :
    Reads variant.little Reader.float (putFloat variant x) x := by
  have hlt : x.toBits.toNat < 256 ^ 8 := x.toBits.toNat_lt
  apply (reads_nat variant.little hlt).bind_pure
  rw [UInt64.ofNat_toNat, Binary64.ofBits_toBits]

lemma Binary.Variant.isExtended_or (variant : Variant) :
    (variant.or .extended).isExtended = true := by
  have habsorb : ∀ a b : UInt8, (a ||| b) &&& b = b := by
    intro a b
    apply UInt8.eq_of_toBitVec_eq
    rw [UInt8.toBitVec_and, UInt8.toBitVec_or]
    ext i hi
    rw [BitVec.getElem_and, BitVec.getElem_or]
    cases a.toBitVec[i] <;> cases b.toBitVec[i] <;> rfl
  exact beq_iff_eq.mpr (habsorb _ _)

lemma Binary.Reader.Reads.choice {α β : Type} {little mark : Bool} {first second : Reader α}
    {f : α → Reader β} {bytes more : Bytes} {a : α} {b : β}
    (hfirst : mark = true → Reads little first bytes a)
    (hsecond : mark = false → Reads little second bytes a) (hf : Reads little (f a) more b) :
    Reads little (if mark = true then first >>= f else second >>= f) (bytes ++ more) b := by
  cases mark with
  | true => exact (hfirst rfl).bind hf
  | false => exact (hsecond rfl).bind hf

lemma Binary.Reader.Reads.choice_pure {α β : Type} {little mark : Bool} {first second : Reader α}
    {f : α → Reader β} {bytes : Bytes} {a : α} {b : β}
    (hfirst : mark = true → Reads little first bytes a)
    (hsecond : mark = false → Reads little second bytes a) (hf : f a = pure b) :
    Reads little (if mark = true then first >>= f else second >>= f) bytes b := by
  have h := Reads.choice hfirst hsecond (hf ▸ reads_pure little b)
  rwa [List.append_nil] at h

lemma Binary.Reader.Reads.some {α : Type} {little : Bool} {r : Reader α} {bytes : Bytes} {a : α}
    (h : Reads little r bytes a) : Reads little (Option.some <$> r) bytes (Option.some a) := by
  rw [map_eq_pure_bind]
  exact h.bind_pure rfl

namespace Extent

/-- Ends that are numbers and in order. -/
def Ordered (e : Extent) : Prop := e.min.isNaN = false ∧ e.max.isNaN = false ∧ ¬e.max < e.min

lemma check_eq_ok_iff {e : Extent} {axis : String} : e.check axis = .ok () ↔ e.Ordered := by
  unfold check Ordered
  rw [require_eq_ok]
  simp only [Bool.not_eq_true', Bool.or_eq_false_iff, decide_eq_false_iff_not, and_assoc]

lemma ordered_ofNumber {x : Float} (h : x.isNaN = false) : (ofNumber x).Ordered :=
  ⟨h, h, Binary64.not_lt_self h⟩

end Extent

structure Space.Ordered (s : Space) : Prop where
  x : s.x.Ordered
  y : s.y.Ordered
  z : ∀ e ∈ s.z, e.Ordered

/-- No coordinate is NaN. -/
structure Point.Proper (p : Point) : Prop where
  x : p.x.isNaN = false
  y : p.y.isNaN = false
  z : ∀ z ∈ p.z, z.isNaN = false

namespace STBox

lemma ofSpace_eq_ok_iff {space : Space} {srid : Integer} {b : STBox} :
    ofSpace space srid = .ok b ↔ space.Ordered ∧ b = ⟨some space, none, srid, false⟩ := by
  have hchecks : ofSpace space srid = .ok b ↔ space.x.Ordered ∧ space.y.Ordered ∧
      (∀ e ∈ space.z, e.Ordered) ∧ ⟨some space, none, srid, false⟩ = b := by
    unfold ofSpace
    cases space.z <;> simp only [check_bind_eq_ok, Extent.check_eq_ok_iff, pure_eq_ok,
      Option.mem_def, reduceCtorEq, false_implies, implies_true, true_and, Option.some.injEq,
      forall_eq']
  rw [hchecks]
  constructor
  · rintro ⟨hx, hy, hz, rfl⟩
    exact ⟨⟨hx, hy, hz⟩, rfl⟩
  · rintro ⟨⟨hx, hy, hz⟩, rfl⟩
    exact ⟨hx, hy, hz, rfl⟩

/-- The boxes that are built: with checked extents, over points without NaN or over periods, and
with any other period, reference system and surface. -/
inductive Built : STBox → Prop
  | plane {x y : Extent} {srid : Integer} {b : STBox} (h : newPlane x y srid = .ok b) : Built b
  | space {x y z : Extent} {srid : Integer} {b : STBox} (h : newSpace x y z srid = .ok b) : Built b
  | point {p : Point} (h : p.Proper) : Built (ofPoint p)
  | pointTime {p : Point} (h : p.Proper) (t : Timestamp) : Built (ofPointTime p t)
  | period {p : Period} (h : p.Valid) : Built (ofPeriod p)
  | withPeriod {b : STBox} {p : Period} (hb : Built b) (h : p.Valid) : Built (b.withPeriod p)
  | withSrid {b : STBox} (hb : Built b) (srid : Integer) : Built (b.withSrid srid)
  | withGeodetic {b : STBox} (hb : Built b) (geodetic : Bool) : Built (b.withGeodetic geodetic)

/-- What can be read back: some extent, each in order. -/
structure Readable (b : STBox) : Prop where
  space : ∀ s ∈ b.space, s.Ordered
  period : ∀ p ∈ b.period, p.Valid
  extent : b.hasX = true ∨ b.hasT = true

lemma readable_ofSpace {space : Space} {srid : Integer} {b : STBox}
    (h : ofSpace space srid = .ok b) : b.Readable := by
  obtain ⟨hordered, rfl⟩ := ofSpace_eq_ok_iff.mp h
  exact ⟨fun s hs => Option.mem_some.mp hs ▸ hordered, fun _ hp => absurd hp (by simp), Or.inl rfl⟩

lemma readable_ofPoint {p : Point} (h : p.Proper) : (ofPoint p).Readable := by
  refine ⟨fun s hs => ?_, fun _ hq => absurd hq (by simp [ofPoint]), Or.inl rfl⟩
  obtain rfl := Option.mem_some.mp hs
  refine ⟨Extent.ordered_ofNumber h.x, Extent.ordered_ofNumber h.y, fun e he => ?_⟩
  obtain ⟨z, hz, rfl⟩ := Option.mem_map.mp he
  exact Extent.ordered_ofNumber (h.z z hz)

lemma Readable.withPeriod {b : STBox} {p : Period} (hb : b.Readable) (h : p.Valid) :
    (b.withPeriod p).Readable :=
  ⟨hb.space, fun _ hq => Option.mem_some.mp hq ▸ h, Or.inr rfl⟩

lemma Built.readable {b : STBox} (hb : b.Built) : b.Readable := by
  induction hb with
  | plane h => exact readable_ofSpace (reported_eq_ok.mp h)
  | space h => exact readable_ofSpace (reported_eq_ok.mp h)
  | point h => exact readable_ofPoint h
  | pointTime h t => exact (readable_ofPoint h).withPeriod (Period.singleton_valid t)
  | period h =>
    exact ⟨fun _ hs => absurd hs (by simp [ofPeriod]), fun _ hq => Option.mem_some.mp hq ▸ h,
      Or.inr rfl⟩
  | withPeriod _ h ih => exact ih.withPeriod h
  | withSrid _ _ ih => exact ⟨ih.space, ih.period, ih.extent⟩
  | withGeodetic _ _ ih => exact ⟨ih.space, ih.period, ih.extent⟩

/-- Each flag says of the byte whether it was set. -/
lemma flags_spec (x t z geodetic srid : Bool) :
    let flags := BoxFlags.combine [(x, BoxFlags.x), (t, BoxFlags.t), (z, BoxFlags.z),
      (geodetic, BoxFlags.geodetic), (srid, BoxFlags.srid)]
    flags < 256 ∧
      BoxFlags.only (BoxFlags.x ||| BoxFlags.t ||| BoxFlags.z ||| BoxFlags.geodetic |||
        BoxFlags.srid) flags = true ∧
      BoxFlags.has flags BoxFlags.x = x ∧ BoxFlags.has flags BoxFlags.t = t ∧
      BoxFlags.has flags BoxFlags.z = z ∧ BoxFlags.has flags BoxFlags.geodetic = geodetic ∧
      BoxFlags.has flags BoxFlags.srid = srid := by
  revert x t z geodetic srid
  decide

lemma reads_extent (variant : Variant) (e : Extent) :
    Reads variant.little readExtent (putFloat variant e.min ++ putFloat variant e.max) e :=
  (reads_float variant e.min).bind ((reads_float variant e.max).bind_pure rfl)

lemma reads_space (variant : Variant) (s : Space) :
    Reads variant.little (readSpaceForm s.z.isSome) (writeSpace s variant) s := by
  obtain ⟨x, y, z⟩ := s
  unfold writeSpace
  rw [List.append_assoc]
  apply (reads_extent variant x).bind
  apply (reads_extent variant y).bind
  cases z with
  | none => exact Reads.after_pure (reads_pure _ _)
  | some z =>
    change Reads _ _ (putFloat variant z.min ++ putFloat variant z.max) _
    exact (reads_extent variant z).some.bind_pure rfl

/-- What is read back of a box: the reference system only if it is written, and only with an extent
in space. -/
def readBack (b : STBox) (variant : Variant) : STBox :=
  { b with srid := if b.hasX && variant.isExtended then b.srid else unknownSrid }

lemma Readable.ofParts_eq {b : STBox} (hb : b.Readable) (srid : Integer) :
    ofParts b.space b.period srid b.geodetic =
      .ok { b with srid := if b.hasX then srid else unknownSrid } := by
  obtain ⟨space, period, _, geodetic⟩ := b
  cases space with
  | some s =>
    have hs : ofSpace s srid = .ok ⟨some s, none, srid, false⟩ :=
      ofSpace_eq_ok_iff.mpr ⟨hb.space s rfl, rfl⟩
    unfold ofParts
    dsimp only
    rw [hs]
    rfl
  | none =>
    obtain ⟨p, rfl⟩ := Option.isSome_iff_exists.mp (hb.extent.resolve_left Bool.false_ne_true)
    rfl

lemma Readable.decode_encode {b : STBox} (hb : b.Readable) (variant : Variant) :
    ∃ bytes, BinaryForm.encode b variant = .ok bytes ∧
      BinaryForm.decode bytes = .ok (b.readBack variant) := by
  refine ⟨_, rfl, reported_eq_ok.mpr ?_⟩
  obtain ⟨hlt, honly, hx, ht, hz, hgeodetic, hsrid⟩ := flags_spec b.hasX b.hasT b.hasZ b.geodetic
    (variant.isExtended && b.srid.val != 0)
  simp only [List.append_assoc]
  apply whole_order
  apply (reads_byte variant.little hlt).bind
  simp only [honly, hx, ht, hz, hgeodetic, hsrid, Bool.not_true, Bool.false_eq_true, if_false]
  -- the reference system, the extent in space and the period, each where its flag says so
  refine Reads.choice (a := if variant.isExtended then b.srid else unknownSrid)
    (fun h => ?_) (fun h => ?_) (Reads.choice (a := b.space) (fun h => ?_) (fun h => ?_)
      (Reads.choice_pure (a := b.period) (fun h => ?_) (fun h => ?_) ?_))
  · rw [if_pos h, if_pos (Bool.and_eq_true _ _ ▸ h).1]
    exact reads_readWord variant.little rfl b.srid
  · have hzero : (if variant.isExtended then b.srid else unknownSrid) = unknownSrid := by
      cases hextended : variant.isExtended with
      | true =>
        rw [hextended, Bool.true_and, bne_eq_false_iff_eq] at h
        exact Signed.ext h
      | false => rfl
    rw [hzero, if_neg (by rw [h]; exact Bool.false_ne_true)]
    exact reads_pure _ _
  · obtain ⟨s, hs⟩ := Option.isSome_iff_exists.mp h
    unfold hasZ STBox.z
    rw [hs]
    exact (reads_space variant s).some
  · have hs : b.space = none := by simpa [hasX] using h
    rw [hs]
    exact reads_pure _ _
  · obtain ⟨p, hp⟩ := Option.isSome_iff_exists.mp h
    rw [hp]
    exact ((hb.period p hp).reads_body variant).some
  · have hp : b.period = none := by simpa [hasT] using h
    rw [hp]
    exact reads_pure _ _
  · rw [hb.ofParts_eq]
    unfold readBack
    cases b.hasX <;> cases variant.isExtended <;> rfl

/-- Every box that is built is written in the extended form and read back from it, in either byte
order, with its extents, period and surface. Its reference system is read back with an extent in
space; without one, the box that is read has none. -/
theorem extended_form_read_back {b : STBox} (hb : b.Built) (variant : Variant) :
    ∃ bytes, BinaryForm.encode b (variant.or .extended) = .ok bytes ∧
      BinaryForm.decode bytes =
        .ok (if b.hasX then b else { b with srid := unknownSrid }) ∧
      (BinaryForm.decode bytes = .ok b ↔ b.hasX = true ∨ b.srid = unknownSrid) := by
  obtain ⟨bytes, hencode, hdecode⟩ := hb.readable.decode_encode (variant.or .extended)
  have hread : b.readBack (variant.or .extended) =
      if b.hasX then b else { b with srid := unknownSrid } := by
    unfold readBack
    rw [Variant.isExtended_or]
    cases b.hasX <;> rfl
  rw [hread] at hdecode
  refine ⟨bytes, hencode, hdecode, ?_⟩
  rw [hdecode, Except.ok.injEq]
  obtain ⟨space, period, srid, geodetic⟩ := b
  cases space <;> simp [hasX, eq_comm]

def summit : STBox :=
  ((ofPointTime ⟨7.5, 46.25, some 4478.0, unknownSrid⟩ (.nearest 0)).withSrid
    (.clamp 4326)).withGeodetic true

lemma summit_built : summit.Built := by
  refine .withGeodetic (.withSrid (.pointTime ⟨rfl, rfl, fun z hz => ?_⟩ _) _) _
  obtain rfl := Option.mem_some.mp hz
  rfl

theorem summit_read_back : summit.Built ∧ ∃ bytes,
    BinaryForm.encode summit (Variant.bigEndian.or .extended) = .ok bytes ∧
      BinaryForm.decode bytes = .ok summit := by
  obtain ⟨bytes, hencode, -, hiff⟩ := extended_form_read_back summit_built .bigEndian
  exact ⟨summit_built, bytes, hencode, hiff.mpr (Or.inl rfl)⟩

def newYear : STBox :=
  (ofPeriod ⟨.nearest 0, .nearest 86400000000, true, true⟩).withSrid (.clamp 4326)

lemma newYear_built : newYear.Built :=
  .withSrid (.period ((Span.valid_iff_of_continuous rfl).mpr (Or.inl (by decide)))) _

/-- The reference system is among the bytes and lost when they are read. -/
theorem newYear_loses_system : newYear.Built ∧ ∃ bytes,
    BinaryForm.encode newYear (Variant.littleEndian.or .extended) = .ok bytes ∧
      BinaryForm.decode bytes ≠ .ok newYear := by
  obtain ⟨bytes, hencode, hdecode⟩ :=
    newYear_built.readable.decode_encode (Variant.littleEndian.or .extended)
  refine ⟨newYear_built, bytes, hencode, fun h => ?_⟩
  have hsrid := congrArg srid (Except.ok.inj (hdecode.symm.trans h))
  exact absurd hsrid (by decide)

end STBox

end TemporalAlgebra
