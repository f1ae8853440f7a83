import TemporalAlgebra.Proofs.Binary.Decoding

/-!
# Writing what was read

A reader consumes the bytes that would be written for what it returns. Words have one form in
either byte order, so that bytes that hold nothing else are written again as they were read.
-/
namespace TemporalAlgebra.Binary

section Words

lemma toLittle_ofLittle (bytes : Bytes) : toLittle bytes.length (ofLittle bytes) = bytes := by
  induction bytes with
  | nil => rfl
  | cons b bytes ih =>
    have hb : b.toNat < 256 := b.toNat_lt
    have hmod : (b.toNat + 256 * ofLittle bytes) % 256 = b.toNat := by omega
    have hdiv : (b.toNat + 256 * ofLittle bytes) / 256 = ofLittle bytes := by omega
    rw [List.length_cons, ofLittle, toLittle, hmod, hdiv, ih, UInt8.ofNat_toNat]

lemma toBytes_ofBytes (little : Bool) (bytes : Bytes) :
    toBytes little bytes.length (ofBytes little bytes) = bytes := by
  cases little with
  | true => exact toLittle_ofLittle bytes
  | false =>
    have h := toLittle_ofLittle bytes.reverse
    rw [List.length_reverse] at h
    change (toLittle bytes.length (ofLittle bytes.reverse)).reverse = bytes
    rw [h, List.reverse_reverse]

lemma signed_bounds {width n : Nat} (h : n < 256 ^ width) :
    -(256 ^ width : Nat) ≤ 2 * signed width n ∧ 2 * signed width n < (256 ^ width : Nat) := by
  unfold signed
  split <;> omega

lemma complement_signed {width n : Nat} (h : n < 256 ^ width) :
    complement width (signed width n) = n := by
  have hmod : signed width n % (256 ^ width : Nat) = n := by
    unfold signed
    split
    · exact Int.emod_eq_of_lt (by omega) (by omega)
    · rw [Int.sub_emod_right, Int.emod_eq_of_lt (by omega) (by omega)]
  unfold complement
  rw [hmod, Int.toNat_natCast]

end Words

namespace Reader

variable {α β : Type}

lemma runAt_bind_eq_ok {r : Reader α} {f : α → Reader β} {cursor last : Cursor} {b : β}
    (h : (r >>= f).runAt cursor = (.ok b, last)) :
    ∃ a next, r.runAt cursor = (.ok a, next) ∧ (f a).runAt next = (.ok b, last) := by
  rcases hr : r.runAt cursor with ⟨outcome, next⟩
  cases outcome with
  | ok a => exact ⟨a, next, rfl, (runAt_bind hr).symm.trans h⟩
  | error e =>
    unfold runAt at h hr
    rw [ExceptT.run_bind, StateT.run_bind, hr] at h
    cases h

/-- What a reader returns is what is written in the bytes that it takes. -/
def Consumes (r : Reader α) (write : α → Variant → Bytes) : Prop :=
  ∀ ⦃cursor next : Cursor⦄ ⦃a : α⦄, r.runAt cursor = (.ok a, next) →
    next.little = cursor.little ∧ ∀ variant : Variant, variant.little = cursor.little →
      cursor.bytes = write a variant ++ next.bytes

lemma Consumes.map {r : Reader α} {f : α → β} {write : α → Variant → Bytes}
    {write' : β → Variant → Bytes} (h : Consumes r write)
    (hwrite : ∀ a variant, write' (f a) variant = write a variant) : Consumes (f <$> r) write' := by
  intro cursor next b hb
  rw [map_eq_pure_bind] at hb
  obtain ⟨a, middle, ha, hb⟩ := runAt_bind_eq_ok hb
  obtain ⟨rfl, rfl⟩ : f a = b ∧ middle = next := by cases hb; exact ⟨rfl, rfl⟩
  refine ⟨(h ha).1, fun variant hvariant => ?_⟩
  rw [hwrite]
  exact (h ha).2 variant hvariant

lemma runAt_take_eq_ok {n : Nat} {cursor next : Cursor} {bytes : Bytes}
    (h : (take n).runAt cursor = (.ok bytes, next)) :
    bytes.length = n ∧ cursor.bytes = bytes ++ next.bytes ∧ next.little = cursor.little := by
  rcases Nat.lt_or_ge cursor.bytes.length n with hlt | hle
  · obtain ⟨text, last, hrefused⟩ := (refuses_need hlt).bind fun _ => do
      let cursor ← get
      set { cursor with bytes := cursor.bytes.drop n }
      return cursor.bytes.take n
    cases hrefused.symm.trans h
  · unfold take at h
    rw [runAt_bind (runAt_need hle)] at h
    obtain ⟨rfl, rfl⟩ : cursor.bytes.take n = bytes ∧
        Cursor.mk (cursor.bytes.drop n) cursor.little = next := by
      cases h
      exact ⟨rfl, rfl⟩
    exact ⟨List.length_take_of_le hle, (List.take_append_drop n _).symm, rfl⟩

lemma consumes_nat (width : Nat) :
    Consumes (nat width) fun n variant => putNat variant width n := by
  intro cursor next n h
  obtain ⟨bytes, middle, htake, hn⟩ := runAt_bind_eq_ok h
  obtain ⟨hlen, hbytes, hlittle⟩ := runAt_take_eq_ok htake
  obtain ⟨rfl, rfl⟩ : ofBytes middle.little bytes = n ∧ middle = next := by
    cases hn
    exact ⟨rfl, rfl⟩
  refine ⟨hlittle, fun variant hvariant => ?_⟩
  change _ = toBytes variant.little width (ofBytes middle.little bytes) ++ _
  rw [hbytes, hvariant, hlittle, ← hlen, toBytes_ofBytes]

lemma lt_of_runAt_nat {width n : Nat} {cursor next : Cursor}
    (h : (nat width).runAt cursor = (.ok n, next)) : n < 256 ^ width := by
  rcases reliable_nat width cursor with ⟨text, last, hrefused⟩ | ⟨m, last, hm, htakes⟩
  · cases hrefused.symm.trans h
  · cases htakes.runAt.symm.trans h
    exact hm

lemma consumes_int (width : Nat) :
    Consumes (int width) fun n variant => putInt variant width n := by
  intro cursor next n h
  obtain ⟨m, middle, hm, hn⟩ := runAt_bind_eq_ok h
  obtain ⟨rfl, rfl⟩ : signed width m = n ∧ middle = next := by
    cases hn
    exact ⟨rfl, rfl⟩
  refine ⟨(consumes_nat width hm).1, fun variant hvariant => ?_⟩
  change _ = putNat variant width (complement width (signed width m)) ++ _
  rw [complement_signed (lt_of_runAt_nat hm)]
  exact (consumes_nat width hm).2 variant hvariant

lemma exists_variant (little : Bool) : ∃ variant : Variant, variant.little = little := by
  cases little with
  | true => exact ⟨.littleEndian, rfl⟩
  | false => exact ⟨.bigEndian, rfl⟩

lemma consumes_byte : Consumes (nat 1) fun n _ => [UInt8.ofNat n] := by
  intro cursor next n h
  obtain ⟨variant, hvariant⟩ := exists_variant cursor.little
  have hbytes : cursor.bytes = putNat variant 1 n ++ next.bytes :=
    (consumes_nat 1 h).2 variant hvariant
  have hbyte : putNat variant 1 n = [UInt8.ofNat n] := by
    have hn : n % 256 = n := Nat.mod_eq_of_lt (lt_of_runAt_nat h)
    unfold putNat toBytes
    split <;> simp [toLittle, hn]
  rw [hbyte] at hbytes
  exact ⟨(consumes_nat 1 h).1, fun _ _ => hbytes⟩

lemma bounds_of_runAt_int {width : Nat} {n : Int} {cursor next : Cursor}
    (h : (int width).runAt cursor = (.ok n, next)) :
    -(256 ^ width : Nat) ≤ 2 * n ∧ 2 * n < (256 ^ width : Nat) := by
  obtain ⟨m, middle, hm, hn⟩ := runAt_bind_eq_ok h
  obtain rfl : signed width m = n := by
    cases hn
    rfl
  exact signed_bounds (lt_of_runAt_nat hm)

/-- The mark of the byte order names the order in which the rest is read. -/
lemma bytes_of_runAt_order {cursor next : Cursor} (h : order.runAt cursor = (.ok (), next)) :
    cursor.bytes = (if next.little then 1 else 0) :: next.bytes := by
  obtain ⟨n, middle, hn, horder⟩ := runAt_bind_eq_ok h
  obtain ⟨variant, hvariant⟩ := exists_variant cursor.little
  rw [(consumes_byte hn).2 variant hvariant]
  match n with
  | 0 | 1 =>
    cases horder
    rfl
  | n + 2 => cases horder

lemma consumes_type (expected : TypeTag) :
    Consumes (type expected) fun _ variant => putType variant expected := by
  intro cursor next _ h
  obtain ⟨id, middle, hid, htype⟩ := runAt_bind_eq_ok h
  obtain ⟨rfl, rfl⟩ : id = expected.id ∧ middle = next := by
    cases hfound : TypeTag.ofId? id with
    | none =>
      rw [hfound] at htype
      cases htype
    | some found =>
      have hfid : found.id = id := by simpa using List.find?_some hfound
      rw [hfound] at htype
      dsimp only at htype
      split at htype
      · cases htype
      · rename_i heq
        obtain rfl := not_not.mp heq
        cases htype
        exact ⟨hfid.symm, rfl⟩
  exact consumes_nat 2 hid

lemma runAt_ofResult_eq_ok {outcome : Result α} {cursor next : Cursor} {a : α}
    (h : (ofResult outcome).runAt cursor = (.ok a, next)) : outcome = .ok a ∧ cursor = next := by
  cases outcome with
  | ok b =>
    cases h
    exact ⟨rfl, rfl⟩
  | error f => cases f <;> cases h

end Reader

open Reader

lemma consumes_readWord {w width : Nat} (hw : 2 ^ (w + 1) = 256 ^ width) :
    Consumes (SpanDomain.readWord width : Reader (Signed w)) fun x variant =>
      putInt variant width x.val := by
  intro cursor next x h
  obtain ⟨n, middle, hn, hx⟩ := runAt_bind_eq_ok h
  obtain ⟨rfl, rfl⟩ : Signed.clamp n = x ∧ middle = next := by
    cases hx
    exact ⟨rfl, rfl⟩
  have hsize : ((256 ^ width : Nat) : Int) = 2 * 2 ^ w := by
    rw [← hw, Nat.pow_succ]
    push_cast
    omega
  have hbounds := bounds_of_runAt_int hn
  have hval : (Signed.clamp n : Signed w).val = n :=
    congrArg Signed.val (Signed.clamp_val ⟨n, by omega, by omega⟩)
  change _ ∧ ∀ variant : Variant, _ → _ = putInt variant width (Signed.clamp n : Signed w).val ++ _
  rw [hval]
  exact consumes_int width hn

lemma consumes_boundFlags :
    Consumes BoundFlags.read fun flags _ => BoundFlags.write flags.1 flags.2 := by
  intro cursor next flags h
  obtain ⟨n, middle, hn, hflags⟩ := runAt_bind_eq_ok h
  match n with
  | 0 | 1 | 2 | 3 =>
    cases hflags
    exact consumes_byte hn
  | n + 4 =>
    dsimp only at hflags
    rw [if_pos (by omega)] at hflags
    cases hflags

end TemporalAlgebra.Binary
