import TemporalAlgebra.Binary.Hex
import TemporalAlgebra.Binary.Utf8
import TemporalAlgebra.Proofs.Outcome
import TemporalAlgebra.Proofs.Text.Blank

/-!
# Texts and bytes

Every text is read back from its UTF-8 bytes, and all bytes are read back from their hexadecimal
text.
-/
namespace TemporalAlgebra.Binary

section Utf8

variable {b s t u : UInt8} {rest : Bytes} {lo hi : Nat}

lemma firstChar_one (h : b.toNat < 0x80) :
    firstChar b rest = .ok (Char.ofNat b.toNat, rest) := by
  have hlead : leadByte b.toNat = some (1, 0, 0) := if_pos h
  unfold firstChar
  rw [hlead]
  rfl

lemma firstChar_two (h : leadByte b.toNat = some (2, lo, hi))
    (hs : lo ≤ s.toNat ∧ s.toNat ≤ hi) : firstChar b (s :: rest) =
      .ok (Char.ofNat (b.toNat % 32 * 64 + s.toNat % 64), rest) := by
  unfold firstChar
  rw [h]
  simp only [if_neg (show ¬(s.toNat < lo ∨ hi < s.toNat) by omega)]
  rfl

lemma firstChar_three (h : leadByte b.toNat = some (3, lo, hi))
    (hs : lo ≤ s.toNat ∧ s.toNat ≤ hi) (ht : 0x80 ≤ t.toNat ∧ t.toNat ≤ 0xBF) :
    firstChar b (s :: t :: rest) =
      .ok (Char.ofNat ((b.toNat % 16 * 64 + s.toNat % 64) * 64 + t.toNat % 64), rest) := by
  unfold firstChar
  rw [h]
  simp only [if_neg (show ¬(s.toNat < lo ∨ hi < s.toNat) by omega),
    if_neg (show ¬(t.toNat < 0x80 ∨ 0xBF < t.toNat) by omega)]
  rfl

lemma firstChar_four (h : leadByte b.toNat = some (4, lo, hi))
    (hs : lo ≤ s.toNat ∧ s.toNat ≤ hi) (ht : 0x80 ≤ t.toNat ∧ t.toNat ≤ 0xBF)
    (hu : 0x80 ≤ u.toNat ∧ u.toNat ≤ 0xBF) : firstChar b (s :: t :: u :: rest) =
      .ok (Char.ofNat (((b.toNat % 8 * 64 + s.toNat % 64) * 64 + t.toNat % 64) * 64 +
        u.toNat % 64), rest) := by
  unfold firstChar
  rw [h]
  simp only [if_neg (show ¬(s.toNat < lo ∨ hi < s.toNat) by omega),
    if_neg (show ¬(t.toNat < 0x80 ∨ 0xBF < t.toNat) by omega),
    if_neg (show ¬(u.toNat < 0x80 ∨ 0xBF < u.toNat) by omega)]
  rfl

/-- The second byte of three is within the limits of the first one: what would be shorter or a
surrogate is no character. -/
lemma leadByte_three {v : Nat} (hlo : 0x7FF < v) (hhi : v ≤ 0xFFFF)
    (hvalid : v < 0xD800 ∨ 0xDFFF < v) : ∃ lo hi, leadByte (v / 4096 + 224) = some (3, lo, hi) ∧
      lo ≤ v / 64 % 64 + 128 ∧ v / 64 % 64 + 128 ≤ hi := by
  by_cases hleast : v / 4096 = 0
  · refine ⟨0xA0, 0xBF, ?_, by omega, by omega⟩
    rw [hleast]
    rfl
  by_cases hsurrogate : v / 4096 = 13
  · refine ⟨0x80, 0x9F, ?_, by omega, by omega⟩
    rw [hsurrogate]
    rfl
  · refine ⟨0x80, 0xBF, ?_, by omega, by omega⟩
    unfold leadByte
    rw [if_neg (by omega), if_neg (by omega), if_neg (by omega), if_neg (by omega),
      if_pos (by omega)]

lemma leadByte_four {v : Nat} (hlo : 0xFFFF < v) (hhi : v < 0x110000) :
    ∃ lo hi, leadByte (v / 262144 + 240) = some (4, lo, hi) ∧
      lo ≤ v / 4096 % 64 + 128 ∧ v / 4096 % 64 + 128 ≤ hi := by
  by_cases hleast : v / 262144 = 0
  · refine ⟨0x90, 0xBF, ?_, by omega, by omega⟩
    rw [hleast]
    rfl
  by_cases hlast : v / 262144 = 4
  · refine ⟨0x80, 0x8F, ?_, by omega, by omega⟩
    rw [hlast]
    rfl
  · refine ⟨0x80, 0xBF, ?_, by omega, by omega⟩
    unfold leadByte
    rw [if_neg (by omega), if_neg (by omega), if_neg (by omega), if_neg (by omega),
      if_neg (by omega), if_neg (by omega), if_pos (by omega)]

/-- A character is read back from its bytes. -/
lemma firstChar_encode (c : Char) (rest : Bytes) : ∃ b more,
    String.utf8EncodeChar c = b :: more ∧ firstChar b (more ++ rest) = .ok (c, rest) := by
  have hchar : Char.ofNat c.val.toNat = c := Char.ofNat_toNat c
  have hvalid : c.val.toNat < 0xD800 ∨ 0xDFFF < c.val.toNat ∧ c.val.toNat < 0x110000 := c.valid
  unfold String.utf8EncodeChar
  generalize c.val.toNat = v at *
  subst hchar
  dsimp only
  have hbyte : ∀ {n : Nat}, n < 256 → (UInt8.ofNat n).toNat = n := fun h => by
    rw [UInt8.toNat_ofNat']
    omega
  -- By the count of bytes: the bits of the code are shared out among them.
  by_cases h1 : v ≤ 0x7F
  · rw [if_pos h1]
    refine ⟨_, _, rfl, ?_⟩
    rw [firstChar_one (by rw [hbyte (by omega)]; omega), hbyte (by omega)]
    rfl
  rw [if_neg h1]
  by_cases h2 : v ≤ 0x7FF
  · rw [if_pos h2]
    refine ⟨_, _, rfl, ?_⟩
    have hlead : leadByte (UInt8.ofNat (v / 64 % 32 + 192)).toNat = some (2, 0x80, 0xBF) := by
      rw [hbyte (by omega)]
      unfold leadByte
      rw [if_neg (by omega), if_pos (by omega)]
    have hcode : (v / 64 % 32 + 192) % 32 * 64 + (v % 64 + 128) % 64 = v := by omega
    rw [List.cons_append, firstChar_two hlead (by rw [hbyte (by omega)]; omega),
      hbyte (by omega), hbyte (by omega), hcode]
    rfl
  rw [if_neg h2]
  by_cases h3 : v ≤ 0xFFFF
  · rw [if_pos h3]
    refine ⟨_, _, rfl, ?_⟩
    obtain ⟨lo, hi, hlead, hlo, hhi⟩ := leadByte_three (by omega) h3 (by omega)
    have hfirst : v / 4096 % 16 + 224 = v / 4096 + 224 := by omega
    have hcode : ((v / 4096 % 16 + 224) % 16 * 64 + (v / 64 % 64 + 128) % 64) * 64 +
        (v % 64 + 128) % 64 = v := by omega
    rw [List.cons_append, List.cons_append,
      firstChar_three (by rw [hbyte (by omega), hfirst]; exact hlead)
        (by rw [hbyte (by omega)]; exact ⟨hlo, hhi⟩) (by rw [hbyte (by omega)]; omega),
      hbyte (by omega), hbyte (by omega), hbyte (by omega), hcode]
    rfl
  · rw [if_neg h3]
    refine ⟨_, _, rfl, ?_⟩
    obtain ⟨lo, hi, hlead, hlo, hhi⟩ := leadByte_four (v := v) (by omega) (by omega)
    have hfirst : v / 262144 % 8 + 240 = v / 262144 + 240 := by omega
    have hcode : (((v / 262144 % 8 + 240) % 8 * 64 + (v / 4096 % 64 + 128) % 64) * 64 +
        (v / 64 % 64 + 128) % 64) * 64 + (v % 64 + 128) % 64 = v := by omega
    rw [List.cons_append, List.cons_append, List.cons_append,
      firstChar_four (by rw [hbyte (by omega), hfirst]; exact hlead)
        (by rw [hbyte (by omega)]; exact ⟨hlo, hhi⟩) (by rw [hbyte (by omega)]; omega)
        (by rw [hbyte (by omega)]; omega),
      hbyte (by omega), hbyte (by omega), hbyte (by omega), hbyte (by omega), hcode]
    rfl

lemma decodeFrom_cons {b : UInt8} {bytes rest : Bytes} {c : Char} {cs : List Char}
    (h : firstChar b bytes = .ok (c, rest)) (hrest : ∀ position, decodeFrom position rest = .ok cs)
    (position : Nat) : decodeFrom position (b :: bytes) = .ok (c :: cs) := by
  rw [decodeFrom]
  split
  · simp_all
  · next c' rest' h' =>
    obtain ⟨rfl, rfl⟩ := Prod.mk.inj (Except.ok.inj (h'.symm.trans h))
    simp only [hrest]
    rfl

/-- Every text is read back from its bytes. -/
theorem decodeText_encodeText (cs : List Char) : decodeText (encodeText cs) = .ok cs := by
  have hfrom : ∀ position, decodeFrom position (encodeText cs) = .ok cs := by
    induction cs with
    | nil =>
      intro position
      rw [encodeText, List.flatMap_nil, decodeFrom]
    | cons c cs ih =>
      obtain ⟨b, more, hbytes, hfirst⟩ := firstChar_encode c (encodeText cs)
      have hcons : encodeText (c :: cs) = b :: (more ++ encodeText cs) := by
        unfold encodeText
        rw [List.flatMap_cons, hbytes, List.cons_append]
      rw [hcons]
      exact decodeFrom_cons hfirst ih
  exact hfrom 0

lemma toNat_ofNat_le (n : Nat) : (Char.ofNat n).val.toNat ≤ n := by
  by_cases h : n.isValidChar
  · rw [Char.ofNat, dif_pos h]
    exact Nat.le_refl n
  · rw [Char.ofNat, dif_neg h]
    exact Nat.zero_le n

lemma length_encodeChar_le (n : Nat) :
    (n ≤ 0x7F → (String.utf8EncodeChar (Char.ofNat n)).length ≤ 1) ∧
      (n ≤ 0x7FF → (String.utf8EncodeChar (Char.ofNat n)).length ≤ 2) ∧
      (n ≤ 0xFFFF → (String.utf8EncodeChar (Char.ofNat n)).length ≤ 3) ∧
      (String.utf8EncodeChar (Char.ofNat n)).length ≤ 4 := by
  have hle := toNat_ofNat_le n
  unfold String.utf8EncodeChar
  generalize (Char.ofNat n).val.toNat = v at *
  dsimp only
  split
  · simp
  split
  · simp only [List.length_cons, List.length_nil]
    omega
  split
  · simp only [List.length_cons, List.length_nil]
    omega
  · simp only [List.length_cons, List.length_nil]
    omega

lemma lt_of_leadByte_one {b lo hi : Nat} (h : leadByte b = some (1, lo, hi)) : b < 0x80 := by
  unfold leadByte at h
  by_contra hb
  rw [if_neg hb] at h
  repeat' split at h
  all_goals simp at h

/-- A character takes no more bytes than it was read from. -/
lemma length_le_of_firstChar {b : UInt8} {bytes rest : Bytes} {c : Char}
    (h : firstChar b bytes = .ok (c, rest)) :
    (String.utf8EncodeChar c).length + rest.length ≤ bytes.length + 1 := by
  unfold firstChar at h
  split at h
  · cases h
  · rename_i hlead
    obtain ⟨rfl, rfl⟩ := Prod.mk.inj (Except.ok.inj h)
    have := (length_encodeChar_le b.toNat).1 (by have := lt_of_leadByte_one hlead; omega)
    omega
  · rename_i width lo hi _ hlead
    split at h
    · cases h
    rename_i second rest
    split at h
    · cases h
    dsimp only at h
    split at h
    · rename_i hwidth
      obtain ⟨rfl, rfl⟩ := Prod.mk.inj (Except.ok.inj h)
      subst hwidth
      have hbits : leadBits b.toNat 2 = b.toNat % 32 := rfl
      have := (length_encodeChar_le (leadBits b.toNat 2 * 64 + second.toNat % 64)).2.1 (by omega)
      rw [List.length_cons]
      omega
    split at h
    · cases h
    rename_i third rest
    split at h
    · cases h
    split at h
    · rename_i hwidth
      obtain ⟨rfl, rfl⟩ := Prod.mk.inj (Except.ok.inj h)
      subst hwidth
      have hbits : leadBits b.toNat 3 = b.toNat % 16 := rfl
      have := (length_encodeChar_le
        ((leadBits b.toNat 3 * 64 + second.toNat % 64) * 64 + third.toNat % 64)).2.2.1 (by omega)
      rw [List.length_cons, List.length_cons]
      omega
    split at h
    · cases h
    rename_i fourth rest
    split at h
    · cases h
    · obtain ⟨rfl, rfl⟩ := Prod.mk.inj (Except.ok.inj h)
      have := (length_encodeChar_le (((leadBits b.toNat width * 64 + second.toNat % 64) * 64 +
        third.toNat % 64) * 64 + fourth.toNat % 64)).2.2.2
      rw [List.length_cons, List.length_cons, List.length_cons]
      omega

lemma length_le_of_decodeText {bytes : Bytes} {cs : List Char} (h : decodeText bytes = .ok cs) :
    (encodeText cs).length ≤ bytes.length := by
  unfold decodeText at h
  generalize 0 = position at h
  fun_induction decodeFrom position bytes generalizing cs with
  | case1 position =>
    obtain rfl := Except.ok.inj h
    exact Nat.le_refl 0
  | case2 position b bytes length hfirst => cases h
  | case3 position b bytes c rest hfirst hshorter ih =>
    cases hrest : decodeFrom (position + (bytes.length + 1 - rest.length)) rest with
    | error fault =>
      rw [hrest] at h
      cases h
    | ok more =>
      rw [hrest] at h
      obtain rfl := Except.ok.inj h
      have hmore := ih hrest
      have hchar := length_le_of_firstChar hfirst
      unfold encodeText at hmore ⊢
      rw [List.flatMap_cons, List.length_append, List.length_cons]
      omega

end Utf8

section Hex

/-- A digit is one byte, which has its value. -/
lemma hexDigit_spec {n : Nat} (h : n < 16) : ∃ d : UInt8,
    String.utf8EncodeChar (hexDigit true n) = [d] ∧ hexValue? d.toNat = some n := by
  have hall : ∀ n < 16, (String.utf8EncodeChar (hexDigit true n)).map
      (fun d => hexValue? d.toNat) = [some n] := by decide
  obtain ⟨d, hd, hvalue⟩ := List.map_eq_singleton_iff.mp (hall n h)
  exact ⟨d, hd, hvalue⟩

lemma hexDigits_byte (b : UInt8) :
    hexDigits true 2 b.toNat = [hexDigit true (b.toNat / 16), hexDigit true (b.toNat % 16)] := by
  have := b.toNat_lt
  rw [hexDigits, hexDigits, hexDigits, Nat.mod_eq_of_lt (by omega : b.toNat / 16 < 16)]
  rfl

lemma toList_toHex (bytes : Bytes) :
    (toHex bytes).toList = bytes.flatMap fun b => hexDigits true 2 b.toNat := by
  unfold toHex
  exact String.toList_ofList

lemma pairs_digits (bytes : Bytes) (position : Nat) :
    pairs position ((toHex bytes).toList.flatMap String.utf8EncodeChar) = .ok bytes := by
  rw [toList_toHex]
  induction bytes generalizing position with
  | nil => rfl
  | cons b bytes ih =>
    have hlt := b.toNat_lt
    obtain ⟨high, hhigh, hh⟩ := hexDigit_spec (by omega : b.toNat / 16 < 16)
    obtain ⟨low, hlow, hl⟩ := hexDigit_spec (by omega : b.toNat % 16 < 16)
    rw [List.flatMap_cons, hexDigits_byte, List.flatMap_append, List.flatMap_cons,
      List.flatMap_cons, List.flatMap_nil, hhigh, hlow]
    simp only [List.cons_append, List.nil_append, pairs, bind_eq_ok, orRefuse_eq_ok, pure_eq_ok]
    refine ⟨_, hh, _, hl, bytes, ih _, ?_⟩
    rw [Nat.div_add_mod', UInt8.ofNat_toNat]

lemma length_digits (bytes : Bytes) :
    ((toHex bytes).toList.flatMap String.utf8EncodeChar).length = 2 * bytes.length := by
  rw [toList_toHex]
  induction bytes with
  | nil => rfl
  | cons b bytes ih =>
    have hlt := b.toNat_lt
    obtain ⟨high, hhigh, -⟩ := hexDigit_spec (by omega : b.toNat / 16 < 16)
    obtain ⟨low, hlow, -⟩ := hexDigit_spec (by omega : b.toNat % 16 < 16)
    rw [List.flatMap_cons, hexDigits_byte, List.flatMap_append, List.length_append, ih,
      List.flatMap_cons, List.flatMap_cons, List.flatMap_nil, hhigh, hlow, List.length_cons]
    simp only [List.cons_append, List.nil_append, List.length_cons, List.length_nil]
    omega

lemma trim_toHex (bytes : Bytes) : Text.trim (toHex bytes).toList = (toHex bytes).toList := by
  have hall : ∀ n < 16, Text.isBlank (hexDigit true n) = false := by decide
  apply Text.Tight.trim_eq
  apply Text.tight_of_forall
  intro c hc
  rw [toList_toHex, List.mem_flatMap] at hc
  obtain ⟨b, -, hc⟩ := hc
  have hlt := b.toNat_lt
  rw [hexDigits_byte] at hc
  rcases List.mem_pair.mp hc with rfl | rfl
  · exact hall _ (by omega)
  · exact hall _ (by omega)

/-- All bytes are read back from their text. -/
theorem ofHex_toHex (bytes : Bytes) : ofHex (Text.trim (toHex bytes).toList) = .ok bytes := by
  rw [trim_toHex]
  unfold ofHex
  rw [check_bind_eq_ok, require_eq_ok, length_digits]
  exact ⟨by simp, pairs_digits bytes 0⟩

end Hex

end TemporalAlgebra.Binary
