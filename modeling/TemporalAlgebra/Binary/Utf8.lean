import TemporalAlgebra.Binary.Word
import TemporalAlgebra.Number.Decimal

/-!
# UTF-8

Texts as bytes. A faulty text is refused with the place of its first fault: how many bytes can
not start a character, or that the text ends inside one.
-/
namespace TemporalAlgebra.Binary

/-- The first fault of a byte sequence that is not a text. -/
structure Utf8Fault where
  /-- Bytes before the fault. -/
  position : Nat
  /-- Bytes of the fault; none when the text ends too early. -/
  length : Option Nat
deriving DecidableEq, Repr

def Utf8Fault.message (fault : Utf8Fault) : String :=
  match fault.length with
  | some n => "invalid utf-8 sequence of " ++ Decimal.ofNat n ++ " bytes from index " ++
      Decimal.ofNat fault.position
  | none => "incomplete utf-8 byte sequence from index " ++ Decimal.ofNat fault.position

def encodeText (cs : List Char) : Bytes := cs.flatMap String.utf8EncodeChar

/-- How many bytes a character has that starts with `b`, and the limits of its second byte. -/
def leadByte (b : Nat) : Option (Nat × Nat × Nat) :=
  if b < 0x80 then some (1, 0, 0)
  else if 0xC2 ≤ b ∧ b ≤ 0xDF then some (2, 0x80, 0xBF)
  else if b = 0xE0 then some (3, 0xA0, 0xBF)
  else if b = 0xED then some (3, 0x80, 0x9F)
  else if 0xE1 ≤ b ∧ b ≤ 0xEF then some (3, 0x80, 0xBF)
  else if b = 0xF0 then some (4, 0x90, 0xBF)
  else if 0xF1 ≤ b ∧ b ≤ 0xF3 then some (4, 0x80, 0xBF)
  else if b = 0xF4 then some (4, 0x80, 0x8F)
  else none

/-- The bits of a first byte that belong to the character. -/
def leadBits (b width : Nat) : Nat :=
  match width with
  | 1 => b
  | 2 => b % 32
  | 3 => b % 16
  | _ => b % 8

/-- The first character of a byte sequence and the rest, or the length of the fault. -/
def firstChar (b : UInt8) (rest : Bytes) : Except (Option Nat) (Char × Bytes) :=
  match leadByte b.toNat with
  | none => .error (some 1)
  | some (1, _, _) => .ok (Char.ofNat b.toNat, rest)
  | some (width, lo, hi) =>
    match rest with
    | [] => .error none
    | second :: rest =>
      if second.toNat < lo ∨ hi < second.toNat then .error (some 1)
      else
        let code := leadBits b.toNat width * 64 + second.toNat % 64
        if width = 2 then .ok (Char.ofNat code, rest)
        else
          match rest with
          | [] => .error none
          | third :: rest =>
            if third.toNat < 0x80 ∨ 0xBF < third.toNat then .error (some 2)
            else
              let code := code * 64 + third.toNat % 64
              if width = 3 then .ok (Char.ofNat code, rest)
              else
                match rest with
                | [] => .error none
                | fourth :: rest =>
                  if fourth.toNat < 0x80 ∨ 0xBF < fourth.toNat then .error (some 3)
                  else .ok (Char.ofNat (code * 64 + fourth.toNat % 64), rest)

/-- The rest after a character is shorter than what it was read from. -/
theorem firstChar_length {b : UInt8} {bytes rest : Bytes} {c : Char}
    (h : firstChar b bytes = .ok (c, rest)) : rest.length ≤ bytes.length := by
  unfold firstChar at h
  repeat' split at h
  all_goals simp_all
  all_goals omega

/-- Read a text from bytes; `position` bytes were read before. -/
def decodeFrom (position : Nat) : Bytes → Except Utf8Fault (List Char)
  | [] => .ok []
  | b :: bytes =>
    match h : firstChar b bytes with
    | .error length => .error ⟨position, length⟩
    | .ok (c, rest) =>
      have := firstChar_length h
      (decodeFrom (position + (bytes.length + 1 - rest.length)) rest).map (c :: ·)
termination_by bytes => bytes.length

def decodeText (bytes : Bytes) : Except Utf8Fault (List Char) := decodeFrom 0 bytes

end TemporalAlgebra.Binary
