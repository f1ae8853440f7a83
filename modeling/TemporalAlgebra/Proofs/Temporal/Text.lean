import TemporalAlgebra.Proofs.Temporal.Held
import TemporalAlgebra.Proofs.Time.RoundTrip
import TemporalAlgebra.Proofs.Value.Text
import TemporalAlgebra.Temporal.Text

/-!
# Texts of temporal values

The text of a value consists of the texts of its instants, put together between the brackets that
tell its form and its bounds. It is told from its first character which form is read.
-/
namespace TemporalAlgebra

namespace TextOptions

lemma split_eq_self {cs : List Char} (hsrid : Text.dropWord "SRID=" cs = .ok none)
    (hinterp : Text.dropWord "Interp=" cs = .ok none) (input : List Char)
    (options : TextOptions) : split input options cs = .ok (options, cs) := by
  have hone : options.splitOne input cs = .ok none := by
    unfold splitOne
    rw [bind_of_ok hsrid]
    change (Text.dropWord "Interp=" cs >>= _) = _
    rw [bind_of_ok hinterp]
    rfl
  rw [split, hone]

lemma split_ascii {c : Char} {rest : List Char} (hc : startsNoOption c = true)
    (hascii : ∀ d ∈ c :: rest, d.toNat < 128) (input : List Char) :
    split input {} (c :: rest) = .ok ({}, c :: rest) := by
  unfold startsNoOption at hc
  rw [Bool.and_eq_true, bne_iff_ne, bne_iff_ne] at hc
  apply split_eq_self
  · have hword : "SRID=".toList = 'S' :: "RID=".toList := by decide
    exact Text.dropWord_eq_none hword (by decide) hascii hc.1
  · have hword : "Interp=".toList = 'I' :: "nterp=".toList := by decide
    exact Text.dropWord_eq_none hword (by decide) hascii hc.2

end TextOptions

variable {V : Type} [TemporalValue V]

namespace Instant

lemma toList_text (i : Instant V) (places : Nat) : (i.text places).toList =
    (BaseValue.text i.value places).toList ++ '@' :: i.time.text.toList := by
  unfold text
  rw [String.toList_append, String.toList_append, List.append_assoc]
  rfl

/-- An instant that can be written and read back: its timestamp lies in the calendar and its value
is written in ASCII. -/
structure Legible (i : Instant V) : Prop where
  time : i.time.InCalendar
  ascii : BaseValue.Ascii i.value

lemma Legible.ascii_text {i : Instant V} (h : i.Legible) (places : Nat) :
    ∀ c ∈ (i.text places).toList, c.toNat < 128 := by
  rw [toList_text, List.forall_mem_append, List.forall_mem_cons]
  exact ⟨h.ascii places, by decide, fun c hc => (Timestamp.text_chars h.time c hc).1⟩

end Instant

namespace Sequence

/-- The bracket before the instants of a sequence. -/
def opening (s : Sequence V) : Char :=
  if s.isDiscrete then '\x7b' else if s.lowerInc then '[' else '('

def closing (s : Sequence V) : Char :=
  if s.isDiscrete then '\x7d' else if s.upperInc then ']' else ')'

def inner (s : Sequence V) (places : Nat) : List Char :=
  Text.together (s.instants.map fun i => (i.text places).toList)

lemma openingInc?_opening {s : Sequence V} (h : s.isDiscrete = false) :
    Span.openingInc? s.opening = some s.lowerInc := by
  unfold opening
  rw [h]
  cases s.lowerInc <;> rfl

lemma closingInc?_closing {s : Sequence V} (h : s.isDiscrete = false) :
    Span.closingInc? s.closing = some s.upperInc := by
  unfold closing
  rw [h]
  cases s.upperInc <;> rfl

lemma isOpening_opening (s : Sequence V) : Text.isOpening s.opening = true := by
  unfold opening
  split
  · rfl
  · split <;> rfl

lemma isClosing_closing (s : Sequence V) : Text.isClosing s.closing = true := by
  unfold closing
  split
  · rfl
  · split <;> rfl

lemma toList_bareText (s : Sequence V) (places : Nat) :
    (s.bareText places).toList = s.opening :: s.inner places ++ [s.closing] := by
  have hbody : (String.intercalate ", " (s.instants.map fun i => i.text places)).toList =
      s.inner places := by
    rw [Text.toList_together, List.map_map]
    rfl
  unfold bareText opening closing
  split
  · rw [String.toList_append, String.toList_append, hbody]
    rfl
  · rw [String.toList_append, String.toList_append, hbody]
    cases s.lowerInc <;> cases s.upperInc <;> rfl

lemma toList_bareText_discrete {s : Sequence V} (h : s.isDiscrete = true) (places : Nat) :
    (s.bareText places).toList = '\x7b' :: s.inner places ++ ['\x7d'] := by
  rw [toList_bareText]
  unfold opening closing
  rw [h]
  rfl

lemma tight_bareText (s : Sequence V) (places : Nat) :
    Text.Tight (s.bareText places).toList := by
  rw [toList_bareText]
  exact Text.tight_brackets s.isOpening_opening s.isClosing_closing _

lemma ascii_bareText {s : Sequence V} (h : ∀ i ∈ s.instants, i.Legible) (places : Nat) :
    ∀ c ∈ (s.bareText places).toList, c.toNat < 128 := by
  have hopening : s.opening.toNat < 128 := by
    rcases Text.isOpening_iff.mp s.isOpening_opening with h | h | h <;> rw [h] <;> decide
  have hclosing : s.closing.toNat < 128 := by
    rcases Text.isClosing_iff.mp s.isClosing_closing with h | h | h <;> rw [h] <;> decide
  have hinner : ∀ c ∈ s.inner places, c.toNat < 128 :=
    Text.together_chars (by decide) (by decide)
      (List.forall_mem_map.mpr fun i hi => (h i hi).ascii_text places)
  rw [toList_bareText, List.forall_mem_append, List.forall_mem_cons]
  exact ⟨⟨hopening, hinner⟩, List.forall_mem_singleton.mpr hclosing⟩

end Sequence

def SequenceSet.inner (s : SequenceSet V) (places : Nat) : List Char :=
  Text.together (s.sequences.map fun x => (x.bareText places).toList)

lemma SequenceSet.opens_inner {s : SequenceSet V} (h : s.first.isDiscrete = false)
    (places : Nat) : (Text.trimStart (s.inner places)).head?.bind Span.openingInc? =
      some s.first.lowerInc := by
  have hhead : (s.inner places).head? = some s.first.opening := by
    change (Text.together ((s.first.bareText places).toList :: _)).head? = _
    rw [Sequence.toList_bareText, Text.head?_together (by simp)]
    rfl
  have hblank := (s.first.tight_bareText places).first
  rw [Sequence.toList_bareText] at hblank
  rw [Text.trimStart_eq_self (hhead ▸ hblank), hhead, Option.bind_some]
  exact Sequence.openingInc?_opening h

def Temporal.InCalendar (v : Temporal V) : Prop := ∀ i ∈ v.instants, i.time.InCalendar

/-- Text of a value without what may stand in front of it. -/
def Temporal.bareText (v : Temporal V) (places : Nat) : List Char :=
  match v with
  | instant i => (i.text places).toList
  | sequence s => (s.bareText places).toList
  | sequenceSet s => '\x7b' :: s.inner places ++ ['\x7d']

lemma Temporal.toList_text [StepValue V] {v : Temporal V}
    (h : (TemporalValue.context v.firstInstant.value).srid = unknownSrid) (places : Nat) :
    (v.text places).toList = v.bareText places := by
  have hsrid : Point.sridText (TemporalValue.context v.firstInstant.value).srid = "" := by
    rw [h]
    rfl
  have hinterp : (if TemporalValue.continuous V && v.interp == .step then "Interp=Step;" else "") =
      "" := by
    rw [StepValue.continuous_eq_false]
    rfl
  unfold text bareText
  simp only [hsrid, hinterp, String.toList_append]
  cases v with
  | instant i => rfl
  | sequence s => rfl
  | sequenceSet s =>
    dsimp only
    rw [String.toList_append, String.toList_append, Text.toList_together, List.map_map]
    rfl

namespace Temporal

/-- A text with nothing in front of a value. -/
structure Plain (cs : List Char) : Prop where
  ne_nil : cs ≠ []
  tight : Text.Tight cs
  starts : ∀ c ∈ cs.head?, startsNoOption c = true

/-- A text that is read as a value with nothing in front of it. -/
structure Bare (cs : List Char) : Prop extends Plain cs where
  ascii : ∀ c ∈ cs, c.toNat < 128

lemma usualInterp_eq_step [StepValue V] : usualInterp V = .step := by
  unfold usualInterp
  rw [StepValue.continuous_eq_false]
  rfl

lemma openingInc?_eq_none {c : Char} (h : Text.isOpening c = false) :
    Span.openingInc? c = none := by
  unfold Span.openingInc?
  split
  · exact absurd h (by decide)
  · exact absurd h (by decide)
  · rfl

lemma Bare.split_eq {cs : List Char} (h : Bare cs) :
    TextOptions.split cs {} cs = .ok ({}, cs) := by
  obtain ⟨c, rest, rfl⟩ := List.exists_cons_of_ne_nil h.ne_nil
  exact TextOptions.split_ascii (h.starts c rfl) h.ascii _

section

variable {cs : List Char} (h : Plain cs) (hsplit : TextOptions.split cs {} cs = .ok ({}, cs))
include h hsplit

lemma Plain.read_braces [StepValue V] {inner : List Char}
    (htext : cs = '\x7b' :: inner ++ ['\x7d']) :
    (read cs : Result (Temporal V)) = readBraced .step .plain inner := by
  unfold read
  rw [Text.trimStart_eq_self h.tight.first, bind_of_ok hsplit]
  dsimp only
  rw [h.tight.trim_eq, Option.getD_none, Option.getD_none, usualInterp_eq_step, htext]
  change (Text.stripBraces "temporal value" ('\x7b' :: inner ++ ['\x7d']) >>= _) = _
  rw [bind_of_ok (Text.stripBraces_append _ _)]
  rfl

lemma Plain.read_brackets [StepValue V] {c : Char} {rest : List Char} (htext : cs = c :: rest)
    (hopening : (Span.openingInc? c).isSome = true) :
    (read cs : Result (Temporal V)) = sequence <$> Sequence.read .step .plain cs := by
  unfold read
  rw [Text.trimStart_eq_self h.tight.first, bind_of_ok hsplit]
  dsimp only
  rw [h.tight.trim_eq, Option.getD_none, Option.getD_none, usualInterp_eq_step, htext,
    map_eq_pure_bind]
  split
  · next heq => exact absurd heq (List.cons_ne_nil _ _)
  · next heq =>
    rw [(List.cons.inj heq).1] at hopening
    exact absurd hopening (by decide)
  · next heq =>
    rw [← (List.cons.inj heq).1, if_pos hopening]
    rfl

lemma Plain.read_value {c : Char} {rest : List Char} (htext : cs = c :: rest)
    (hopening : Text.isOpening c = false) :
    (read cs : Result (Temporal V)) = instant <$> Instant.read .plain cs := by
  unfold read
  rw [Text.trimStart_eq_self h.tight.first, bind_of_ok hsplit]
  dsimp only
  rw [h.tight.trim_eq, Option.getD_none, htext, map_eq_pure_bind]
  split
  · next heq => exact absurd heq (List.cons_ne_nil _ _)
  · next heq =>
    rw [(List.cons.inj heq).1] at hopening
    exact absurd hopening (by decide)
  · next heq =>
    rw [← (List.cons.inj heq).1, openingInc?_eq_none hopening, if_neg (by simp)]
    rfl

end

end Temporal

end TemporalAlgebra
