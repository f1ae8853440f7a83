import TemporalAlgebra.Proofs.Number.Numerals
import TemporalAlgebra.Proofs.Text.Pieces
import TemporalAlgebra.Proofs.Time.Text
import TemporalAlgebra.Value.Scalar

/-!
# Values read back from their text

Truth values, integers and quoted texts are read back from their text. Nothing in such a text takes
part in how the text around it is put together: brackets and commas only stand between quotes, and
no value starts like a bracket or an option.
-/
namespace TemporalAlgebra

namespace Quoted

/-- What is escaped starts with the mark only if marks are escaped by themselves. -/
lemma escape_head {mark d : Char} {cs : List Char} (h : (escape mark cs).head? = some d)
    (hd : d = mark) : mark = '\\' := by
  cases cs with
  | nil => simp [escape] at h
  | cons c cs =>
    rw [escape] at h
    split at h
    · exact hd.symm.trans (Option.some.inj h).symm
    · next hne =>
      rw [hd] at h
      exact absurd (beq_iff_eq.mpr (Option.some.inj h)) hne

/-- Backslashes before marks are put and dropped. -/
lemma unescape_escape (mark : Char) (cs : List Char) : unescape mark (escape mark cs) = cs := by
  induction cs with
  | nil => rfl
  | cons c cs ih =>
    rw [escape]
    split
    · next hmark =>
      rw [beq_iff_eq] at hmark
      rw [unescape, hmark, beq_self_eq_true, beq_self_eq_true, ih]
      rfl
    · next hmark =>
      cases hrest : escape mark cs with
      | nil =>
        rw [hrest] at ih
        rw [unescape, ← ih]
        rfl
      | cons d ds =>
        -- A backslash in the text meets no mark behind it.
        have hpair : (c == '\\' && d == mark) = false := by
          rw [Bool.and_eq_false_iff, beq_eq_false_iff_ne, beq_eq_false_iff_ne]
          by_contra hboth
          rw [not_or, not_not, not_not] at hboth
          have hback := escape_head (by rw [hrest]; rfl) hboth.2
          exact hmark (by rw [hback, hboth.1]; rfl)
        rw [unescape, hpair, ← hrest, ih]
        rfl

lemma unescape_subset (mark : Char) (cs : List Char) : unescape mark cs ⊆ cs := by
  fun_induction unescape mark cs with
  | case1 => exact List.Subset.refl _
  | case2 c => exact List.Subset.refl _
  | case3 c d rest h ih =>
    exact List.subset_cons_of_subset _ (List.cons_subset_cons d ih)
  | case4 c d rest h ih => exact List.cons_subset_cons c ih

lemma escape_subset (mark : Char) (cs : List Char) : escape mark cs ⊆ '\\' :: cs := by
  induction cs with
  | nil => exact List.nil_subset _
  | cons c cs ih =>
    have hrest : escape mark cs ⊆ '\\' :: c :: cs := fun x hx => by
      rcases List.mem_cons.mp (ih hx) with rfl | hx
      · exact List.mem_cons_self ..
      · exact List.mem_cons_of_mem _ (List.mem_cons_of_mem _ hx)
    have hhead : c ∈ '\\' :: c :: cs := by simp
    rw [escape]
    split
    · exact List.cons_subset.mpr ⟨List.mem_cons_self .., List.cons_subset.mpr ⟨hhead, hrest⟩⟩
    · exact List.cons_subset.mpr ⟨hhead, hrest⟩

lemma walk_escape (depth : Nat) (cs : List Char) :
    Text.Nesting.walk ⟨depth, true, false⟩ (escape '"' (escape '\\' cs)) =
      some ⟨depth, true, false⟩ := by
  induction cs with
  | nil => rfl
  | cons c cs ih =>
    by_cases hback : c = '\\'
    · rw [hback]
      exact ih
    · by_cases hquote : c = '"'
      · rw [hquote]
        exact ih
      · have hescape : escape '"' (escape '\\' (c :: cs)) = c :: escape '"' (escape '\\' cs) := by
          rw [escape, if_neg (by simpa using hback), escape, if_neg (by simpa using hquote)]
        have hstep : Text.Nesting.step ⟨depth, true, false⟩ c = some ⟨depth, true, false⟩ := by
          simp [Text.Nesting.step, hback, hquote]
        rw [hescape, Text.Nesting.walk, if_neg (by simp [Text.Nesting.atTop]), hstep]
        exact ih

lemma balanced_write (cs : List Char) : Text.Balanced (write cs) := by
  intro depth
  unfold write
  change (Text.Nesting.mk depth true false).walk (escape '"' (escape '\\' cs) ++ ['"']) = _
  rw [Text.Nesting.walk_append, walk_escape]
  rfl

lemma write_chars {cs : List Char} {c : Char} (h : c ∈ write cs) : c = '"' ∨ c = '\\' ∨ c ∈ cs := by
  unfold write at h
  rw [List.mem_append, List.mem_cons, List.mem_singleton] at h
  rcases h with (rfl | h) | rfl
  · exact .inl rfl
  · rcases List.mem_cons.mp (escape_subset _ _ h) with rfl | h
    · exact .inr (.inl rfl)
    · exact .inr (List.mem_cons.mp (escape_subset _ _ h))
  · exact .inl rfl

lemma tight_write (cs : List Char) : Text.Tight (write cs) := by
  refine Text.Tight.append (fun c hc => ?_) (by simp) (fun c hc => ?_) (by simp)
  · rw [← Option.some.inj hc]
    decide
  · rw [← Option.some.inj hc]
    decide

/-- A text is read back from between its quotes. -/
lemma read_write (cs : List Char) : read (write cs) = .ok (String.ofList cs) := by
  have hinner : Text.unwrap '"' '"' (write cs) = some (escape '"' (escape '\\' cs)) :=
    Text.unwrap_append _
  unfold read
  simp only [(tight_write cs).trim_eq, hinner, unescape_escape]

lemma read_surrounded {front back : List Char} (hfront : ∀ c ∈ front, Text.isBlank c = true)
    (hback : ∀ c ∈ back, Text.isBlank c = true) (cs : List Char) :
    read (front ++ write cs ++ back) = .ok (String.ofList cs) := by
  have htrim : Text.trim (front ++ write cs ++ back) = Text.trim (write cs) := by
    rw [(tight_write cs).trim_append (by simp [write]) hfront hback, (tight_write cs).trim_eq]
  rw [← read_write cs]
  unfold read
  rw [htrim]

lemma isSpecial_iff {c : Char} :
    isSpecial c = true ↔ c ∈ ['"', ',', '@', '\x7b', '\x7d', '[', ']'] := by
  simp [isSpecial, or_assoc]

lemma isBlank_of_isSpecial {c : Char} (h : isSpecial c = true) : Text.isBlank c = false := by
  have hall : ['"', ',', '@', '\x7b', '\x7d', '[', ']'].all (fun d => !Text.isBlank d) = true := by
    decide
  simpa using List.all_eq_true.mp hall c (isSpecial_iff.mp h)

lemma read_special {cs : List Char} (h : ∃ c ∈ cs, isSpecial c = true) :
    (∃ s inner, Text.trim cs = '"' :: (inner ++ ['"']) ∧ read cs = .ok s) ∨
      (¬∃ inner, Text.trim cs = '"' :: (inner ++ ['"'])) ∧
        read cs = refuse (.textInput
          ("Text value '" ++ String.ofList (Text.trim cs) ++ "' must be quoted")) := by
  have hany : (Text.trim cs).any isSpecial = true := by
    obtain ⟨c, hc, hspecial⟩ := h
    exact List.any_eq_true.mpr ⟨c, Text.mem_trim hc (isBlank_of_isSpecial hspecial), hspecial⟩
  cases hunwrap : Text.unwrap '"' '"' (Text.trim cs) with
  | some inner =>
    left
    refine ⟨String.ofList (unescape '\\' (unescape '"' inner)), inner,
      Text.unwrap_eq_append hunwrap, ?_⟩
    unfold read
    simp only [hunwrap]
  | none =>
    right
    constructor
    · rintro ⟨inner, hinner⟩
      rw [hinner, ← List.cons_append, Text.unwrap_append] at hunwrap
      cases hunwrap
    · unfold read
      simp only [hunwrap, hany, if_true]

lemma read_subset {cs : List Char} {s : String} (h : read cs = .ok s) : s.toList ⊆ cs := by
  have htrim : Text.trim cs ⊆ cs := (Text.isInfix_trim cs).subset
  unfold read at h
  dsimp only at h
  split at h
  · next inner hinner =>
    rw [← Except.ok.inj h, String.toList_ofList]
    have hunescape := List.Subset.trans (unescape_subset '\\' _) (unescape_subset '"' inner)
    have hquoted := (Text.Piece.unwrap (by decide) hinner).subset
    exact List.Subset.trans hunescape (List.Subset.trans hquoted htrim)
  · split at h
    · exact absurd h refuse_ne_ok
    · rw [← Except.ok.inj h, String.toList_ofList]
      exact htrim

end Quoted

def startsNoOption (c : Char) : Bool := c.toLower != 's' && c.toLower != 'i'

def isValueStart (c : Char) : Bool := !Text.isBlank c && !Text.isOpening c && startsNoOption c

lemma isValueStart_iff {c : Char} : isValueStart c = true ↔
    (Text.isBlank c = false ∧ Text.isOpening c = false) ∧ startsNoOption c = true := by
  unfold isValueStart
  rw [Bool.and_eq_true, Bool.and_eq_true, Bool.not_eq_true', Bool.not_eq_true']

/-- A value is written in ASCII, with however many decimals. -/
def BaseValue.Ascii {V : Type} [BaseValue V] (x : V) : Prop :=
  ∀ places, ∀ c ∈ (BaseValue.text x places).toList, c.toNat < 128

/-- A value is read from a text that has no characters but those of another one. -/
def BaseValue.ReadFrom {V : Type} [BaseValue V] (cs : List Char) (x : V) : Prop :=
  ∃ context part, part ⊆ cs ∧ BaseValue.read context part = .ok x

lemma BaseValue.ReadFrom.mono {V : Type} [BaseValue V] {cs ds : List Char} {x : V}
    (h : ReadFrom cs x) (hsubset : cs ⊆ ds) : ReadFrom ds x := by
  obtain ⟨context, part, hpart, hread⟩ := h
  exact ⟨context, part, List.Subset.trans hpart hsubset, hread⟩

/-- Values that are read back from their text. -/
class LegibleValue (V : Type) [TemporalValue V] : Prop where
  srid_eq : ∀ x : V, (TemporalValue.context x).srid = unknownSrid
  reads : ∀ (x : V) (places : Nat) (context : ValueContext),
    BaseValue.read context (BaseValue.text x places).toList = .ok x
  balanced : ∀ (x : V) (places : Nat), Text.Balanced (BaseValue.text x places).toList
  starts : ∀ (x : V) (places : Nat), ∃ c rest,
    (BaseValue.text x places).toList = c :: rest ∧ isValueStart c = true

lemma toList_truth (b : Bool) (places : Nat) :
    (BaseValue.text b places).toList = [if b then 't' else 'f'] := by
  change (if b then "t" else "f").toList = _
  cases b <;> decide

instance : LegibleValue Bool where
  srid_eq _ := rfl
  reads x _ _ := by
    rw [toList_truth]
    cases x <;> rfl
  balanced x _ := by
    rw [toList_truth]
    apply Text.balanced_of_neutral
    cases x <;> exact List.forall_mem_singleton.mpr rfl
  starts x _ := by
    rw [toList_truth]
    cases x with
    | false => exact ⟨'f', [], rfl, by decide⟩
    | true => exact ⟨'t', [], rfl, by decide⟩

lemma ascii_truth (b : Bool) : BaseValue.Ascii b := by
  intro places
  rw [toList_truth]
  cases b <;> exact List.forall_mem_singleton.mpr (by decide)

lemma Decimal.isTimeChar_ofInt (n : Int) : ∀ c ∈ (ofInt n).toList, isTimeChar c = true := by
  have hdigits : ∀ c ∈ digits n.natAbs, isTimeChar c = true := fun c hc =>
    isTimeChar_of_isDigit (numeral_digits _ c hc)
  rw [toList_ofInt]
  split
  · exact List.forall_mem_cons.mpr ⟨rfl, hdigits⟩
  · exact hdigits

instance : LegibleValue Integer where
  srid_eq _ := rfl
  reads x _ _ := by
    have htight : Text.Tight (Decimal.ofInt x.val).toList :=
      Text.tight_of_forall fun c hc => (isTimeChar_spec (Decimal.isTimeChar_ofInt _ c hc)).2.1
    change SpanDomain.readInteger "integer" (Text.trim (Decimal.ofInt x.val).toList) = .ok x
    rw [htight.trim_eq]
    exact orRefuse_eq_ok.mpr (Decimal.readSigned?_ofInt x)
  balanced x _ := Text.balanced_of_neutral fun c hc =>
    (isTimeChar_spec (Decimal.isTimeChar_ofInt _ c hc)).2.2.1
  starts x _ := by
    obtain ⟨c, rest, htext⟩ := List.exists_cons_of_ne_nil (Decimal.toList_ofInt_ne_nil x.val)
    have hchars := Decimal.isTimeChar_ofInt x.val
    rw [htext, List.forall_mem_cons] at hchars
    exact ⟨c, rest, htext, forall_isTimeChar (isValueStart · = true) (by decide) hchars.1⟩

lemma ascii_integer (n : Integer) : BaseValue.Ascii n := fun _ c hc =>
  (isTimeChar_spec (Decimal.isTimeChar_ofInt _ c hc)).1

instance : LegibleValue String where
  srid_eq _ := rfl
  reads x _ _ := by
    change Quoted.read (String.ofList (Quoted.write x.toList)).toList = .ok x
    rw [String.toList_ofList, Quoted.read_write, String.ofList_toList]
  balanced x _ := by
    change Text.Balanced (String.ofList (Quoted.write x.toList)).toList
    rw [String.toList_ofList]
    exact Quoted.balanced_write _
  starts x _ := ⟨'"', _, String.toList_ofList, by decide⟩

/-- Every text is read back from its literal, with blanks around it or without. Of the texts with
special characters just those between quotes are read. -/
theorem text_literals_round_trip (context : ValueContext) :
    (∀ (s : String) (places : Nat) (front back : List Char),
      (∀ c ∈ front, Text.isBlank c = true) → (∀ c ∈ back, Text.isBlank c = true) →
        BaseValue.read context (front ++ (BaseValue.text s places).toList ++ back) = .ok s) ∧
      ∀ cs : List Char, (∃ c ∈ cs, c ∈ ['"', ',', '@', '\x7b', '\x7d', '[', ']']) →
        ((∃ s : String, BaseValue.read context cs = .ok s) ↔
          ∃ inner, Text.trim cs = '"' :: (inner ++ ['"'])) ∧
        ((¬∃ inner, Text.trim cs = '"' :: (inner ++ ['"'])) →
          (BaseValue.read context cs : Result String) = refuse (.textInput
            ("Text value '" ++ String.ofList (Text.trim cs) ++ "' must be quoted"))) := by
  constructor
  · intro s places front back hfront hback
    change Quoted.read (front ++ (String.ofList (Quoted.write s.toList)).toList ++ back) = .ok s
    rw [String.toList_ofList, Quoted.read_surrounded hfront hback, String.ofList_toList]
  · intro cs hspecial
    change ((∃ s, Quoted.read cs = .ok s) ↔ _) ∧ (_ → Quoted.read cs = _)
    simp only [← Quoted.isSpecial_iff] at hspecial
    rcases Quoted.read_special hspecial with ⟨s, inner, hinner, hread⟩ | ⟨hnone, hread⟩
    · exact ⟨iff_of_true ⟨s, hread⟩ ⟨inner, hinner⟩, fun hnone => absurd ⟨inner, hinner⟩ hnone⟩
    · rw [hread]
      exact ⟨iff_of_false (fun ⟨s, hs⟩ => refuse_ne_ok hs) hnone, fun _ => rfl⟩

/-- A quote between backslashes, with blanks around its literal, and two words that are not
quoted. -/
theorem backslashes_read_back :
    BaseValue.read .plain ([' ', '\t'] ++ (BaseValue.text "a\\\"b\\\\" 3).toList ++ ['\n']) =
        .ok "a\\\"b\\\\" ∧
      (BaseValue.read .plain [' ', 'a', ',', 'b'] : Result String) =
        refuse (.textInput "Text value 'a,b' must be quoted") := by
  obtain ⟨hread, hrefuse⟩ := text_literals_round_trip .plain
  have hfront : ∀ c ∈ [' ', '\t'], Text.isBlank c = true := List.all_eq_true.mp (by decide)
  have hback : ∀ c ∈ ['\n'], Text.isBlank c = true := List.all_eq_true.mp (by decide)
  refine ⟨hread _ _ _ _ hfront hback, (hrefuse _ ⟨',', by decide, by decide⟩).2 ?_⟩
  rintro ⟨inner, hinner⟩
  cases hinner

lemma ascii_string {s : String} (h : ∀ c ∈ s.toList, c.toNat < 128) : BaseValue.Ascii s := by
  intro _ c hc
  change c ∈ (String.ofList (Quoted.write s.toList)).toList at hc
  rw [String.toList_ofList] at hc
  rcases Quoted.write_chars hc with rfl | rfl | hc
  · decide
  · decide
  · exact h c hc

/-- A text has no characters but those of what it is read from. -/
lemma subset_of_readFrom {cs : List Char} {s : String} (h : BaseValue.ReadFrom cs s) :
    s.toList ⊆ cs := by
  obtain ⟨_, part, hpart, hread⟩ := h
  exact List.Subset.trans (Quoted.read_subset hread) hpart

end TemporalAlgebra
