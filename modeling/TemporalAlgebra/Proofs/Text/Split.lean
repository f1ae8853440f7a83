import TemporalAlgebra.Proofs.Outcome
import TemporalAlgebra.Proofs.Text.Blank
import TemporalAlgebra.Text.Split

/-!
# Texts put together and taken apart

A text that is put together with a separator is cut there again. No cut adds a character.

A text is balanced if a reader stands at its end where it stood at its start and would part it
nowhere on the way. Balanced texts that are put together with commas come apart again, and between
brackets they are one balanced text.
-/
namespace TemporalAlgebra.Text

lemma splitOnce_append {separator : Char} {before : List Char} (h : separator ∉ before)
    (after : List Char) :
    splitOnce separator (before ++ separator :: after) = some (before, after) := by
  induction before with
  | nil => exact if_pos (beq_self_eq_true separator)
  | cons c before ih =>
    rw [List.mem_cons, not_or] at h
    rw [List.cons_append, splitOnce, if_neg (by simpa using Ne.symm h.1), ih h.2]
    rfl

lemma splitLast_append {separator : Char} {after : List Char} (h : separator ∉ after)
    (before : List Char) :
    splitLast separator (before ++ separator :: after) = some (before, after) := by
  have hreverse : (before ++ separator :: after).reverse =
      after.reverse ++ separator :: before.reverse := by simp
  unfold splitLast
  rw [hreverse, splitOnce_append (by simpa using h), Option.map_some]
  dsimp only
  rw [List.reverse_reverse, List.reverse_reverse]

lemma splitOnce_eq_append {separator : Char} {cs before after : List Char}
    (h : splitOnce separator cs = some (before, after)) : cs = before ++ separator :: after := by
  induction cs generalizing before after with
  | nil => simp [splitOnce] at h
  | cons c cs ih =>
    rw [splitOnce] at h
    split at h
    · next hc =>
      obtain ⟨rfl, rfl⟩ := Prod.mk.inj (Option.some.inj h)
      rw [beq_iff_eq.mp hc]
      rfl
    · obtain ⟨⟨front, back⟩, hfound, hparts⟩ := Option.map_eq_some_iff.mp h
      obtain ⟨rfl, rfl⟩ := Prod.mk.inj hparts
      rw [ih hfound]
      rfl

lemma splitLast_eq_append {separator : Char} {cs before after : List Char}
    (h : splitLast separator cs = some (before, after)) : cs = before ++ separator :: after := by
  obtain ⟨⟨back, front⟩, hfound, hparts⟩ := Option.map_eq_some_iff.mp h
  obtain ⟨rfl, rfl⟩ := Prod.mk.inj hparts
  rw [← List.reverse_inj, splitOnce_eq_append hfound]
  simp

lemma unwrap_append {opening closing : Char} (inner : List Char) :
    unwrap opening closing (opening :: inner ++ [closing]) = some inner := by
  unfold unwrap
  rw [List.cons_append]
  dsimp only
  rw [if_pos (beq_self_eq_true opening), List.reverse_append]
  change (if closing == closing then some inner.reverse.reverse else none) = _
  rw [if_pos (beq_self_eq_true closing), List.reverse_reverse]

lemma unwrap_eq_append {opening closing : Char} {cs inner : List Char}
    (h : unwrap opening closing cs = some inner) : cs = opening :: (inner ++ [closing]) := by
  unfold unwrap at h
  split at h
  · next c rest =>
    split at h
    · next hc =>
      split at h
      · next d back heq =>
        split at h
        · next hd =>
          obtain rfl := Option.some.inj h
          have hrest : rest = back.reverse ++ [d] := by
            rw [← List.reverse_inj, heq, List.reverse_append, List.reverse_reverse]
            rfl
          rw [beq_iff_eq.mp hc, hrest, beq_iff_eq.mp hd]
        · simp at h
      · simp at h
    · simp at h
  · simp at h

lemma cutAt_ascii {cs : List Char} (h : ∀ c ∈ cs, c.toNat < 128) (n : Nat) :
    cutAt n cs = if n ≤ cs.length then .between (cs.take n) (cs.drop n) else .short := by
  induction cs generalizing n with
  | nil => cases n <;> rfl
  | cons c cs ih =>
    rw [List.forall_mem_cons] at h
    cases n with
    | zero => rfl
    | succ n =>
      have hsize : c.utf8Size = 1 := by
        rw [Char.utf8Size_eq_one_iff, UInt32.le_iff_toNat_le]
        exact Nat.le_of_lt_succ h.1
      rw [cutAt, hsize, if_pos (by omega), Nat.add_sub_cancel, ih h.2, List.length_cons]
      by_cases hn : n ≤ cs.length
      · rw [if_pos hn, if_pos (Nat.succ_le_succ hn)]
        rfl
      · rw [if_neg hn, if_neg (by omega)]

lemma byteLength_cons (c : Char) (cs : List Char) :
    byteLength (c :: cs) = c.utf8Size + byteLength cs := rfl

/-- A cut after `n` bytes leaves a start of the text with as many bytes in front of it. -/
lemma cutAt_eq_between {n : Nat} {cs head tail : List Char} :
    cutAt n cs = .between head tail ↔ cs = head ++ tail ∧ byteLength head = n := by
  constructor
  · intro h
    fun_induction cutAt n cs generalizing head tail with
    | case1 cs =>
      obtain ⟨rfl, rfl⟩ := Cut.between.inj h
      exact ⟨rfl, rfl⟩
    | case2 n => simp at h
    | case3 n c cs hle first rest hcut ih =>
      obtain ⟨rfl, rfl⟩ := Cut.between.inj h
      obtain ⟨rfl, hlen⟩ := ih hcut
      rw [byteLength_cons]
      exact ⟨rfl, by omega⟩
    | case4 n c cs hle hother ih => exact absurd h (hother _ _)
    | case5 n c cs hlt => simp at h
  · rintro ⟨rfl, rfl⟩
    induction head with
    | nil =>
      change cutAt 0 tail = _
      rw [cutAt]
    | cons c head ih =>
      obtain ⟨n, hn⟩ := Nat.exists_eq_succ_of_ne_zero (Nat.ne_of_gt c.utf8Size_pos)
      rw [byteLength_cons, hn, Nat.succ_add, List.cons_append, cutAt, if_pos (by omega), hn,
        Nat.succ_sub_succ, Nat.add_sub_cancel_left, ih]

lemma byteLength_lt_of_short {n : Nat} {cs : List Char} (h : cutAt n cs = .short) :
    byteLength cs < n := by
  fun_induction cutAt n cs with
  | case1 cs => simp at h
  | case2 n => exact Nat.succ_pos n
  | case3 n c cs hle head tail hcut ih => simp at h
  | case4 n c cs hle hother ih =>
    have hrest := ih h
    rw [byteLength_cons]
    omega
  | case5 n c cs hlt => simp at h

lemma le_byteLength_of_inside {n : Nat} {cs : List Char} (h : cutAt n cs = .inside) :
    n ≤ byteLength cs := by
  fun_induction cutAt n cs with
  | case1 cs => simp at h
  | case2 n => simp at h
  | case3 n c cs hle head tail hcut ih => simp at h
  | case4 n c cs hle hother ih =>
    have hrest := ih h
    rw [byteLength_cons]
    omega
  | case5 n c cs hlt =>
    rw [byteLength_cons]
    omega

/-- A text has at least `n` bytes, but no start of it has exactly `n`: a cut after `n` bytes falls
inside a character. -/
def BreaksAfter (n : Nat) (cs : List Char) : Prop :=
  n ≤ byteLength cs ∧ ∀ head, head <+: cs → byteLength head ≠ n

lemma cutAt_eq_inside {n : Nat} {cs : List Char} : cutAt n cs = .inside ↔ BreaksAfter n cs := by
  constructor
  · intro h
    refine ⟨le_byteLength_of_inside h, fun head hhead hlen => ?_⟩
    obtain ⟨tail, htail⟩ := hhead
    exact nomatch h.symm.trans (cutAt_eq_between.mpr ⟨htail.symm, hlen⟩)
  · rintro ⟨hle, hnone⟩
    cases hcut : cutAt n cs with
    | short => exact absurd hle (Nat.not_le.mpr (byteLength_lt_of_short hcut))
    | inside => rfl
    | between head tail =>
      obtain ⟨rfl, hlen⟩ := cutAt_eq_between.mp hcut
      exact absurd hlen (hnone head (List.prefix_append head tail))

instance (n : Nat) (cs : List Char) : Decidable (BreaksAfter n cs) :=
  decidable_of_iff _ cutAt_eq_inside

/-- A text that is compared with `word` is cut inside a character. -/
abbrev BreaksAt (word : String) (cs : List Char) : Prop := BreaksAfter word.utf8ByteSize cs

lemma dropWord_eq_aborted {word : String} {cs : List Char} :
    dropWord word cs = .error .aborted ↔ BreaksAt word cs := by
  unfold BreaksAt dropWord
  rw [← cutAt_eq_inside]
  cases cutAt word.utf8ByteSize cs <;> simp

lemma not_breaksAfter_ascii {cs : List Char} (h : ∀ c ∈ cs, c.toNat < 128) (n : Nat) :
    ¬BreaksAfter n cs := by
  rw [← cutAt_eq_inside, cutAt_ascii h]
  split <;> simp

lemma dropWord_of_first {word : String} {w c : Char} {ws cs : List Char}
    (hword : word.toList = w :: ws) (hsize : word.utf8ByteSize ≠ 0)
    (hne : c.toLower ≠ w.toLower) (hbreaks : ¬BreaksAt word (c :: cs)) :
    dropWord word (c :: cs) = .ok none := by
  unfold dropWord
  split
  · rfl
  · next heq => exact absurd (cutAt_eq_inside.mp heq) hbreaks
  · next head tail heq =>
    obtain ⟨hparts, hlen⟩ := cutAt_eq_between.mp heq
    cases head with
    | nil => exact absurd hlen.symm hsize
    | cons d head =>
      obtain ⟨rfl, -⟩ := List.cons.inj hparts
      rw [if_neg]
      simp [hword, hne]

lemma dropWord_eq_none {word : String} {w c : Char} {ws cs : List Char}
    (hword : word.toList = w :: ws) (hsize : word.utf8ByteSize ≠ 0)
    (hascii : ∀ d ∈ c :: cs, d.toNat < 128) (hne : c.toLower ≠ w.toLower) :
    dropWord word (c :: cs) = .ok none :=
  dropWord_of_first hword hsize hne (not_breaksAfter_ascii hascii _)

lemma dropWord_eq_some {word : String} {cs tail : List Char}
    (h : dropWord word cs = .ok (some tail)) :
    ∃ head, cs = head ++ tail ∧ head.length = word.length := by
  unfold dropWord at h
  split at h
  · simp at h
  · simp at h
  · next head rest hcut =>
    split at h
    · next heq =>
      obtain rfl := Option.some.inj (Except.ok.inj h)
      have hlen := congrArg List.length (beq_iff_eq.mp heq)
      rw [List.length_map, List.length_map, String.length_toList] at hlen
      exact ⟨head, (cutAt_eq_between.mp hcut).1, hlen⟩
    · simp at h

/-- The nesting after a text; none if the text is parted on the way or a bracket closes that was
not open. -/
def Nesting.walk (place : Nesting) : List Char → Option Nesting
  | [] => some place
  | c :: rest =>
    if c == ',' && place.atTop then none else (place.step c).bind fun next => next.walk rest

/-- The nesting outside quotes at some depth of brackets. -/
def Nesting.at (depth : Nat) : Nesting := ⟨depth, false, false⟩

lemma Nesting.walk_append (place : Nesting) (cs ds : List Char) :
    place.walk (cs ++ ds) = (place.walk cs).bind fun next => next.walk ds := by
  induction cs generalizing place with
  | nil => rfl
  | cons c cs ih =>
    rw [List.cons_append, walk, walk]
    split
    · rfl
    · rw [Option.bind_assoc]
      simp only [ih]

def Parting.prepend (cs : List Char) (found : Parting) : Parting := cs.foldr Parting.push found

lemma Parting.prepend_parts (cs part : List Char) (found : List (List Char)) :
    prepend cs (.parts (part :: found)) = .parts ((cs ++ part) :: found) := by
  induction cs with
  | nil => rfl
  | cons c cs ih =>
    change push c (prepend cs _) = _
    rw [ih]
    rfl

lemma partFrom_append {place next : Nesting} {cs : List Char} (h : place.walk cs = some next)
    (rest : List Char) : partFrom place (cs ++ rest) = (partFrom next rest).prepend cs := by
  induction cs generalizing place with
  | nil =>
    obtain rfl := Option.some.inj h
    rfl
  | cons c cs ih =>
    rw [Nesting.walk] at h
    split at h
    · simp at h
    · next hcut =>
      obtain ⟨after, hstep, hwalk⟩ := Option.bind_eq_some_iff.mp h
      rw [List.cons_append, partFrom, if_neg hcut, hstep]
      change (partFrom after (cs ++ rest)).push c = _
      rw [ih hwalk]
      rfl

/-- A reader outside quotes stands at the end of the text where it stood at its start, at whatever
depth, and the text is not parted. -/
def Balanced (cs : List Char) : Prop :=
  ∀ depth, (Nesting.at depth).walk cs = some (Nesting.at depth)

/-- A reader between brackets stands at the end of the text where it stood at its start. -/
def Nested (cs : List Char) : Prop :=
  ∀ depth, (Nesting.at (depth + 1)).walk cs = some (Nesting.at (depth + 1))

lemma Balanced.partFrom_append {cs : List Char} (h : Balanced cs) (rest : List Char) :
    partFrom {} (cs ++ rest) = (partFrom {} rest).prepend cs :=
  Text.partFrom_append (h 0) rest

lemma Balanced.nested {cs : List Char} (h : Balanced cs) : Nested cs := fun depth => h (depth + 1)

lemma Balanced.append {cs ds : List Char} (hc : Balanced cs) (hd : Balanced ds) :
    Balanced (cs ++ ds) := by
  intro depth
  rw [Nesting.walk_append, hc depth]
  exact hd depth

lemma Nested.append {cs ds : List Char} (hc : Nested cs) (hd : Nested ds) : Nested (cs ++ ds) := by
  intro depth
  rw [Nesting.walk_append, hc depth]
  exact hd depth

/-- A character that opens, closes and parts nothing. -/
def isNeutral (c : Char) : Bool := !(c == ',' || c == '"' || isOpening c || isClosing c)

lemma Nesting.walk_neutral {c : Char} (h : isNeutral c = true) (depth : Nat) (cs : List Char) :
    (Nesting.at depth).walk (c :: cs) = (Nesting.at depth).walk cs := by
  unfold isNeutral at h
  simp only [Bool.not_eq_true', Bool.or_eq_false_iff] at h
  obtain ⟨⟨⟨hcomma, hquote⟩, hopen⟩, hclose⟩ := h
  have hstep : (Nesting.at depth).step c = some (Nesting.at depth) := by
    simp [Nesting.step, Nesting.at, hquote, hopen, hclose]
  rw [walk, hcomma, hstep]
  rfl

lemma balanced_of_neutral {cs : List Char} (h : ∀ c ∈ cs, isNeutral c = true) : Balanced cs := by
  intro depth
  induction cs with
  | nil => rfl
  | cons c cs ih =>
    rw [List.forall_mem_cons] at h
    rw [Nesting.walk_neutral h.1, ih h.2]

lemma isOpening_iff {c : Char} : isOpening c = true ↔ c = '[' ∨ c = '(' ∨ c = '\x7b' := by
  unfold isOpening
  rw [Bool.or_eq_true, Bool.or_eq_true, beq_iff_eq, beq_iff_eq, beq_iff_eq, or_assoc]

lemma isClosing_iff {c : Char} : isClosing c = true ↔ c = ']' ∨ c = ')' ∨ c = '\x7d' := by
  unfold isClosing
  rw [Bool.or_eq_true, Bool.or_eq_true, beq_iff_eq, beq_iff_eq, beq_iff_eq, or_assoc]

lemma Nested.balanced {opening closing : Char} (ho : isOpening opening = true)
    (hc : isClosing closing = true) {cs : List Char} (h : Nested cs) :
    Balanced (opening :: cs ++ [closing]) := by
  have hopening : opening ≠ ',' ∧ opening ≠ '"' := by
    constructor <;> rintro rfl <;> exact absurd ho (by decide)
  have hclosing : closing ≠ ',' ∧ closing ≠ '"' ∧ isOpening closing = false := by
    rcases isClosing_iff.mp hc with rfl | rfl | rfl <;> decide
  intro depth
  have hstart : (Nesting.at depth).step opening = some (Nesting.at (depth + 1)) := by
    simp [Nesting.step, Nesting.at, hopening.2, ho]
  have hend : (Nesting.at (depth + 1)).step closing = some (Nesting.at depth) := by
    simp [Nesting.step, Nesting.at, hclosing.2, hc]
  rw [List.cons_append, Nesting.walk, beq_false_of_ne hopening.1, hstart]
  change (Nesting.at (depth + 1)).walk (cs ++ [closing]) = _
  rw [Nesting.walk_append, h depth]
  change (Nesting.at (depth + 1)).walk [closing] = _
  rw [Nesting.walk, beq_false_of_ne hclosing.1, hend]
  rfl

lemma tight_brackets {opening closing : Char} (ho : isOpening opening = true)
    (hc : isClosing closing = true) (cs : List Char) : Tight (opening :: cs ++ [closing]) := by
  constructor
  · intro c h
    obtain rfl := Option.some.inj h
    rcases isOpening_iff.mp ho with rfl | rfl | rfl <;> decide
  · rw [List.getLast?_concat]
    intro c h
    obtain rfl := Option.some.inj h
    rcases isClosing_iff.mp hc with rfl | rfl | rfl <;> decide

lemma stripBraces_append (what : String) (inner : List Char) :
    stripBraces what ('\x7b' :: inner ++ ['\x7d']) = .ok inner := by
  unfold stripBraces
  rw [(tight_brackets rfl rfl inner).trim_eq, unwrap_append]
  rfl

def together (parts : List (List Char)) : List Char := [',', ' '].intercalate parts

lemma together_cons_cons (p q : List Char) (parts : List (List Char)) :
    together (p :: q :: parts) = p ++ ',' :: ' ' :: together (q :: parts) := by
  unfold together
  rw [List.intercalate_cons_cons, List.append_assoc]
  rfl

lemma toList_together (parts : List String) :
    (String.intercalate ", " parts).toList = together (parts.map String.toList) :=
  String.toList_intercalate

lemma head?_together {p : List Char} (hp : p ≠ []) (parts : List (List Char)) :
    (together (p :: parts)).head? = p.head? := by
  cases parts with
  | nil =>
    unfold together
    rw [List.intercalate_singleton]
  | cons q parts => rw [together_cons_cons, List.head?_append_of_ne_nil _ hp]

lemma together_chars {p : Char → Prop} (hcomma : p ',') (hblank : p ' ') {parts : List (List Char)}
    (h : ∀ part ∈ parts, ∀ c ∈ part, p c) : ∀ c ∈ together parts, p c := by
  induction parts with
  | nil => exact fun c hc => absurd hc List.not_mem_nil
  | cons part parts ih =>
    rw [List.forall_mem_cons] at h
    cases parts with
    | nil =>
      unfold together
      rw [List.intercalate_singleton]
      exact h.1
    | cons next parts =>
      rw [together_cons_cons, List.forall_mem_append, List.forall_mem_cons, List.forall_mem_cons]
      exact ⟨h.1, hcomma, hblank, ih h.2⟩

lemma nested_together {parts : List (List Char)} (h : ∀ p ∈ parts, Balanced p) :
    Nested (together parts) := by
  have hcomma : Nested [',', ' '] := fun depth => rfl
  induction parts with
  | nil => exact fun depth => rfl
  | cons p parts ih =>
    rw [List.forall_mem_cons] at h
    cases parts with
    | nil =>
      unfold together
      rw [List.intercalate_singleton]
      exact h.1.nested
    | cons q parts =>
      rw [together_cons_cons]
      exact h.1.nested.append (hcomma.append (ih h.2))

/-- Balanced parts come apart at the commas between them. -/
lemma partFrom_intercalate {p : List Char} {parts : List (List Char)} (hp : Balanced p)
    (h : ∀ q ∈ parts, Balanced q) :
    partFrom {} ([','].intercalate (p :: parts)) = .parts (p :: parts) := by
  induction parts generalizing p with
  | nil =>
    rw [List.intercalate_singleton]
    nth_rewrite 1 [← List.append_nil p]
    rw [hp.partFrom_append]
    change Parting.prepend p (.parts [[]]) = _
    rw [Parting.prepend_parts, List.append_nil]
  | cons q parts ih =>
    rw [List.forall_mem_cons] at h
    rw [List.intercalate_cons_cons, List.append_assoc, hp.partFrom_append]
    change Parting.prepend p (partFrom {} ([','].intercalate (q :: parts))).cut = _
    rw [ih h.1 h.2]
    change Parting.prepend p (.parts ([] :: q :: parts)) = _
    rw [Parting.prepend_parts, List.append_nil]

lemma together_eq_intercalate (p : List Char) (parts : List (List Char)) :
    together (p :: parts) = [','].intercalate (p :: parts.map (' ' :: ·)) := by
  induction parts generalizing p with
  | nil => rfl
  | cons q parts ih =>
    rw [together_cons_cons, ih, List.map_cons, List.intercalate_cons_cons]
    cases parts <;> simp

/-- A text that comes apart again from others that it is put together with. -/
structure Part (cs : List Char) : Prop where
  balanced : Balanced cs
  tight : Tight cs
  ne_nil : cs ≠ []

/-- Parts come apart as they were put together. -/
theorem splitTopLevel_together {parts : List (List Char)} (hne : parts ≠ [])
    (h : ∀ p ∈ parts, Part p) : splitTopLevel (together parts) = .ok parts := by
  obtain ⟨p, parts, rfl⟩ := List.exists_cons_of_ne_nil hne
  have hblank : Balanced [' '] := balanced_of_neutral (List.forall_mem_singleton.mpr rfl)
  have hfound : partFrom {} (together (p :: parts)) = .parts (p :: parts.map (' ' :: ·)) := by
    rw [together_eq_intercalate]
    exact partFrom_intercalate (h p (by simp)).balanced
      (List.forall_mem_map.mpr fun q hq => hblank.append (h q (by simp [hq])).balanced)
  have htrim : (p :: parts.map (' ' :: ·)).map trim = p :: parts := by
    rw [List.map_cons, (h p (by simp)).tight.trim_eq, List.map_map]
    congr 1
    calc parts.map (trim ∘ (' ' :: ·))
      _ = parts.map id :=
        List.map_congr_left fun q hq => (h q (by simp [hq])).tight.trim_blank_cons rfl
      _ = parts := List.map_id parts
  have hany : (p :: parts).any List.isEmpty = false := by
    rw [List.any_eq_false]
    intro q hq
    simpa using (h q hq).ne_nil
  unfold splitTopLevel
  simp only [hfound, htrim, hany]
  rfl

lemma read_together {α : Type} {write : α → List Char} {read : List Char → Result α} {as : List α}
    (hne : as ≠ []) (hpart : ∀ a ∈ as, Part (write a)) (hread : ∀ a ∈ as, read (write a) = .ok a) :
    splitTopLevel (together (as.map write)) = .ok (as.map write) ∧
      (as.map write).mapM read = .ok as := by
  constructor
  · apply splitTopLevel_together
    · simpa using hne
    · exact List.forall_mem_map.mpr hpart
  · rw [mapM_eq_ok, List.forall₂_map_left_iff, List.forall₂_same]
    exact hread

lemma partFrom_ne_nil (place : Nesting) (cs : List Char) : partFrom place cs ≠ .parts [] := by
  cases cs with
  | nil =>
    rw [partFrom]
    split <;> simp
  | cons c cs =>
    rw [partFrom]
    split
    · cases partFrom place cs <;> simp [Parting.cut]
    · split
      · simp
      · next next hstep =>
        rcases partFrom next cs with _ | _ | (_ | _) <;> simp [Parting.push]

/-- A text is parted at its first character, or that goes to the first part. -/
lemma partFrom_cons_eq_parts {place : Nesting} {c : Char} {cs : List Char}
    {found : List (List Char)} (h : partFrom place (c :: cs) = .parts found) :
    ((c == ',' && place.atTop) = true ∧
      ∃ later, partFrom place cs = .parts later ∧ found = [] :: later) ∨
    ¬(c == ',' && place.atTop) = true ∧ ∃ next first rest, place.step c = some next ∧
      partFrom next cs = .parts (first :: rest) ∧ found = (c :: first) :: rest := by
  rw [partFrom] at h
  split at h
  · next hcut =>
    refine .inl ⟨hcut, ?_⟩
    cases hlater : partFrom place cs with
    | unopened => simp [hlater, Parting.cut] at h
    | unclosed => simp [hlater, Parting.cut] at h
    | parts later =>
      rw [hlater] at h
      exact ⟨later, rfl, (Parting.parts.inj h).symm⟩
  · next hcut =>
    refine .inr ⟨hcut, ?_⟩
    split at h
    · simp at h
    · next next hstep =>
      cases hlater : partFrom next cs with
      | unopened => simp [hlater, Parting.push] at h
      | unclosed => simp [hlater, Parting.push] at h
      | parts later =>
        obtain ⟨first, rest, rfl⟩ := List.exists_cons_of_ne_nil fun hnil =>
          partFrom_ne_nil next cs (hnil ▸ hlater)
        rw [hlater] at h
        exact ⟨next, first, rest, hstep, hlater, (Parting.parts.inj h).symm⟩

/-- The first part of a text stands at its start, the others behind its commas. -/
lemma partFrom_isInfix {place : Nesting} {cs : List Char} {found : List (List Char)}
    (h : partFrom place cs = .parts found) :
    ∃ first rest, found = first :: rest ∧ first <+: cs ∧ ∀ part ∈ rest, ',' :: part <:+: cs := by
  induction cs generalizing place found with
  | nil =>
    rw [partFrom] at h
    split at h
    · obtain rfl := Parting.parts.inj h
      exact ⟨[], [], rfl, List.prefix_refl [], by simp⟩
    · simp at h
  | cons c cs ih =>
    have hskip {part : List Char} (hpart : part <:+: cs) : part <:+: c :: cs :=
      hpart.trans (List.suffix_cons c cs).isInfix
    obtain ⟨hcut, later, hlater, rfl⟩ | ⟨-, next, first, rest, -, hlater, rfl⟩ :=
      partFrom_cons_eq_parts h
    · rw [Bool.and_eq_true, beq_iff_eq] at hcut
      obtain ⟨first, rest, rfl, hfirst, hparts⟩ := ih hlater
      refine ⟨[], first :: rest, rfl, ⟨c :: cs, rfl⟩, List.forall_mem_cons.mpr ⟨?_, ?_⟩⟩
      · rw [hcut.1]
        exact (List.prefix_cons_inj ',').mpr hfirst |>.isInfix
      · exact fun part hpart => hskip (hparts part hpart)
    · obtain ⟨_, _, heq, hfirst, hparts⟩ := ih hlater
      obtain ⟨rfl, rfl⟩ := List.cons.inj heq
      exact ⟨c :: first, rest, rfl, (List.prefix_cons_inj c).mpr hfirst,
        fun part hpart => hskip (hparts part hpart)⟩

end TemporalAlgebra.Text
