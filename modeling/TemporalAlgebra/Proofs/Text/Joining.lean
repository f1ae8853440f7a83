import TemporalAlgebra.Proofs.Text.Split

/-!
# Splitting inverts joining

A text that is its own only part is balanced, without white space at its ends and not empty. Such
texts are joined with commas, each with any white space around it. Splitting gives them back, and
every text that is split is joined from the parts that come out.
-/
namespace TemporalAlgebra.Text

/-- A text with white space around it. -/
structure Padded where
  front : List Char
  part : List Char
  back : List Char
  front_blank : ∀ c ∈ front, isBlank c = true
  back_blank : ∀ c ∈ back, isBlank c = true

def Padded.text (p : Padded) : List Char := p.front ++ p.part ++ p.back

/-- Parts joined with commas, each with the white space around it. -/
def joined (parts : List Padded) : List Char := [','].intercalate (parts.map Padded.text)

/-- A text comes back as its own only part when it is split. -/
def Single (cs : List Char) : Prop := splitTopLevel cs = .ok [cs]

instance (cs : List Char) : Decidable (Single cs) :=
  inferInstanceAs (Decidable (splitTopLevel cs = .ok [cs]))

lemma isNeutral_of_isBlank {c : Char} (h : isBlank c = true) : isNeutral c = true := by
  have hne {d : Char} (hd : isBlank d = false) : (c == d) = false := by
    rw [beq_eq_false_iff_ne]
    rintro rfl
    rw [h] at hd
    cases hd
  unfold isNeutral isOpening isClosing
  simp only [hne (by decide : isBlank ',' = false), hne (by decide : isBlank '"' = false),
    hne (by decide : isBlank '[' = false), hne (by decide : isBlank '(' = false),
    hne (by decide : isBlank '\x7b' = false), hne (by decide : isBlank ']' = false),
    hne (by decide : isBlank ')' = false), hne (by decide : isBlank '\x7d' = false)]
  rfl

lemma balanced_of_blank {cs : List Char} (h : ∀ c ∈ cs, isBlank c = true) : Balanced cs :=
  balanced_of_neutral fun c hc => isNeutral_of_isBlank (h c hc)

lemma trimEnd_append_takeWhile (cs : List Char) :
    trimEnd cs ++ (cs.reverse.takeWhile isBlank).reverse = cs := by
  unfold trimEnd dropEndWhile
  rw [← List.reverse_append, List.takeWhile_append_dropWhile, List.reverse_reverse]

lemma exists_padded (cs : List Char) : ∃ p : Padded, p.part = trim cs ∧ p.text = cs := by
  refine ⟨⟨cs.takeWhile isBlank, trim cs, ((trimStart cs).reverse.takeWhile isBlank).reverse,
    fun c hc => List.mem_takeWhile_imp hc, fun c hc => ?_⟩, rfl, ?_⟩
  · exact List.mem_takeWhile_imp (List.mem_reverse.mp hc)
  · calc cs.takeWhile isBlank ++ trim cs ++ ((trimStart cs).reverse.takeWhile isBlank).reverse
      _ = cs.takeWhile isBlank ++ trimStart cs := by
        rw [List.append_assoc, trim, trimEnd_append_takeWhile]
      _ = cs := List.takeWhile_append_dropWhile

lemma tight_trim (cs : List Char) : Tight (trim cs) := by
  constructor
  · have hfirst := List.head?_dropWhile_not isBlank (trim cs)
    rw [← trimStart, trimStart_trim] at hfirst
    intro c hc
    rwa [Option.mem_def.mp hc] at hfirst
  · have hlast := List.head?_dropWhile_not isBlank (trimStart cs).reverse
    intro c hc
    unfold trim trimEnd dropEndWhile at hc
    rw [List.getLast?_reverse] at hc
    rwa [Option.mem_def.mp hc] at hlast

/-- The nesting inside `depth` more brackets. -/
def Nesting.inside (place : Nesting) (depth : Nat) : Nesting :=
  { place with depth := place.depth + depth }

lemma Nesting.atTop_of_inside {place : Nesting} {depth : Nat}
    (h : (place.inside depth).atTop = true) : place.atTop = true := by
  simp only [atTop, inside, Bool.and_eq_true, beq_iff_eq] at h ⊢
  exact ⟨h.1, by omega⟩

lemma Nesting.step_inside {place next : Nesting} {c : Char} (h : place.step c = some next)
    (depth : Nat) : (place.inside depth).step c = some (next.inside depth) := by
  unfold step at h ⊢
  simp only [inside]
  grind

lemma Nesting.walk_inside {place next : Nesting} {cs : List Char} (h : place.walk cs = some next)
    (depth : Nat) : (place.inside depth).walk cs = some (next.inside depth) := by
  induction cs generalizing place with
  | nil =>
    obtain rfl := Option.some.inj h
    rfl
  | cons c cs ih =>
    rw [walk] at h
    split at h
    · simp at h
    · next hcut =>
      obtain ⟨after, hstep, hwalk⟩ := Option.bind_eq_some_iff.mp h
      have hcut' : ¬(c == ',' && (place.inside depth).atTop) = true := by
        rw [Bool.and_eq_true] at hcut ⊢
        exact fun hboth => hcut ⟨hboth.1, atTop_of_inside hboth.2⟩
      rw [walk, if_neg hcut', step_inside hstep]
      exact ih hwalk

/-- Whether a text is balanced is seen outside all brackets. -/
lemma balanced_iff {cs : List Char} : Balanced cs ↔ Nesting.walk {} cs = some {} := by
  refine ⟨fun h => h 0, fun h depth => ?_⟩
  have hinside := Nesting.walk_inside h depth
  unfold Nesting.inside at hinside
  rwa [Nat.zero_add] at hinside

/-- A backslash escapes a character between quotes only. -/
def Nesting.Proper (place : Nesting) : Prop := place.escaped = true → place.quoted = true

lemma Nesting.Proper.step {place next : Nesting} {c : Char} (h : place.Proper)
    (hstep : place.step c = some next) : next.Proper := by
  unfold Nesting.step at hstep
  unfold Nesting.Proper at h ⊢
  grind

lemma Nesting.Proper.walk {place next : Nesting} {cs : List Char} (h : place.Proper)
    (hwalk : place.walk cs = some next) : next.Proper := by
  induction cs generalizing place with
  | nil =>
    obtain rfl := Option.some.inj hwalk
    exact h
  | cons c cs ih =>
    rw [Nesting.walk] at hwalk
    split at hwalk
    · simp at hwalk
    · obtain ⟨after, hstep, hrest⟩ := Option.bind_eq_some_iff.mp hwalk
      exact ih (h.step hstep) hrest

lemma Nesting.Proper.eq_top {place : Nesting} (h : place.Proper) (htop : place.atTop = true) :
    place = {} := by
  obtain ⟨depth, quoted, escaped⟩ := place
  simp only [Nesting.atTop, Bool.and_eq_true, Bool.not_eq_true', beq_iff_eq] at htop
  obtain ⟨rfl, rfl⟩ := htop
  cases escaped with
  | false => rfl
  | true => exact absurd (h rfl) Bool.false_ne_true

lemma Nesting.atTop_walk_blank {place next : Nesting} {cs : List Char}
    (hblank : ∀ c ∈ cs, isBlank c = true) (h : place.walk cs = some next) :
    next.atTop = place.atTop := by
  induction cs generalizing place with
  | nil =>
    obtain rfl := Option.some.inj h
    rfl
  | cons c cs ih =>
    rw [List.forall_mem_cons] at hblank
    rw [walk] at h
    split at h
    · simp at h
    · obtain ⟨after, hstep, hrest⟩ := Option.bind_eq_some_iff.mp h
      rw [ih hblank.2 hrest]
      have hneutral := isNeutral_of_isBlank hblank.1
      unfold isNeutral at hneutral
      unfold step at hstep
      unfold atTop
      grind

lemma Padded.balanced_text {p : Padded} : Balanced p.text ↔ Balanced p.part := by
  constructor
  · intro h
    have hfront : Nesting.walk {} p.front = some {} := balanced_of_blank p.front_blank 0
    rw [balanced_iff, text, Nesting.walk_append, Nesting.walk_append, hfront] at h
    obtain ⟨next, hpart, hback⟩ := Option.bind_eq_some_iff.mp h
    have hproper : next.Proper := Nesting.Proper.walk (fun h => h) hpart
    have hend : next = {} := hproper.eq_top (Nesting.atTop_walk_blank p.back_blank hback).symm
    exact balanced_iff.mpr (hpart.trans (congrArg some hend))
  · exact fun h => ((balanced_of_blank p.front_blank).append h).append
      (balanced_of_blank p.back_blank)

/-- A text is parted into what the reader walks over without a cut, between the commas. -/
lemma partFrom_eq_parts {place : Nesting} (hplace : place.Proper) {cs : List Char}
    {found : List (List Char)} (h : partFrom place cs = .parts found) :
    ∃ first rest, found = first :: rest ∧ [','].intercalate (first :: rest) = cs ∧
      place.walk first = some {} ∧ ∀ part ∈ rest, Balanced part := by
  induction cs generalizing place found with
  | nil =>
    rw [partFrom] at h
    split at h
    · next htop =>
      obtain rfl := Parting.parts.inj h
      exact ⟨[], [], rfl, rfl, congrArg some (hplace.eq_top htop), by simp⟩
    · simp at h
  | cons c cs ih =>
    obtain ⟨hcut, found, hrest, rfl⟩ | ⟨hcut, next, first, rest, hstep, hrest, rfl⟩ :=
      partFrom_cons_eq_parts h
    · rw [Bool.and_eq_true, beq_iff_eq] at hcut
      obtain ⟨first, rest, rfl, hjoin, hwalk, hbalanced⟩ := ih hplace hrest
      obtain rfl := hplace.eq_top hcut.2
      refine ⟨[], first :: rest, rfl, ?_, rfl, ?_⟩
      · rw [List.intercalate_cons_cons, hjoin, hcut.1]
        rfl
      · exact List.forall_mem_cons.mpr ⟨balanced_iff.mpr hwalk, hbalanced⟩
    · obtain ⟨_, _, heq, hjoin, hwalk, hbalanced⟩ := ih (hplace.step hstep) hrest
      obtain ⟨rfl, rfl⟩ := List.cons.inj heq
      refine ⟨c :: first, rest, rfl, ?_, ?_, hbalanced⟩
      · rw [← hjoin]
        cases rest <;> rfl
      · rw [Nesting.walk, if_neg hcut, hstep]
        exact hwalk

lemma splitTopLevel_eq_ok {cs : List Char} {parts : List (List Char)} :
    splitTopLevel cs = .ok parts ↔
      ∃ found, partFrom {} cs = .parts found ∧ found.map trim = parts ∧ ∀ p ∈ parts, p ≠ [] := by
  unfold splitTopLevel
  cases hfound : partFrom {} cs with
  | unopened => simp
  | unclosed => simp
  | parts found =>
    simp only [Parting.parts.injEq, exists_eq_left']
    split
    · next hany =>
      obtain ⟨part, hpart, hempty⟩ := List.any_eq_true.mp hany
      refine iff_of_false (by simp) ?_
      rintro ⟨rfl, hne⟩
      exact hne part hpart (List.isEmpty_iff.mp hempty)
    · next hany =>
      rw [Except.ok.injEq]
      refine ⟨fun h => ⟨h, ?_⟩, fun h => h.1⟩
      rintro part hpart rfl
      exact hany (List.any_eq_true.mpr ⟨[], h ▸ hpart, rfl⟩)

/-- What is its own only part is what `Part` says. -/
lemma single_iff {cs : List Char} : Single cs ↔ Part cs := by
  constructor
  · intro h
    obtain ⟨found, hfound, htrim, hne⟩ := splitTopLevel_eq_ok.mp h
    obtain ⟨first, rest, rfl, hjoin, hwalk, -⟩ := partFrom_eq_parts (fun h => h) hfound
    obtain ⟨hfirst, hrest⟩ := List.cons.inj htrim
    obtain rfl := List.map_eq_nil_iff.mp hrest
    rw [List.intercalate_singleton] at hjoin
    obtain rfl := hjoin
    exact ⟨balanced_iff.mpr hwalk, hfirst ▸ tight_trim first, hne first (by simp)⟩
  · intro h
    refine splitTopLevel_eq_ok.mpr ⟨[cs], ?_, ?_, by simpa using h.ne_nil⟩
    · have hwhole : partFrom {} ([','].intercalate [cs]) = .parts [cs] :=
        partFrom_intercalate h.balanced (by simp)
      rwa [List.intercalate_singleton] at hwhole
    · rw [List.map_singleton, h.tight.trim_eq]

lemma splitTopLevel_of_single {parts : List Padded} (hne : parts ≠ [])
    (h : ∀ p ∈ parts, Single p.part) :
    splitTopLevel (joined parts) = .ok (parts.map Padded.part) := by
  obtain ⟨p, parts, rfl⟩ := List.exists_cons_of_ne_nil hne
  have hbalanced : ∀ q ∈ p :: parts, Balanced q.text := fun q hq =>
    Padded.balanced_text.mpr (single_iff.mp (h q hq)).balanced
  rw [List.forall_mem_cons] at hbalanced
  refine splitTopLevel_eq_ok.mpr ⟨(p :: parts).map Padded.text, ?_, ?_, ?_⟩
  · exact partFrom_intercalate hbalanced.1 (List.forall_mem_map.mpr hbalanced.2)
  · rw [List.map_map]
    refine List.map_congr_left fun q hq => ?_
    have hpart := single_iff.mp (h q hq)
    exact hpart.tight.trim_append hpart.ne_nil q.front_blank q.back_blank
  · exact List.forall_mem_map.mpr fun q hq => (single_iff.mp (h q hq)).ne_nil

lemma exists_joined {cs : List Char} {found : List (List Char)}
    (h : splitTopLevel cs = .ok found) :
    ∃ parts : List Padded, parts ≠ [] ∧ (∀ p ∈ parts, Single p.part) ∧
      joined parts = cs ∧ parts.map Padded.part = found := by
  obtain ⟨pieces, hpieces, rfl, hne⟩ := splitTopLevel_eq_ok.mp h
  obtain ⟨first, rest, rfl, hjoin, hwalk, hrest⟩ := partFrom_eq_parts (fun h => h) hpieces
  have hbalanced : ∀ piece ∈ first :: rest, Balanced piece :=
    List.forall_mem_cons.mpr ⟨balanced_iff.mpr hwalk, hrest⟩
  choose padded hpart htext using exists_padded
  refine ⟨(first :: rest).map padded, by simp, List.forall_mem_map.mpr fun piece hpiece => ?_,
    ?_, ?_⟩
  · rw [single_iff, hpart]
    refine ⟨?_, tight_trim piece, hne _ (List.mem_map_of_mem hpiece)⟩
    rw [← hpart, ← Padded.balanced_text, htext]
    exact hbalanced piece hpiece
  · unfold joined
    rw [List.map_map, ← hjoin]
    congr 1
    exact List.map_id'' htext _
  · rw [List.map_map]
    exact List.map_congr_left fun piece _ => hpart piece

/-- Joined parts come apart as they were, and a text that comes apart was joined from what comes
out. A part is a text without white space at its ends that is not empty and in which the reader
meets no cut and ends where it started. -/
theorem splitTopLevel_joined :
    (∀ parts : List Padded, parts ≠ [] → (∀ p ∈ parts, Single p.part) →
      splitTopLevel (joined parts) = .ok (parts.map Padded.part)) ∧
    (∀ cs found, splitTopLevel cs = .ok found →
      ∃ parts : List Padded, parts ≠ [] ∧ (∀ p ∈ parts, Single p.part) ∧
        joined parts = cs ∧ parts.map Padded.part = found) ∧
    ∀ cs, Single cs ↔ Nesting.walk {} cs = some {} ∧ trim cs = cs ∧ cs ≠ [] := by
  refine ⟨fun parts hne h => splitTopLevel_of_single hne h, fun cs found h => exists_joined h,
    fun cs => ?_⟩
  rw [single_iff, ← balanced_iff]
  exact ⟨fun h => ⟨h.balanced, h.tight.trim_eq, h.ne_nil⟩,
    fun h => ⟨h.1, h.2.1 ▸ tight_trim cs, h.2.2⟩⟩

/-- A bracket around a comma, and a quote around an escaped quote and a closing bracket. -/
theorem splitTopLevel_joined_three :
    splitTopLevel "a ,\t(b,[c]), \"\\\")\" ".toList =
        .ok ["a".toList, "(b,[c])".toList, "\"\\\")\"".toList] ∧
      ∃ parts : List Padded, parts ≠ [] ∧ (∀ p ∈ parts, Single p.part) ∧
        joined parts = " x,y".toList ∧ parts.map Padded.part = ["x".toList, "y".toList] :=
  ⟨splitTopLevel_joined.1
      [⟨[], "a".toList, [' '], by simp, List.forall_mem_singleton.mpr rfl⟩,
        ⟨['\t'], "(b,[c])".toList, [], List.forall_mem_singleton.mpr rfl, by simp⟩,
        ⟨[' '], "\"\\\")\"".toList, [' '], List.forall_mem_singleton.mpr rfl,
          List.forall_mem_singleton.mpr rfl⟩]
      (by simp) (by decide),
    splitTopLevel_joined.2.1 " x,y".toList ["x".toList, "y".toList] (by decide)⟩

end TemporalAlgebra.Text
