import TemporalAlgebra.Proofs.Number.Numerals
import TemporalAlgebra.Proofs.Outcome
import TemporalAlgebra.Proofs.Text.Split
import TemporalAlgebra.Proofs.Time.Text
import TemporalAlgebra.Time.Date

/-!
# Times read back

What is assumed of a chronology is that its dates count the days of a calendar, and that it reads
dates and times of day from the texts that it writes. Then the dates of the calendar and the
timestamps on them are read back from their texts: the date, the time of day with its fraction, and
the offset from UTC. The calendar holds the days from the first of January of its first year to the
thirty-first of December of its last one.
-/
namespace TemporalAlgebra

open Decimal

open CivilDate

/-- What is assumed of a chronology. Its dates are those of the years of the calendar and count the
days, it reads them from their texts, and it reads a time of day from its seconds and the digits of
a fraction of at most nine. -/
structure Chronology.Lawful (c : Chronology) : Prop where
  dateOf_isSome_iff : ∀ n, (c.dateOf n).isSome = true ↔
    newYear firstYear ≤ n ∧ n < newYear (lastYear + 1)
  daysTo_dateOf : ∀ {n d}, c.dateOf n = some d → c.daysTo d = n
  readDate_text : ∀ {n d}, c.dateOf n = some d → c.readDate (c.dateText d) = .ok d
  dateText_chars : ∀ d, ∀ a ∈ c.dateText d, isTimeChar a = true
  dateText_ne_nil : ∀ d, c.dateText d ≠ []
  readSeconds_text : ∀ {seconds ds}, seconds < 86400 → Numeral ds → ds.length ≤ 9 →
    c.readSeconds (c.clockText seconds ++ Timestamp.fractionText ds) =
      .ok ⟨seconds, value ds * 10 ^ (9 - ds.length)⟩
  clockText_chars : ∀ seconds, ∀ a ∈ c.clockText seconds, isTimeChar a = true
  clockText_ne_nil : ∀ seconds, c.clockText seconds ≠ []
  shift_zero : ∀ t, c.shift t 0 = t

lemma Chronology.gregorian_lawful : gregorian.Lawful where
  dateOf_isSome_iff := ofDayNumber?_isSome_iff
  daysTo_dateOf h := (ofDayNumber?_spec h).2
  readDate_text h := Field.date_text (ofDayNumber?_spec h).1
  dateText_chars := CivilDate.text_chars
  dateText_ne_nil := CivilDate.text_ne_nil
  readSeconds_text h hd hlen := Field.timeWithSeconds_text h hd hlen
  clockText_chars := Field.clockText_chars
  clockText_ne_nil _ := List.append_ne_nil_of_left_ne_nil (padded_ne_nil 2 _) _
  shift_zero t := by
    change t.shift 0 = t
    unfold DayTime.shift
    rw [if_pos (Or.inr rfl), Int.add_zero]

namespace Timestamp

variable {c : Chronology} {t : Timestamp} {d : CivilDate}

def microsOfDay (t : Timestamp) : Nat := (t.micros % dayMicros).toNat

lemma microsOfDay_lt (t : Timestamp) : t.microsOfDay < 86400000000 := by
  unfold microsOfDay dayMicros
  omega

/-- The digits of a fraction of a second in microseconds, without the zeros at their end. -/
def fractionDigits (micros : Nat) : List Char := dropTrailingZeros (padded 6 (micros % 1000000))

lemma numeral_fractionDigits (micros : Nat) : Numeral (fractionDigits micros) :=
  numeral_dropTrailingZeros (numeral_padded 6 _)

lemma fractionDigits_spec (micros : Nat) : (fractionDigits micros).length ≤ 9 ∧
    value (fractionDigits micros) * 10 ^ (9 - (fractionDigits micros).length) =
      micros % 1000000 * 1000 := by
  obtain ⟨k, hsplit, hvalue⟩ := exists_zeros (padded 6 (micros % 1000000))
  have hlen : (padded 6 (micros % 1000000)).length = 6 :=
    length_padded (by decide) (Nat.mod_lt _ (by decide))
  rw [value_padded] at hvalue
  change _ = fractionDigits micros ++ _ at hsplit
  change _ = value (fractionDigits micros) * _ at hvalue
  rw [hsplit, List.length_append, List.length_replicate] at hlen
  have hexp : 9 - (fractionDigits micros).length = k + 3 := by omega
  refine ⟨by omega, ?_⟩
  rw [hexp, Nat.pow_add, ← Nat.mul_assoc, ← hvalue]

section

variable (h : c.Lawful)
include h

lemma clockText_chars (micros : Nat) : ∀ a ∈ clockText c micros, isTimeChar a = true := by
  intro a ha
  rcases List.mem_append.mp ha with ha | ha
  · exact h.clockText_chars _ a ha
  · unfold fractionText at ha
    split at ha
    · simp at ha
    · rcases List.mem_cons.mp ha with rfl | ha
      · rfl
      · exact isTimeChar_of_isDigit (numeral_fractionDigits micros a ha)

lemma clockText_ne_nil (micros : Nat) : clockText c micros ≠ [] :=
  List.append_ne_nil_of_left_ne_nil (h.clockText_ne_nil _) _

lemma readTime_clockText {micros : Nat} (hlt : micros < 86400000000) :
    c.readTime (clockText c micros) =
      .ok ⟨(micros / 1000000 : Nat), micros % 1000000 * 1000⟩ := by
  obtain ⟨hlen, hvalue⟩ := fractionDigits_spec micros
  have hread := h.readSeconds_text (show micros / 1000000 < 86400 by omega)
    (numeral_fractionDigits micros) hlen
  rw [hvalue] at hread
  unfold Chronology.readTime
  rw [show clockText c micros = c.clockText (micros / 1000000) ++
    fractionText (fractionDigits micros) from rfl, hread]

lemma civilIn?_end {n : Int} (hn : n < newYear firstYear ∨ newYear (lastYear + 1) ≤ n) :
    c.dateOf n = none := by
  rw [← Option.not_isSome_iff_eq_none, h.dateOf_isSome_iff]
  omega

lemma textIn_eq (hd : t.civilIn? c = some d) :
    (t.textIn c).toList = c.dateText d ++ ' ' :: (clockText c t.microsOfDay ++ ['+', '0', '0']) := by
  have hmin : t.ticks ≠ Signed.minimum := by
    intro heq
    have hnone : (⟨Signed.minimum⟩ : Timestamp).civilIn? c = none :=
      civilIn?_end h (Or.inl (by decide))
    rw [← heq, hd] at hnone
    exact Option.some_ne_none d hnone
  have hmax : t.ticks ≠ Signed.maximum := by
    intro heq
    have hnone : (⟨Signed.maximum⟩ : Timestamp).civilIn? c = none :=
      civilIn?_end h (Or.inr (by decide))
    rw [← heq, hd] at hnone
    exact Option.some_ne_none d hnone
  unfold textIn
  rw [if_neg hmin, if_neg hmax, hd, String.toList_ofList, List.append_assoc]
  rfl

end

lemma splitOffset_utc {date clock : List Char} (hdate : ' ' ∉ date)
    (htight : Text.Tight (date ++ ' ' :: clock)) :
    splitOffset (date ++ ' ' :: (clock ++ ['+', '0', '0'])) = .ok (date ++ ' ' :: clock, 0) := by
  have hreverse : (date ++ ' ' :: (clock ++ ['+', '0', '0'])).reverse =
      '0' :: '0' :: '+' :: (clock.reverse ++ ' ' :: date.reverse) := by simp
  have hsign : splitSign (clock ++ ['+', '0', '0']) = some (clock, '+', ['0', '0']) := by
    have hback : (clock ++ ['+', '0', '0']).reverse = '0' :: '0' :: '+' :: clock.reverse := by simp
    unfold splitSign
    simp only [hback]
    change some (clock.reverse.reverse, '+', ['0', '0']) = _
    rw [List.reverse_reverse]
  unfold splitOffset
  rw [hreverse]
  split
  · next heq => exact absurd (List.cons.inj heq).1 (by decide)
  · rw [Text.splitOnce_append hdate]
    dsimp only
    rw [hsign]
    dsimp only
    rw [bind_of_ok (show offsetSeconds? ['0', '0'] = .ok (some 0) by decide),
      bind_of_ok (show orRefuse (some (0 : Int)) _ = .ok 0 from rfl),
      Text.trimEnd_eq_self htight.last]
    rfl

section

variable (h : c.Lawful)
include h

/-- A date and a time of day in UTC lead back to the microseconds that they were found for. -/
lemma atOffset_utc (hd : t.civilIn? c = some d) :
    atOffset c d ⟨(t.microsOfDay / 1000000 : Nat), t.microsOfDay % 1000000 * 1000⟩ 0 = .ok t := by
  have hlt := t.microsOfDay_lt
  have hday : c.daysTo d = t.micros / dayMicros := h.daysTo_dateOf hd
  have hmicros : c.daysTo d * dayMicros + t.microsOfDay = t.micros := by
    rw [hday]
    unfold microsOfDay dayMicros
    omega
  have hfound : c.dateOf (c.daysTo d + (t.microsOfDay / 1000000 : Nat) / 86400) = some d := by
    have hzero : ((t.microsOfDay / 1000000 : Nat) : Int) / 86400 = 0 := by omega
    rw [hzero, Int.add_zero, hday]
    exact hd
  unfold atOffset
  simp only [Int.neg_zero, h.shift_zero, hfound]
  unfold ofDayTime
  dsimp only
  rw [show c.daysTo d * dayMicros + (t.microsOfDay / 1000000 : Nat) * 1000000 +
    (t.microsOfDay % 1000000 * 1000 / 1000 : Nat) = t.micros by omega]
  unfold nearest micros
  rw [Signed.clamp_val]

lemma tight_append (d : CivilDate) {rest : List Char}
    (hlast : ∀ a ∈ rest.getLast?, Text.isBlank a = false) (hne : rest ≠ []) :
    Text.Tight (c.dateText d ++ ' ' :: rest) := by
  rw [List.append_cons]
  refine Text.Tight.append (fun a ha => ?_) (by simp) hlast hne
  rw [List.head?_append_of_ne_nil _ (h.dateText_ne_nil d)] at ha
  exact (isTimeChar_spec (h.dateText_chars d a (List.mem_of_mem_head? ha))).2.1

lemma tight_textIn (hd : t.civilIn? c = some d) : Text.Tight (t.textIn c).toList := by
  rw [textIn_eq h hd]
  apply tight_append h
  · rw [List.getLast?_append_of_ne_nil _ (List.cons_ne_nil _ _)]
    intro a ha
    rw [← Option.some.inj ha]
    decide
  · exact List.append_ne_nil_of_left_ne_nil (clockText_ne_nil h _) _

lemma textIn_ne_nil (hd : t.civilIn? c = some d) : (t.textIn c).toList ≠ [] := by
  rw [textIn_eq h hd]
  exact List.append_ne_nil_of_left_ne_nil (h.dateText_ne_nil d) _

lemma textIn_chars (hd : t.civilIn? c = some d) : ∀ a ∈ (t.textIn c).toList,
    a.toNat < 128 ∧ Text.isNeutral a = true ∧ a ≠ '@' ∧ a ≠ 'T' := by
  have hspec {a : Char} (ha : isTimeChar a = true) :=
    (isTimeChar_spec ha).imp_right And.right
  intro a ha
  rw [textIn_eq h hd, List.mem_append, List.mem_cons, List.mem_append] at ha
  rcases ha with ha | rfl | ha | ha
  · exact hspec (h.dateText_chars d a ha)
  · decide
  · exact hspec (clockText_chars h _ a ha)
  · simp only [List.mem_cons, List.not_mem_nil, or_false] at ha
    rcases ha with rfl | rfl | rfl <;> decide

/-- A timestamp on a day of the calendar is read back from its text. -/
theorem readIn_textIn (hsome : (t.civilIn? c).isSome = true) :
    readIn c (t.textIn c).toList = .ok t := by
  obtain ⟨d, hd⟩ := Option.isSome_iff_exists.mp hsome
  have htight := tight_textIn h hd
  have hchars := textIn_chars h hd
  have hdate : ∀ a ∈ c.dateText d, Text.isBlank a = false := fun a ha =>
    (isTimeChar_spec (h.dateText_chars d a ha)).2.1
  have hclock : ∀ a ∈ clockText c t.microsOfDay, Text.isBlank a = false := fun a ha =>
    (isTimeChar_spec (clockText_chars h _ a ha)).2.1
  have hspace : ' ' ∉ c.dateText d := fun hmem => absurd (hdate ' ' hmem) (by decide)
  have hdateTrim : Text.trim (c.dateText d) = c.dateText d := (Text.tight_of_forall hdate).trim_eq
  have hclockTrim : Text.trim (clockText c t.microsOfDay) = clockText c t.microsOfDay :=
    (Text.tight_of_forall hclock).trim_eq
  have hbody : Text.Tight (c.dateText d ++ ' ' :: clockText c t.microsOfDay) :=
    tight_append h d (Text.tight_of_forall hclock).last (clockText_ne_nil h _)
  have hmap : ∀ a ∈ (t.textIn c).toList, (if a == 'T' then ' ' else a) = a := fun a ha =>
    if_neg (by simpa using (hchars a ha).2.2.2)
  unfold readIn
  rw [htight.trim_eq, List.map_congr_left hmap, List.map_id']
  dsimp only
  rw [bind_of_ok (require_eq_ok (u := ()).mpr (by simpa using textIn_ne_nil h hd)), textIn_eq h hd,
    bind_of_ok (splitOffset_utc hspace hbody)]
  simp only [Text.splitOnce_append hspace, hdateTrim, hclockTrim, h.readDate_text hd,
    readTime_clockText h t.microsOfDay_lt]
  rw [bind_of_ok (show (Except.ok d).mapError _ = .ok d from rfl),
    if_neg (by simpa using clockText_ne_nil h _),
    bind_of_ok (show (Except.ok _).mapError _ = .ok _ from rfl)]
  exact atOffset_utc h hd

end

/-- A timestamp lies in a year of the calendar. -/
def InCalendar (t : Timestamp) : Prop := t.civil?.isSome = true

instance (t : Timestamp) : Decidable t.InCalendar := inferInstanceAs (Decidable (_ = true))

variable (h : t.InCalendar)
include h

lemma tight_text : Text.Tight t.text.toList := by
  obtain ⟨d, hd⟩ := Option.isSome_iff_exists.mp h
  exact tight_textIn Chronology.gregorian_lawful hd

lemma text_ne_nil : t.text.toList ≠ [] := by
  obtain ⟨d, hd⟩ := Option.isSome_iff_exists.mp h
  exact textIn_ne_nil Chronology.gregorian_lawful hd

lemma text_chars : ∀ a ∈ t.text.toList,
    a.toNat < 128 ∧ Text.isNeutral a = true ∧ a ≠ '@' ∧ a ≠ 'T' := by
  obtain ⟨d, hd⟩ := Option.isSome_iff_exists.mp h
  exact textIn_chars Chronology.gregorian_lawful hd

lemma read_text : read t.text.toList = .ok t := readIn_textIn Chronology.gregorian_lawful h

end Timestamp

namespace Date

lemma nearest_days (d : Date) : nearest d.days = d := congrArg Date.mk (Signed.clamp_val d.ticks)

theorem readIn_textIn {c : Chronology} (h : c.Lawful) {d : Date}
    (hsome : (d.civilIn? c).isSome = true) : readIn c (d.textIn c).toList = .ok d := by
  obtain ⟨date, hdate⟩ := Option.isSome_iff_exists.mp hsome
  have htext : (d.textIn c).toList = c.dateText date := by
    unfold textIn
    rw [hdate, String.toList_ofList]
  have htrim : Text.trim (c.dateText date) = c.dateText date :=
    (Text.tight_of_forall fun a ha => (isTimeChar_spec (h.dateText_chars date a ha)).2.1).trim_eq
  unfold readIn
  rw [htext, htrim]
  dsimp only
  rw [h.readDate_text hdate, bind_of_ok (show (Except.ok date).mapError _ = .ok date from rfl),
    h.daysTo_dateOf hdate]
  exact congrArg Except.ok d.nearest_days

def InCalendar (d : Date) : Prop := d.civil?.isSome = true

instance (d : Date) : Decidable d.InCalendar := inferInstanceAs (Decidable (_ = true))

end Date

lemma Timestamp.inCalendar_iff (t : Timestamp) : t.InCalendar ↔
    newYear firstYear * dayMicros ≤ t.micros ∧ t.micros < newYear (lastYear + 1) * dayMicros := by
  have hdays : t.InCalendar ↔ _ := ofDayNumber?_isSome_iff (t.micros / dayMicros)
  rw [hdays, Int.le_ediv_iff_mul_le (by decide),
    Int.ediv_lt_iff_lt_mul (by decide)]

/-- Times survive printing and parsing. Under what is assumed of a chronology, the timestamps and
dates of its calendar are what their texts are read to. The Gregorian calendar keeps to that, and
its timestamps and dates, which are those of its years, are what their texts are parsed to. -/
theorem printed_times_parse_back :
    (∀ {c : Chronology}, c.Lawful →
      (∀ t : Timestamp, (t.civilIn? c).isSome = true →
        Timestamp.readIn c (t.textIn c).toList = .ok t) ∧
      ∀ d : Date, (d.civilIn? c).isSome = true → Date.readIn c (d.textIn c).toList = .ok d) ∧
      Chronology.gregorian.Lawful ∧
      (∀ t : Timestamp, t.InCalendar → Timestamp.parse t.text = .ok t) ∧
      (∀ d : Date, d.InCalendar → Date.parse d.text = .ok d) ∧
      (∀ t : Timestamp, t.InCalendar ↔ newYear firstYear * Timestamp.dayMicros ≤ t.micros ∧
        t.micros < newYear (lastYear + 1) * Timestamp.dayMicros) ∧
      ∀ d : Date, d.InCalendar ↔ newYear firstYear ≤ d.days ∧ d.days < newYear (lastYear + 1) := by
  have hlawful := Chronology.gregorian_lawful
  refine ⟨?_, hlawful, ?_, ?_, Timestamp.inCalendar_iff, ?_⟩
  · intro c hc
    exact ⟨fun t ht => Timestamp.readIn_textIn hc ht, fun d hd => Date.readIn_textIn hc hd⟩
  · intro t ht
    exact Timestamp.read_text ht
  · intro d hd
    exact Date.readIn_textIn hlawful hd
  · intro d
    exact ofDayNumber?_isSome_iff d.days

/-- A timestamp before the year zero, with a fraction, and a date whose year has five digits. -/
theorem long_years_parse_back :
    (Timestamp.nearest (-100000000000000001)).text = "-1169-02-15 14:13:19.999999+00" ∧
      Timestamp.parse "-1169-02-15 14:13:19.999999+00" = .ok (.nearest (-100000000000000001)) ∧
      (Date.nearest 4000000).text = "+12951-08-18" ∧
      Date.parse "+12951-08-18" = .ok (.nearest 4000000) ∧
      (Date.nearest 95015279).InCalendar ∧ ¬(Date.nearest 95015280).InCalendar := by
  obtain ⟨-, -, htimes, hdates, -, hrange⟩ := printed_times_parse_back
  have htime : (Timestamp.nearest (-100000000000000001)).text =
      "-1169-02-15 14:13:19.999999+00" := by decide +kernel
  have hdate : (Date.nearest 4000000).text = "+12951-08-18" := by decide +kernel
  refine ⟨htime, ?_, hdate, ?_, ?_, ?_⟩
  · rw [← htime]
    exact htimes _ (by decide)
  · rw [← hdate]
    exact hdates _ (by decide)
  · exact (hrange _).mpr (by decide)
  · exact (hrange _).not.mpr (by decide)

end TemporalAlgebra
