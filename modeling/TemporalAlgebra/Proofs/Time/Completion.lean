import TemporalAlgebra.Proofs.Text.Pieces
import TemporalAlgebra.Time.Date

/-!
# Which timestamps are given up

Reading a date always ends with a date or a refusal. Reading a timestamp is given up in two cases:
the hours of an offset of four bytes end inside a character, or the offset leads out of the
calendar.
-/
namespace TemporalAlgebra

open Text

lemma completes_fields {ε α : Type} {r : Except ε α} {refusal : ε → Failure}
    (h : ∀ e, refusal e ≠ .aborted) : Completes (r.mapError refusal) := by
  cases r with
  | ok a => exact Completes.ok a
  | error e => exact fun heq => h e (Except.error.inj heq)

namespace Timestamp

lemma fieldRefusal_ne_aborted (what : String) (cs : List Char) (e : FieldError) :
    fieldRefusal what cs e ≠ .aborted := fun h => Failure.noConfusion h

/-- The digits of an offset: what stands behind its sign, colons left out. -/
def offsetDigits (body : List Char) : List Char := body.filter (· != ':')

/-- An offset is read as two digits of hours and two of minutes, and the hours end inside a
character. -/
def HoursBreak (body : List Char) : Prop :=
  byteLength (offsetDigits body) = 4 ∧ BreaksAfter 2 (offsetDigits body)

lemma offsetSeconds?_eq_aborted {body : List Char} :
    offsetSeconds? body = .error .aborted ↔ HoursBreak body := by
  unfold offsetSeconds? HoursBreak offsetDigits
  rw [← cutAt_eq_inside]
  dsimp only
  generalize body.filter (· != ':') = digits
  split
  · next hshort =>
    refine ⟨fun h => absurd h (Completes.ok _), fun h => ?_⟩
    rw [h.1] at hshort
    exact absurd hshort (by decide)
  · split
    · next hfour =>
      cases hcut : cutAt 2 digits with
      | short =>
        have hlt := byteLength_lt_of_short hcut
        omega
      | inside => exact ⟨fun _ => ⟨hfour, rfl⟩, fun _ => rfl⟩
      | between hours minutes =>
        exact ⟨fun h => absurd h (Completes.ok _), fun h => Cut.noConfusion h.2⟩
    · next hfour => exact ⟨fun h => absurd h (Completes.ok _), fun h => absurd h.1 hfour⟩

/-- The offset that is to be split off the end of a text has hours that end inside a character. -/
def BrokenOffset (cs : List Char) : Prop :=
  cs.getLast? ≠ some 'Z' ∧ ∃ date time clock sign digits,
    splitOnce ' ' cs = some (date, time) ∧ splitSign time = some (clock, sign, digits) ∧
      HoursBreak digits

lemma splitOffset_eq_aborted {cs : List Char} :
    splitOffset cs = .error .aborted ↔ BrokenOffset cs := by
  unfold splitOffset BrokenOffset
  rw [← List.head?_reverse]
  split
  · next body heq =>
    rw [heq]
    exact ⟨(nomatch ·), fun h => absurd rfl h.1⟩
  · next hlast =>
    have hzone : cs.reverse.head? ≠ some 'Z' := by
      intro hhead
      obtain ⟨body, hbody⟩ := List.head?_eq_some_iff.mp hhead
      exact hlast body hbody
    cases hsplit : splitOnce ' ' cs with
    | none => simp
    | some parts =>
      obtain ⟨date, time⟩ := parts
      cases hsign : splitSign time with
      | none => simp [hsign]
      | some signed =>
        obtain ⟨clock, sign, digits⟩ := signed
        simp only [hsign]
        rw [bind_eq_aborted, offsetSeconds?_eq_aborted]
        constructor
        · rintro (hbreak | ⟨found, -, hrest⟩)
          · exact ⟨hzone, date, time, clock, sign, digits, rfl, hsign, hbreak⟩
          · exact absurd hrest ((Completes.orRefuse _ _).bind fun _ _ => Completes.ok _)
        · rintro ⟨-, date', time', clock', sign', digits', hparts, hsigned, hbreak⟩
          obtain ⟨rfl, rfl⟩ := Prod.mk.inj (Option.some.inj hparts)
          rw [hsign] at hsigned
          simp only [Option.some.injEq, Prod.mk.injEq] at hsigned
          obtain ⟨-, -, rfl⟩ := hsigned
          exact .inl hbreak

/-- The texts of the date and of the time of day; the latter is empty if there is none. -/
def dateAndTime (body : List Char) : List Char × List Char :=
  match splitOnce ' ' body with
  | some (date, time) => (trim date, trim time)
  | none => (trim body, [])

def readClock (cs : List Char) : Result DayTime :=
  if cs.isEmpty then .ok ⟨0, 0⟩
  else (Chronology.gregorian.readTime cs).mapError (fieldRefusal "time" cs)

def readFields (body : List Char) : Result (CivilDate × DayTime) := do
  let date ← (Field.date (dateAndTime body).1).mapError (fieldRefusal "date" (dateAndTime body).1)
  let time ← readClock (dateAndTime body).2
  return (date, time)

lemma completes_readFields (body : List Char) : Completes (readFields body) := by
  have hclock (cs : List Char) : Completes (readClock cs) := by
    unfold readClock
    split
    · exact Completes.ok _
    · exact completes_fields (fieldRefusal_ne_aborted _ _)
  refine (completes_fields (fieldRefusal_ne_aborted _ _)).bind fun date _ => ?_
  exact (hclock _).bind fun time _ => Completes.ok _

/-- A text as a timestamp is read from it: without white space at its ends, with a blank for the
letter between date and time of day. -/
def normalized (input : List Char) : List Char :=
  (trim input).map fun c => if c == 'T' then ' ' else c

lemma read_eq (input : List Char) : read input = (do
    require (!(normalized input).isEmpty) (.textInput "Empty timestamp")
    let (body, offset) ← splitOffset (normalized input)
    let (date, time) ← readFields body
    atOffset .gregorian date time offset) := by
  unfold read readIn readFields readClock
  refine bind_congr fun _ => bind_congr fun ⟨body, offset⟩ => ?_
  simp only [bind_assoc, pure_bind]
  change (Except.mapError _ (Field.date (dateAndTime body).1) >>= fun date =>
    if (dateAndTime body).2.isEmpty then _ else _) = _
  refine bind_congr fun date => ?_
  split <;> rfl

/-- The offset of a text leads its date and time of day out of the calendar. -/
def LeavesCalendar (cs : List Char) : Prop :=
  ∃ body offset date time, splitOffset cs = .ok (body, offset) ∧
    readFields body = .ok (date, time) ∧
      CivilDate.ofDayNumber? (date.dayNumber + (time.shift (-offset)).seconds / 86400) = none

lemma atOffset_eq_aborted {date : CivilDate} {time : DayTime} {offset : Int} :
    atOffset .gregorian date time offset = .error .aborted ↔
      CivilDate.ofDayNumber? (date.dayNumber + (time.shift (-offset)).seconds / 86400) = none := by
  unfold atOffset
  dsimp only [Chronology.gregorian]
  cases CivilDate.ofDayNumber? (date.dayNumber + (time.shift (-offset)).seconds / 86400) <;> simp

/-- Reading a timestamp from the text is given up. -/
def Faulty (input : List Char) : Prop :=
  BrokenOffset (normalized input) ∨ LeavesCalendar (normalized input)

lemma not_faulty_of_normalized_eq_nil {input : List Char} (h : normalized input = []) :
    ¬Faulty input := by
  unfold Faulty
  rw [h]
  -- Nothing is split off an empty text, and there is no date in it.
  rintro (⟨-, _, _, _, _, _, hsplit, -⟩ | ⟨body, offset, date, time, hsplit, hread, -⟩)
  · exact nomatch hsplit
  · obtain ⟨rfl, rfl⟩ := Prod.mk.inj (Except.ok.inj hsplit)
    exact nomatch hread

/-- Reading a timestamp is given up in the two cases and in no other. -/
theorem read_eq_aborted {input : List Char} : read input = .error .aborted ↔ Faulty input := by
  rw [read_eq]
  simp only [bind_eq_aborted, splitOffset_eq_aborted, atOffset_eq_aborted]
  constructor
  · rintro (hempty | ⟨_, -, hbroken | ⟨⟨body, offset⟩, hsplit,
      hfields | ⟨⟨date, time⟩, hread, hday⟩⟩⟩)
    · exact absurd hempty (Completes.require _ _)
    · exact .inl hbroken
    · exact absurd hfields (completes_readFields body)
    · exact .inr ⟨body, offset, date, time, hsplit, hread, hday⟩
  · intro hfaulty
    -- An empty text is refused before anything is split off it.
    have hne : normalized input ≠ [] := fun hnil => not_faulty_of_normalized_eq_nil hnil hfaulty
    refine .inr ⟨(), require_eq_ok.mpr (by simpa using hne), ?_⟩
    rcases hfaulty with hbroken | ⟨body, offset, date, time, hsplit, hread, hday⟩
    · exact .inl hbroken
    · exact .inr ⟨(body, offset), hsplit, .inr ⟨(date, time), hread, hday⟩⟩

lemma completes_read {input : List Char} : Completes (read input) ↔ ¬Faulty input :=
  not_congr read_eq_aborted

end Timestamp

lemma Date.completes_read (input : List Char) : Completes (read input) := by
  unfold read
  refine (completes_fields (Timestamp.fieldRefusal_ne_aborted _ _)).bind fun date _ => ?_
  exact Completes.ok _

end TemporalAlgebra
