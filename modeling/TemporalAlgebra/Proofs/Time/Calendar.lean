import Mathlib.Tactic.Common
import Mathlib.Tactic.IntervalCases
import TemporalAlgebra.Time.Calendar

/-!
# Days and dates

Every count of days has one date, which exists and has this count. Inside an era a day is placed by
its century, its group of four years, its year in the group and its day in the year; only the last
year of a group may have a day more, and the last group of a century has none unless it ends the
era.
-/
namespace TemporalAlgebra.CivilDate

/-- Days from the start of an era to the start of one of its years. -/
def startOfYear (year : Int) : Int := year * 365 + year / 4 - year / 100

def yearOfDay (day : Int) : Int := (day - day / 1460 + day / 36524 - day / 146096) / 365

/-- A day of an era by its century, group of four years, year and day of the year. -/
structure Placed (day c g y t : Int) : Prop where
  century : 0 ≤ c ∧ c ≤ 3
  group : 0 ≤ g ∧ g ≤ 24
  year : 0 ≤ y ∧ y ≤ 3
  dayOfYear : 0 ≤ t ∧ t ≤ 365
  /-- A year of 366 days is the last one of its group, which does not end a common century. -/
  leap : t = 365 → y = 3 ∧ (g = 24 → c = 3)
  day_eq : day = 36524 * c + 1461 * g + 365 * y + t

lemma exists_placed {day : Int} (hlower : 0 ≤ day) (hupper : day < 146097) :
    ∃ c g y t, Placed day c g y t := by
  obtain ⟨c, hc⟩ : ∃ c, c = min (day / 36524) 3 := ⟨_, rfl⟩
  obtain ⟨g, hg⟩ : ∃ g, g = (day - 36524 * c) / 1461 := ⟨_, rfl⟩
  obtain ⟨y, hy⟩ : ∃ y, y = min ((day - 36524 * c - 1461 * g) / 365) 3 := ⟨_, rfl⟩
  have hcentury : 0 ≤ c ∧ c ≤ 3 ∧ 0 ≤ day - 36524 * c ∧ day - 36524 * c ≤ 36524 ∧
      (day - 36524 * c = 36524 → c = 3) := by omega
  have hgroup : 0 ≤ g ∧ g ≤ 24 ∧ 0 ≤ day - 36524 * c - 1461 * g ∧
      day - 36524 * c - 1461 * g ≤ 1460 := by omega
  refine ⟨c, g, y, day - 36524 * c - 1461 * g - 365 * y, ?_, ?_, ?_, ?_, ?_, ?_⟩ <;> omega

lemma Placed.startOfYear_eq {day c g y t : Int} (h : Placed day c g y t) :
    startOfYear (100 * c + 4 * g + y) = day - t := by
  obtain ⟨hc, hg, hy, -, -, hday⟩ := h
  unfold startOfYear
  omega

lemma Placed.yearOfDay_eq {day c g y t : Int} (h : Placed day c g y t) :
    yearOfDay day = 100 * c + 4 * g + y := by
  obtain ⟨hc, hg, hy, ht, hleap, hday⟩ := h
  -- The quotients count the centuries and the groups, and one more on the last days.
  have hcenturies : day / 36524 = c + if t = 365 ∧ g = 24 ∧ c = 3 then 1 else 0 := by
    split <;> omega
  have hera : day / 146096 = if t = 365 ∧ g = 24 ∧ c = 3 then 1 else 0 := by
    split <;> omega
  have hgroups : day / 1460 = 25 * c + g + if 24 * c + g + 365 * y + t < 1460 then 0 else 1 := by
    split <;> omega
  unfold yearOfDay
  rw [hcenturies, hera, hgroups]
  split <;> split <;> omega

lemma isLeap_add_era (year era : Int) : isLeap (year + era * 400) = isLeap year := by
  unfold isLeap
  rw [show (year + era * 400) % 4 = year % 4 by omega,
    show (year + era * 400) % 100 = year % 100 by omega,
    show (year + era * 400) % 400 = year % 400 by omega]

lemma Placed.isLeap {day c g y t : Int} (h : Placed day c g y t) (ht : t = 365) :
    isLeap (100 * c + 4 * g + y + 1) = true := by
  obtain ⟨hy, hcentury⟩ := h.leap ht
  have hg := h.group
  have hc := h.century
  unfold CivilDate.isLeap
  simp only [Bool.and_eq_true, beq_iff_eq, Bool.or_eq_true, bne_iff_ne]
  omega

/-- A day of an era lies in the year that is found for it, on one of its days from zero on. Only a
leap year, whose last month is the second one of the next civil year, has a day 365. -/
lemma exists_dayOfYear {day : Int} (hlower : 0 ≤ day) (hupper : day < 146097) : ∃ t,
    startOfYear (yearOfDay day) = day - t ∧ 0 ≤ t ∧ t ≤ 365 ∧
      0 ≤ yearOfDay day ∧ yearOfDay day ≤ 399 ∧
      (t = 365 → isLeap (yearOfDay day + 1) = true) := by
  obtain ⟨c, g, y, t, h⟩ := exists_placed hlower hupper
  have hc := h.century
  have hg := h.group
  have hy := h.year
  rw [h.yearOfDay_eq]
  exact ⟨t, h.startOfYear_eq, h.dayOfYear.1, h.dayOfYear.2, by omega, by omega, h.isLeap⟩

/-- Month and day of a day of the year, which starts in March. -/
def monthDay (t : Int) : Nat × Nat :=
  let month := (5 * t + 2) / 153
  ((if month < 10 then month + 3 else month - 9).toNat, (t - (153 * month + 2) / 5 + 1).toNat)

/-- Months have the days that are counted for them. -/
lemma monthDay_spec {t : Int} (hlower : 0 ≤ t) (hupper : t ≤ 365) :
    let month := (monthDay t).1
    let day := (monthDay t).2
    1 ≤ day ∧ (153 * (((month : Int) + 9) % 12) + 2) / 5 + day - 1 = t ∧
      ∀ year, (t = 365 → isLeap year = true) → day ≤ daysInMonth year month := by
  obtain ⟨m, hm⟩ : ∃ m, m = (5 * t + 2) / 153 := ⟨_, rfl⟩
  have hm0 : 0 ≤ m := by omega
  have hm1 : m ≤ 11 := by omega
  unfold monthDay
  dsimp only
  rw [← hm]
  have hmonth : ((if m < 10 then m + 3 else m - 9).toNat + 9 : Int) % 12 = m := by
    split <;> omega
  refine ⟨by omega, by rw [hmonth]; omega, ?_⟩
  intro year hleap
  interval_cases m
  case «11» =>
    change _ ≤ if isLeap year then 29 else 28
    rcases eq_or_ne t 365 with ht | ht
    · rw [hleap ht]
      simp only [if_true]
      omega
    · split <;> omega
  all_goals
    simp [daysInMonth]
    omega

/-- The date of a count of days, by the year of its era and the day of this year. -/
lemma ofDayNumber_eq (n : Int) {t : Int} (hstart :
    startOfYear (yearOfDay ((n + eraOffset) % 146097)) = (n + eraOffset) % 146097 - t) :
    ofDayNumber n =
      ⟨yearOfDay ((n + eraOffset) % 146097) + (n + eraOffset) / 146097 * 400 +
        if (monthDay t).1 ≤ 2 then 1 else 0, (monthDay t).1, (monthDay t).2⟩ := by
  have hday : (n + eraOffset) % 146097 - (365 * yearOfDay ((n + eraOffset) % 146097) +
      yearOfDay ((n + eraOffset) % 146097) / 4 -
        yearOfDay ((n + eraOffset) % 146097) / 100) = t := by
    unfold startOfYear at hstart
    omega
  unfold yearOfDay at hday ⊢
  unfold ofDayNumber monthDay
  simp only [hday, Int.toNat_le, Nat.cast_ofNat]

lemma bounds_of_isValid {d : CivilDate} (h : d.isValid = true) :
    (firstYear ≤ d.year ∧ d.year ≤ lastYear) ∧ (1 ≤ d.month ∧ d.month ≤ 12) ∧
      1 ≤ d.day ∧ d.day ≤ 31 := by
  unfold isValid at h
  simp only [Bool.and_eq_true, decide_eq_true_eq] at h
  obtain ⟨hyear, hday, hdays⟩ := h
  have hmonth : (1 ≤ d.month ∧ d.month ≤ 12) ∧ daysInMonth d.year d.month ≤ 31 := by
    unfold daysInMonth at hdays ⊢
    split at hdays <;> grind
  exact ⟨hyear, hmonth.1, hday, by omega⟩

/-- The count of days of a date, by the era, the year of the era and the day of this year. -/
lemma dayNumber_eq {era y : Int} (hlower : 0 ≤ y) (hupper : y ≤ 399) (month day : Nat) :
    dayNumber ⟨y + era * 400 + if month ≤ 2 then 1 else 0, month, day⟩ =
      era * 146097 + (startOfYear y + ((153 * (((month : Int) + 9) % 12) + 2) / 5 + day - 1)) -
        eraOffset := by
  have hyear : (if month ≤ 2 then (y + era * 400 + if month ≤ 2 then 1 else 0) - 1
      else y + era * 400 + if month ≤ 2 then 1 else 0) = y + era * 400 := by
    split <;> omega
  have hera : (y + era * 400) / 400 = era := by omega
  have hmod : (y + era * 400) % 400 = y := by omega
  unfold dayNumber startOfYear
  simp only [hyear, hera, hmod]

/-- A date whose year is one of the calendar exists and has the count of days it was found for. -/
theorem ofDayNumber?_spec {n : Int} {d : CivilDate} (h : ofDayNumber? n = some d) :
    d.isValid = true ∧ d.dayNumber = n := by
  obtain ⟨t, hstart, hlower, hupper, hy0, hy1, hleap⟩ :=
    exists_dayOfYear (Int.emod_nonneg (n + eraOffset) (by decide : (146097 : Int) ≠ 0))
      (Int.emod_lt_of_pos _ (by decide))
  obtain ⟨hday, hdayOfYear, hdays⟩ := monthDay_spec hlower hupper
  have hdate := ofDayNumber_eq n hstart
  unfold ofDayNumber? at h
  simp only [hdate, Option.ite_none_right_eq_some, Option.some.injEq] at h
  obtain ⟨hrange, rfl⟩ := h
  constructor
  · unfold isValid
    simp only [Bool.and_eq_true, decide_eq_true_eq]
    refine ⟨hrange, hday, hdays _ fun ht => ?_⟩
    -- Day 365 belongs to the second month, in the next civil year.
    rw [ht, show (monthDay 365).1 = 2 from rfl, if_pos le_rfl, add_right_comm, isLeap_add_era]
    exact hleap ht
  · rw [dayNumber_eq hy0 hy1, hdayOfYear, hstart]
    omega

def newYear (year : Int) : Int := dayNumber ⟨year, 1, 1⟩

/-- The years before a year have 365 days each, and one more in every leap year. -/
lemma newYear_eq (y : Int) :
    newYear y = 365 * (y - 1) + (y - 1) / 4 - (y - 1) / 100 + (y - 1) / 400 + 306 - eraOffset := by
  have hday : dayNumber ⟨(y - 1) % 400 + (y - 1) / 400 * 400 + if 1 ≤ 2 then 1 else 0, 1, 1⟩ = _ :=
    dayNumber_eq (by omega) (by omega) 1 1
  have hyear : (y - 1) % 400 + (y - 1) / 400 * 400 + 1 = y := by omega
  rw [if_pos (by decide), hyear] at hday
  unfold newYear
  rw [hday]
  unfold startOfYear
  omega

lemma newYear_lt_iff (a b : Int) : newYear a < newYear b ↔ a < b := by
  have ha := newYear_eq a
  have hb := newYear_eq b
  constructor
  · intro h
    omega
  · intro h
    omega

lemma newYear_add_eras (y era : Int) : newYear (y + era * 400) = newYear y + era * 146097 := by
  have hfour : (y + era * 400 - 1) / 4 = (y - 1) / 4 + era * 100 := by omega
  have hcentury : (y + era * 400 - 1) / 100 = (y - 1) / 100 + era * 4 := by omega
  have hera : (y + era * 400 - 1) / 400 = (y - 1) / 400 + era := by omega
  rw [newYear_eq, newYear_eq, hfour, hcentury, hera]
  omega

/-- The last two months of a year that starts in March are the first two of the next one. -/
lemma monthDay_le_two_iff {t : Int} (hlower : 0 ≤ t) (hupper : t ≤ 365) :
    (monthDay t).1 ≤ 2 ↔ 306 ≤ t := by
  unfold monthDay
  dsimp only
  omega

lemma newYear_ofDayNumber (n : Int) :
    newYear (ofDayNumber n).year ≤ n ∧ n < newYear ((ofDayNumber n).year + 1) := by
  obtain ⟨t, hstart, hlower, hupper, hy0, hy1, -⟩ :=
    exists_dayOfYear (Int.emod_nonneg (n + eraOffset) (by decide : (146097 : Int) ≠ 0))
      (Int.emod_lt_of_pos _ (by decide))
  rw [ofDayNumber_eq n hstart]
  obtain ⟨era, hera⟩ : ∃ era, era = (n + eraOffset) / 146097 := ⟨_, rfl⟩
  generalize yearOfDay ((n + eraOffset) % 146097) = y at hstart hy0 hy1
  unfold startOfYear at hstart
  dsimp only
  have hnext := newYear_eq (y + 1)
  rw [Int.add_sub_cancel] at hnext
  have hmonth := monthDay_le_two_iff hlower hupper
  have hmoved : y + era * 400 + 1 = y + 1 + era * 400 := by omega
  by_cases ht : 306 ≤ t
  · have hafter := newYear_eq (y + 1 + 1)
    rw [Int.add_sub_cancel] at hafter
    have hmoved' : y + 1 + era * 400 + 1 = y + 1 + 1 + era * 400 := by omega
    rw [if_pos (hmonth.mpr ht), ← hera, hmoved, hmoved', newYear_add_eras, newYear_add_eras]
    omega
  · have hthis := newYear_eq y
    rw [if_neg (hmonth.not.mpr ht), Int.add_zero, ← hera, hmoved, newYear_add_eras,
      newYear_add_eras]
    omega

lemma ofDayNumber?_isSome_iff (n : Int) :
    (ofDayNumber? n).isSome = true ↔ newYear firstYear ≤ n ∧ n < newYear (lastYear + 1) := by
  obtain ⟨hthis, hnext⟩ := newYear_ofDayNumber n
  have hfound : (ofDayNumber? n).isSome = true ↔
      firstYear ≤ (ofDayNumber n).year ∧ (ofDayNumber n).year ≤ lastYear := by
    unfold ofDayNumber?
    dsimp only
    split
    · next hyear => exact iff_of_true rfl hyear
    · next hyear => exact iff_of_false Bool.false_ne_true hyear
  rw [hfound]
  constructor
  · rintro ⟨hfirst, hlast⟩
    have hlower := (newYear_lt_iff (ofDayNumber n).year firstYear).not.mpr (by omega)
    have hupper := (newYear_lt_iff (lastYear + 1) ((ofDayNumber n).year + 1)).not.mpr (by omega)
    omega
  · rintro ⟨hlower, hupper⟩
    have hfirst := (newYear_lt_iff _ _).mp (Int.lt_of_le_of_lt hlower hnext)
    have hlast := (newYear_lt_iff _ _).mp (Int.lt_of_le_of_lt hthis hupper)
    omega

end TemporalAlgebra.CivilDate
