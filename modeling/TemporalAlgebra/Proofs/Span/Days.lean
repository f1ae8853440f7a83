import TemporalAlgebra.Proofs.Span.Canonical
import TemporalAlgebra.Proofs.Span.Shifting
import TemporalAlgebra.Proofs.Time.RoundTrip

/-!
# Periods of days

A span of dates is made a period by taking the midnights of its bounds. The period holds the
timestamps of the days of the span as long as both midnights can be told in 64 bits of microseconds,
which is the case far beyond the calendar but not for all days of 32 bits. Past that the period is
given up.
-/
namespace TemporalAlgebra

open CivilDate LawfulDomain Timestamp

namespace Date

/-- Whether the microseconds of a midnight fit in 64 bits. -/
def MidnightFits (d : Date) : Prop := Fits (d.days * dayMicros)

instance (d : Date) : Decidable d.MidnightFits := inferInstanceAs (Decidable (Fits _))

lemma midnightFits_iff (d : Date) : d.MidnightFits ↔ -106751991 ≤ d.days ∧ d.days ≤ 106751991 := by
  unfold MidnightFits Fits dayMicros
  omega

lemma days_nearest {n : Int} (lower : -2 ^ 31 ≤ n) (upper : n < 2 ^ 31) : (nearest n).days = n := by
  unfold days nearest Signed.clamp
  rw [dif_pos ⟨lower, upper⟩]

lemma midnight_eq_ok {d : Date} {t : Timestamp} :
    d.midnight = .ok t ↔ t.micros = d.days * dayMicros := orAbort_ofMicros_eq_ok

lemma midnight_eq_aborted {d : Date} : d.midnight = .error .aborted ↔ ¬d.MidnightFits :=
  orAbort_ofMicros_eq_aborted

lemma exists_midnight {d : Date} (h : d.MidnightFits) : ∃ t, d.midnight = .ok t :=
  ⟨.nearest (d.days * dayMicros), midnight_eq_ok.mpr (micros_nearest_of_fits h)⟩

lemma midnight_lt_iff {d e : Date} {t u : Timestamp} (hd : d.midnight = .ok t)
    (he : e.midnight = .ok u) : t.micros < u.micros ↔ d.days < e.days := by
  rw [midnight_eq_ok.mp hd, midnight_eq_ok.mp he]
  unfold dayMicros
  omega

/-- The years of the calendar end long before the midnights that fit. -/
lemma InCalendar.midnightFits {d : Date} (h : d.InCalendar) : d.MidnightFits := by
  obtain ⟨hlower, hupper⟩ := (ofDayNumber?_isSome_iff d.days).mp h
  have hfirst : -106751991 ≤ newYear firstYear := by decide
  have hlast : newYear (lastYear + 1) ≤ 106751991 := by decide
  rw [midnightFits_iff]
  omega

end Date

namespace Timestamp

/-- The day that a timestamp lies in. -/
def date (t : Timestamp) : Date := .nearest (t.micros / dayMicros)

lemma days_date (t : Timestamp) : t.date.days = t.micros / dayMicros := by
  obtain ⟨hlower, hupper⟩ := t.fits_micros
  apply Date.days_nearest <;> unfold dayMicros <;> omega

/-- A timestamp lies in a day if it does not come before the midnight of it and comes before the
next one. -/
lemma midnight_le_iff {t u : Timestamp} {d : Date} (hd : d.midnight = .ok u) :
    u.micros ≤ t.micros ↔ d.days ≤ t.date.days := by
  rw [Date.midnight_eq_ok.mp hd, days_date]
  exact (Int.le_ediv_iff_mul_le (by decide)).symm

end Timestamp

namespace Span

variable {s r : Span Date} {p q : Period}

lemma toPeriod_eq_ok : s.toPeriod = .ok p ↔
    s.lower.midnight = .ok p.lower ∧ s.upper.midnight = .ok p.upper ∧
      p.lowerInc = s.lowerInc ∧ p.upperInc = s.upperInc := by
  unfold toPeriod
  simp only [bind_eq_ok, pure_eq_ok]
  constructor
  · rintro ⟨_, hlower, _, hupper, rfl⟩
    exact ⟨hlower, hupper, rfl, rfl⟩
  · rintro ⟨hlower, hupper, hlowerInc, hupperInc⟩
    exact ⟨_, hlower, _, hupper, by rw [← hlowerInc, ← hupperInc]⟩

lemma toPeriod_eq_aborted :
    s.toPeriod = .error .aborted ↔ ¬∀ d ∈ s.bounds, d.MidnightFits := by
  have hbounds : (∀ d ∈ s.bounds, d.MidnightFits) ↔ s.lower.MidnightFits ∧ s.upper.MidnightFits := by
    simp [bounds]
  unfold toPeriod
  rw [hbounds, bind_eq_aborted, Date.midnight_eq_aborted]
  by_cases hlower : s.lower.MidnightFits
  · obtain ⟨t, ht⟩ := Date.exists_midnight hlower
    simp [ht, hlower, bind_eq_aborted, Date.midnight_eq_aborted, pure, Except.pure]
  · simp [hlower]

lemma exists_toPeriod_iff : (∃ p, s.toPeriod = .ok p) ↔ ∀ d ∈ s.bounds, d.MidnightFits := by
  constructor
  · rintro ⟨p, hp⟩
    by_contra hmisfit
    rw [toPeriod_eq_aborted.mpr hmisfit] at hp
    cases hp
  · intro hfits
    obtain ⟨t, ht⟩ := Date.exists_midnight (hfits s.lower (by simp [bounds]))
    obtain ⟨u, hu⟩ := Date.exists_midnight (hfits s.upper (by simp [bounds]))
    exact ⟨⟨t, u, s.lowerInc, s.upperInc⟩, toPeriod_eq_ok.mpr ⟨ht, hu, rfl, rfl⟩⟩

lemma lo_hi_dates (hs : s.Valid) :
    s.lo = 3 * s.lower.days + 1 ∧ s.hi = 3 * s.upper.days ∧ s.lower.days < s.upper.days := by
  obtain ⟨hlowerInc, hupperInc, hlt⟩ := (valid_iff_of_discrete DiscreteDomain.discrete).mp hs
  rw [lo_eq, hi_eq]
  rw [hlowerInc, hupperInc]
  exact ⟨rfl, Int.add_zero _, hlt⟩

lemma lo_hi_toPeriod (hs : s.Valid) (hp : s.toPeriod = .ok p) :
    p.lo = 3 * p.lower.micros + 1 ∧ p.hi = 3 * p.upper.micros := by
  obtain ⟨hlowerInc, hupperInc, -⟩ := (valid_iff_of_discrete DiscreteDomain.discrete).mp hs
  obtain ⟨-, -, hlower, hupper⟩ := toPeriod_eq_ok.mp hp
  rw [lo_eq, hi_eq]
  rw [hlower, hupper, hlowerInc, hupperInc]
  exact ⟨rfl, Int.add_zero _⟩

lemma containsValue_dates_iff (hs : s.Valid) (d : Date) :
    s.containsValue d = true ↔ s.lower.days ≤ d.days ∧ d.days < s.upper.days := by
  obtain ⟨hlo, hhi, -⟩ := lo_hi_dates hs
  rw [containsValue_iff]
  unfold Covers
  rw [hlo, hhi]
  change _ ≤ 3 * d.days + 1 ∧ 3 * d.days + 1 ≤ _ ↔ _
  omega

lemma toPeriod_valid (hs : s.Valid) (hp : s.toPeriod = .ok p) : p.Valid := by
  obtain ⟨-, -, hlt⟩ := lo_hi_dates hs
  obtain ⟨hlo, hhi⟩ := lo_hi_toPeriod hs hp
  obtain ⟨hlower, hupper, -⟩ := toPeriod_eq_ok.mp hp
  have hrising := (Date.midnight_lt_iff hlower hupper).mpr hlt
  refine ⟨by omega, fun hd => ?_⟩
  exact absurd hd Bool.false_ne_true

lemma containsValue_toPeriod (hs : s.Valid) (hp : s.toPeriod = .ok p) (t : Timestamp) :
    p.containsValue t = s.containsValue t.date := by
  obtain ⟨hlo, hhi⟩ := lo_hi_toPeriod hs hp
  obtain ⟨hlower, hupper, -⟩ := toPeriod_eq_ok.mp hp
  have hfrom := midnight_le_iff (t := t) hlower
  have hto := midnight_le_iff (t := t) hupper
  rw [Bool.eq_iff_iff, containsValue_dates_iff hs, containsValue_iff]
  unfold Covers
  rw [hlo, hhi]
  change _ ≤ 3 * t.micros + 1 ∧ 3 * t.micros + 1 ≤ _ ↔ _
  omega

lemma overlaps_toPeriod (hs : s.Valid) (hr : r.Valid) (hp : s.toPeriod = .ok p)
    (hq : r.toPeriod = .ok q) : p.overlaps q = s.overlaps r := by
  obtain ⟨hslo, hshi, -⟩ := lo_hi_dates hs
  obtain ⟨hrlo, hrhi, -⟩ := lo_hi_dates hr
  obtain ⟨hplo, hphi⟩ := lo_hi_toPeriod hs hp
  obtain ⟨hqlo, hqhi⟩ := lo_hi_toPeriod hr hq
  obtain ⟨hplower, hpupper, -⟩ := toPeriod_eq_ok.mp hp
  obtain ⟨hqlower, hqupper, -⟩ := toPeriod_eq_ok.mp hq
  have hsr := Date.midnight_lt_iff hplower hqupper
  have hrs := Date.midnight_lt_iff hqlower hpupper
  rw [Bool.eq_iff_iff, overlaps_iff, overlaps_iff]
  omega

/-- The period of a span of dates is given up if the midnight of a bound does not fit in 64 bits.
Otherwise there is one, which is not empty and holds exactly the timestamps of the days of the span.
Midnights come in the order of their days, so that spans of dates without a common day have periods
without a common part. All dates of the calendar have a midnight that fits. -/
theorem periods_hold_their_days (hs : s.Valid) :
    ((∃ p, s.toPeriod = .ok p) ↔ ∀ d ∈ s.bounds, d.MidnightFits) ∧
      (s.toPeriod = .error .aborted ↔ ¬∀ d ∈ s.bounds, d.MidnightFits) ∧
      (∀ p, s.toPeriod = .ok p →
        p.Valid ∧ ∀ t, p.containsValue t = s.containsValue t.date) ∧
      (∀ t : Timestamp, t.date.days = t.micros / dayMicros) ∧
      (∀ d e : Date, ∀ t u, d.midnight = .ok t → e.midnight = .ok u →
        (t < u ↔ d.days < e.days)) ∧
      (∀ r : Span Date, r.Valid → ∀ p q, s.toPeriod = .ok p → r.toPeriod = .ok q →
        p.overlaps q = s.overlaps r) ∧
      (∀ d : Date, d.MidnightFits ↔ -106751991 ≤ d.days ∧ d.days ≤ 106751991) ∧
      ∀ d : Date, d.InCalendar → d.MidnightFits := by
  refine ⟨exists_toPeriod_iff, toPeriod_eq_aborted, ?_, days_date, ?_, ?_, Date.midnightFits_iff,
    ?_⟩
  · intro p hp
    exact ⟨toPeriod_valid hs hp, containsValue_toPeriod hs hp⟩
  · intro d e t u hd he
    exact Date.midnight_lt_iff hd he
  · intro r hr p q hp hq
    exact overlaps_toPeriod hs hr hp hq
  · intro d hd
    exact hd.midnightFits

def firstDays : Span Date := ⟨.nearest 0, .nearest 2, true, false⟩

def thirdDay : Span Date := ⟨.nearest 2, .nearest 3, true, false⟩

/-- The days from 2000 on whose midnights fit, and the next one as the bound behind them. -/
def lastDays : Span Date := ⟨.nearest 0, .nearest 106751992, true, false⟩

theorem firstDays_hold_a_noon :
    firstDays.Valid ∧ ∃ p q, firstDays.toPeriod = .ok p ∧ thirdDay.toPeriod = .ok q ∧ p.Valid ∧
      p.containsValue (.nearest 129600000000) = true ∧ p.overlaps q = false := by
  have hs : firstDays.Valid := ⟨by decide, fun _ => by decide⟩
  have hr : thirdDay.Valid := ⟨by decide, fun _ => by decide⟩
  obtain ⟨hexists, -, hperiod, -, -, hoverlaps, -⟩ := periods_hold_their_days hs
  obtain ⟨p, hp⟩ := hexists.mpr (by decide)
  obtain ⟨q, hq⟩ := exists_toPeriod_iff (s := thirdDay).mpr (by decide)
  obtain ⟨hvalid, hcontains⟩ := hperiod p hp
  refine ⟨hs, p, q, hp, hq, hvalid, ?_, ?_⟩
  · rw [hcontains]
    decide
  · rw [hoverlaps _ hr p q hp hq]
    decide

/-- The days from 2000 on up to the last one whose midnight fits are given no period, though every
timestamp from 2000 on lies in one of them. -/
theorem lastDays_lose_their_period :
    lastDays.Valid ∧ lastDays.toPeriod = .error .aborted ∧
      lastDays.containsValue (Timestamp.nearest 0).date = true ∧
      lastDays.containsValue (Timestamp.date ⟨.maximum⟩) = true :=
  ⟨⟨by decide, fun _ => by decide⟩, toPeriod_eq_aborted.mpr (by decide), by decide, by decide⟩

end Span

end TemporalAlgebra
