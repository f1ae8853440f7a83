import TemporalAlgebra.Proofs.Number.Conversion
import TemporalAlgebra.Proofs.Temporal.Retiming
import TemporalAlgebra.Proofs.Temporal.TimeRestriction
import TemporalAlgebra.Proofs.Time.Shifting

/-!
# Values moved in time

A value is moved by moving its start and adding to it how far each instant lies behind the old one.
That way is made a floating point number first, as it is when a value is stretched, and so loses its
last bits if it is long.
-/
namespace TemporalAlgebra.Temporal

open Timestamp (Fits later)

variable {V : Type} [TemporalValue V] {v r : Temporal V} {i : Instant V} {d : Int}

/-- Microseconds from the first instant of a value to a timestamp. -/
def offset (v : Temporal V) (t : Timestamp) : Int := t.micros - v.firstInstant.time.micros

/-- The microseconds that a timestamp of a value comes to if the value is moved. -/
def target (v : Temporal V) (d : Int) (t : Timestamp) : Int :=
  v.firstInstant.time.micros + d + Binary64.carried (v.offset t).toNat

/-- The timestamp that follows a moved start like another one did the old start. -/
def follow (v : Temporal V) (start t : Timestamp) : Result Timestamp := do
  let way ← v.firstInstant.time.distanceTo t
  start.shift (.ofMicros (Binary64.toSigned (way * 1.0) : Bigint).val)

lemma shiftTime_eq_ok {d : Interval} (hlast : Fits (v.offset v.lastInstant.time)) :
    v.shiftTime d = .ok r ↔
      ∃ start, v.firstInstant.time.shift d = .ok start ∧ v.mapTimes (v.follow start) = .ok r := by
  unfold shiftTime shiftScaleTime
  rw [reported_eq_ok]
  change (do
    let start ← v.firstInstant.time.shift d
    let _ ← v.firstInstant.time.microsTo v.lastInstant.time
    v.mapTimes (v.follow start)) = .ok r ↔ _
  obtain ⟨way, hway, -⟩ := Timestamp.exists_microsTo hlast
  simp only [hway, bind_eq_ok, Except.ok.injEq, exists_eq_left']

lemma firstInstant_retimed (g : Timestamp → Timestamp) (v : Temporal V) :
    (v.retimed g).firstInstant = v.firstInstant.retimed g := by
  cases v <;> rfl

section

variable [LawfulValue V]

lemma WellFormed.first_le (h : v.WellFormed) (hi : i ∈ v.instants) :
    v.firstInstant.time.place ≤ i.time.place := by
  cases v with
  | instant j =>
    obtain rfl := List.mem_singleton.mp hi
    exact le_refl _
  | sequence s => exact Sequence.first_le (Sequence.WellFormed.rising h) hi
  | sequenceSet s =>
    obtain ⟨x, hx, hi⟩ := List.mem_flatMap.mp hi
    have hle := Sequence.first_le (h.sequences x hx).rising hi
    rcases List.mem_cons.mp hx with rfl | hx
    · exact hle
    · have hbefore : s.first.Before x := List.rel_of_pairwise_cons h.rising hx
      have hlo := (h.sequences s.first (List.mem_cons_self ..)).lo_le_hi
      have hfirst := s.first.first.time.place_emod
      have hx := x.first.time.place_emod
      unfold Sequence.Before at hbefore
      rw [Sequence.lo_eq] at hbefore hlo
      change s.first.first.time.place ≤ _
      split at hlo <;> split at hbefore <;> omega

lemma WellFormed.offset_nonneg (h : v.WellFormed) (hi : i ∈ v.instants) :
    0 ≤ v.offset i.time := by
  have hle := h.first_le hi
  unfold Timestamp.place at hle
  unfold offset
  omega

lemma WellFormed.fits_offset (h : v.WellFormed) (hi : i ∈ v.instants)
    (hwide : v.offset i.time < 2 ^ 63) : Fits (v.offset i.time) :=
  ⟨by have := h.offset_nonneg hi; omega, hwide⟩

/-- An instant is moved by exactly `d` microseconds if its offset comes back as it was. -/
lemma target_eq_iff (h : v.WellFormed) (hi : i ∈ v.instants) (hwide : v.offset i.time < 2 ^ 63) :
    v.target d i.time = i.time.micros + d ↔ Binary64.Carries (v.offset i.time).toNat := by
  have hnonneg := h.offset_nonneg hi
  have hmicros : i.time.micros = v.firstInstant.time.micros + v.offset i.time := by
    unfold offset
    omega
  rw [← Binary64.carried_eq_iff (by omega)]
  unfold target
  omega

lemma follow_eq_ok (h : v.WellFormed) (hi : i ∈ v.instants) (hwide : v.offset i.time < 2 ^ 63)
    {start u : Timestamp} (hstart : start.micros = v.firstInstant.time.micros + d) :
    v.follow start i.time = .ok u ↔ u.micros = v.target d i.time := by
  have hnonneg := h.offset_nonneg hi
  have hway := Timestamp.distanceTo_of_fits (h.fits_offset hi hwide)
  have hmicros : i.time.micros - v.firstInstant.time.micros = ((v.offset i.time).toNat : Int) :=
    (Int.toNat_of_nonneg hnonneg).symm
  have hcarried : Fits (Binary64.carried (v.offset i.time).toNat) := by
    unfold Binary64.carried
    constructor <;> omega
  unfold follow
  rw [bind_of_ok hway, hmicros, Binary64.toSigned_ofInt (by omega), Timestamp.shift_ofMicros_eq_ok,
    hstart]
  exact and_iff_right hcarried

theorem shiftTime_eq_ok_iff (h : v.WellFormed)
    (hwide : ∀ i ∈ v.instants, v.offset i.time < 2 ^ 63) :
    v.shiftTime (.ofMicros d) = .ok r ↔ Fits d ∧ (∀ i ∈ v.instants, Fits (v.target d i.time)) ∧
      (v.retimed fun t => .nearest (v.target d t)).WellFormed ∧
        (v.retimed fun t => .nearest (v.target d t)) = r := by
  have hmapTimes : ∀ start : Timestamp, start.micros = v.firstInstant.time.micros + d →
      (∀ i ∈ v.instants, Fits (v.target d i.time)) → (v.mapTimes (v.follow start) = .ok r ↔
        (v.retimed fun t => .nearest (v.target d t)).WellFormed ∧
          (v.retimed fun t => .nearest (v.target d t)) = r) := fun start hstart hfits =>
    mapTimes_eq_ok_iff fun i hi => (follow_eq_ok h hi (hwide i hi) hstart).mpr
      (Timestamp.micros_nearest_of_fits (hfits i hi))
  rw [shiftTime_eq_ok (h.fits_offset v.lastInstant_mem (hwide _ v.lastInstant_mem))]
  constructor
  · rintro ⟨start, hstart, hr⟩
    obtain ⟨hd, hstart⟩ := Timestamp.shift_ofMicros_eq_ok.mp hstart
    have hfits : ∀ i ∈ v.instants, Fits (v.target d i.time) := fun i hi => by
      obtain ⟨u, hu⟩ := exists_of_mapTimes hr i hi
      rw [← (follow_eq_ok h hi (hwide i hi) hstart).mp hu]
      exact u.fits_micros
    exact ⟨hd, hfits, (hmapTimes start hstart hfits).mp hr⟩
  · rintro ⟨hd, hfits, hr⟩
    -- the first instant has no offset, so the moved start fits because it does
    have hfirst : v.target d v.firstInstant.time = v.firstInstant.time.micros + d := by
      unfold target offset
      rw [Int.sub_self]
      exact Int.add_zero _
    have hstart : (later d v.firstInstant.time).micros = v.firstInstant.time.micros + d :=
      Timestamp.micros_nearest_of_fits (hfirst ▸ hfits _ v.firstInstant_mem)
    exact ⟨_, Timestamp.shift_ofMicros_eq_ok.mpr ⟨hd, hstart⟩, (hmapTimes _ hstart hfits).mpr hr⟩

lemma WellFormed.retimed_later (h : v.WellFormed)
    (hrange : ∀ i ∈ v.instants, Fits (i.time.micros + d)) : (v.retimed (later d)).WellFormed := by
  refine h.retimed fun i hi j hj hij => ?_
  have hmicros : ∀ i ∈ v.instants, (later d i.time).micros = i.time.micros + d := fun i hi =>
    Timestamp.micros_nearest_of_fits (hrange i hi)
  unfold Timestamp.place at *
  rw [hmicros i hi, hmicros j hj]
  omega

/-- Every instant is moved by exactly `d` microseconds if all offsets come back as they were. -/
theorem shiftTime_eq_retimed_iff (h : v.WellFormed)
    (hwide : ∀ i ∈ v.instants, v.offset i.time < 2 ^ 63)
    (hrange : ∀ i ∈ v.instants, Fits (i.time.micros + d)) :
    v.shiftTime (.ofMicros d) = .ok (v.retimed (later d)) ↔
      Fits d ∧ ∀ i ∈ v.instants, Binary64.Carries (v.offset i.time).toNat := by
  rw [shiftTime_eq_ok_iff h hwide, retimed_eq_iff]
  constructor
  · rintro ⟨hd, hfits, -, heq⟩
    refine ⟨hd, fun i hi => (target_eq_iff (d := d) h hi (hwide i hi)).mp ?_⟩
    rw [← Timestamp.micros_nearest_of_fits (hfits i hi), heq i hi]
    exact Timestamp.micros_nearest_of_fits (hrange i hi)
  · rintro ⟨hd, hcarries⟩
    have htarget : ∀ i ∈ v.instants, v.target d i.time = i.time.micros + d := fun i hi =>
      (target_eq_iff h hi (hwide i hi)).mpr (hcarries i hi)
    have heq : ∀ i ∈ v.instants, Timestamp.nearest (v.target d i.time) = later d i.time :=
      fun i hi => congrArg Timestamp.nearest (htarget i hi)
    refine ⟨hd, fun i hi => ?_, ?_, heq⟩
    · rw [htarget i hi]
      exact hrange i hi
    · rw [retimed_eq_iff.mpr heq]
      exact h.retimed_later hrange

omit [LawfulValue V] in
lemma offset_retimed_later (hrange : ∀ i ∈ v.instants, Fits (i.time.micros + d))
    (hi : i ∈ v.instants) : (v.retimed (later d)).offset (later d i.time) = v.offset i.time := by
  have hmicros : ∀ i ∈ v.instants, (later d i.time).micros = i.time.micros + d := fun i hi =>
    Timestamp.micros_nearest_of_fits (hrange i hi)
  unfold offset
  rw [firstInstant_retimed]
  change (later d i.time).micros - (later d v.firstInstant.time).micros = _
  rw [hmicros i hi, hmicros _ v.firstInstant_mem]
  omega

/-- A value that is moved there and back is built anew. -/
lemma shiftTime_back (h : v.WellFormed) (hwide : ∀ i ∈ v.instants, v.offset i.time < 2 ^ 63)
    (hcarries : ∀ i ∈ v.instants, Binary64.Carries (v.offset i.time).toNat) (hd : Fits (-d))
    (hrange : ∀ i ∈ v.instants, Fits (i.time.micros + d)) :
    (v.retimed (later d)).shiftTime (.ofMicros (-d)) = .ok v.rebuilt := by
  have hback : ∀ i ∈ v.instants, (later d i.time).micros + -d = i.time.micros := fun i hi => by
    have hmicros : (later d i.time).micros = i.time.micros + d :=
      Timestamp.micros_nearest_of_fits (hrange i hi)
    omega
  have hrebuilt : (v.retimed (later d)).retimed (later (-d)) = v.rebuilt := by
    rw [retimed_retimed, ← retimed_id, retimed_eq_iff]
    intro i hi
    change Timestamp.nearest ((later d i.time).micros + -d) = i.time
    rw [hback i hi, Timestamp.nearest_micros]
  rw [← hrebuilt, shiftTime_eq_retimed_iff (h.retimed_later hrange)]
  · refine ⟨hd, ?_⟩
    rw [instants_retimed, List.forall_mem_map]
    intro i hi
    change Binary64.Carries ((v.retimed (later d)).offset (later d i.time)).toNat
    rw [offset_retimed_later hrange hi]
    exact hcarries i hi
  · rw [instants_retimed, List.forall_mem_map]
    intro i hi
    exact (offset_retimed_later hrange hi).trans_lt (hwide i hi)
  · rw [instants_retimed, List.forall_mem_map]
    intro i hi
    change Fits ((later d i.time).micros + -d)
    rw [hback i hi]
    exact i.time.fits_micros

/-- A move keeps all of a value but its timestamps. These are moved by exactly the microseconds of
the interval if and only if every offset comes back as it was from a floating point number. A value
is then equal to what a move by nothing makes of it, and a move there and back. -/
theorem shiftTime_exact_iff_carries (h : v.WellFormed)
    (hwide : ∀ i ∈ v.instants, v.offset i.time < 2 ^ 63) :
    (∀ d r, v.shiftTime (.ofMicros d) = .ok r → ∃ g, r = v.retimed g) ∧
      (∀ d, (∀ i ∈ v.instants, Fits (i.time.micros + d)) →
        (∀ i ∈ v.instants, (later d i.time).micros = i.time.micros + d) ∧
          (v.shiftTime (.ofMicros d) = .ok (v.retimed (later d)) ↔
            Fits d ∧ ∀ i ∈ v.instants, Binary64.Carries (v.offset i.time).toNat)) ∧
      ((∀ i ∈ v.instants, Binary64.Carries (v.offset i.time).toNat) →
        v.shiftTime (.ofMicros 0) = .ok v.rebuilt ∧
          ∀ d, Fits d → Fits (-d) → (∀ i ∈ v.instants, Fits (i.time.micros + d)) →
            ∃ r, v.shiftTime (.ofMicros d) = .ok r ∧
              r.shiftTime (.ofMicros (-d)) = .ok v.rebuilt) ∧
      (v.Proper → (v == v.rebuilt) = true) := by
  refine ⟨fun d r hr => ?_, fun d hrange => ⟨fun i hi => ?_, ?_⟩, fun hcarries => ⟨?_, ?_⟩,
    fun hproper => beq_of_rebuilt_eq (rebuilt_rebuilt v).symm hproper⟩
  · exact ⟨_, ((shiftTime_eq_ok_iff h hwide).mp hr).2.2.2.symm⟩
  · exact Timestamp.micros_nearest_of_fits (hrange i hi)
  · exact shiftTime_eq_retimed_iff h hwide hrange
  · have hstays : v.retimed (later 0) = v.rebuilt := by
      rw [← retimed_id, retimed_eq_iff]
      intro i _
      exact Timestamp.later_zero i.time
    rw [← hstays, shiftTime_eq_retimed_iff h hwide fun i _ => ?_]
    · exact ⟨by decide, hcarries⟩
    · rw [Int.add_zero]
      exact i.time.fits_micros
  · intro d hd hback hrange
    exact ⟨_, (shiftTime_eq_retimed_iff h hwide hrange).mpr ⟨hd, hcarries⟩,
      shiftTime_back h hwide hcarries hback hrange⟩

end

/-- Steps are moved by five microseconds, and back. -/
theorem stairs_moved :
    stairs.WellFormed ∧ (∀ i ∈ stairs.instants, stairs.offset i.time < 2 ^ 63) ∧
      stairs.shiftTime (.ofMicros 5) = .ok (stairs.retimed (later 5)) ∧
      stairs.shiftTime (.ofMicros 0) = .ok stairs.rebuilt ∧
      ∃ r, stairs.shiftTime (.ofMicros 5) = .ok r ∧
        r.shiftTime (.ofMicros (-5)) = .ok stairs.rebuilt := by
  have hwide : ∀ i ∈ stairs.instants, stairs.offset i.time < 2 ^ 63 := by decide
  have hcarries : ∀ i ∈ stairs.instants, Binary64.Carries (stairs.offset i.time).toNat := by decide
  have hrange : ∀ i ∈ stairs.instants, Fits (i.time.micros + 5) := by decide
  obtain ⟨-, hexact, hback, -⟩ := shiftTime_exact_iff_carries stairs_wellFormed hwide
  obtain ⟨hzero, hreturn⟩ := hback hcarries
  exact ⟨stairs_wellFormed, hwide, (hexact 5 hrange).2.mpr ⟨by decide, hcarries⟩, hzero,
    hreturn 5 (by decide) (by decide) hrange⟩

/-- A count with a step that is one microsecond longer than `2 ^ 53`. -/
def longStep : Temporal Integer :=
  .sequence (.ofRun ⟨.clamp 1, .nearest 0⟩ [⟨.clamp 2, .nearest 9007199254740993⟩] true true .step)

/-- The long step loses its last microsecond, even if it is not moved at all. -/
theorem longStep_shortened : longStep.WellFormed ∧
    (∀ i ∈ longStep.instants, longStep.offset i.time < 2 ^ 63) ∧
    ∃ r, longStep.shiftTime (.ofMicros 0) = .ok r ∧
      r.instants.map (fun i => i.time.micros) = [0, 9007199254740992] := by
  have hwf : longStep.WellFormed := rfl
  have hwide : ∀ i ∈ longStep.instants, longStep.offset i.time < 2 ^ 63 := by decide
  have hrise : ∀ i ∈ longStep.instants, ∀ j ∈ longStep.instants, i.time.place < j.time.place →
      (Timestamp.nearest (longStep.target 0 i.time)).place <
        (Timestamp.nearest (longStep.target 0 j.time)).place := by decide
  have hmoved := (shiftTime_eq_ok_iff hwf hwide).mpr ⟨by decide, by decide, hwf.retimed hrise, rfl⟩
  exact ⟨hwf, hwide, _, hmoved, rfl⟩

end TemporalAlgebra.Temporal
