import Mathlib.Order.Basic
import TemporalAlgebra.Proofs.Completion
import TemporalAlgebra.Time.Timestamp

/-!
# Shifted timestamps

A timestamp moves by whole microseconds and stays within 64 bits, or the shift is refused. The way
from one timestamp to another one is told in 64 bits as well; a longer one is given up.
-/
namespace TemporalAlgebra.Timestamp

lemma ofMicros?_eq_some {n : Int} {t : Timestamp} : ofMicros? n = some t ↔ t.micros = n := by
  unfold ofMicros?
  rw [Option.map_eq_some_iff]
  constructor
  · rintro ⟨ticks, hticks, rfl⟩
    exact (Signed.ofInt?_eq_some.mp hticks).symm
  · rintro rfl
    exact ⟨t.ticks, Signed.ofInt?_eq_some.mpr rfl, rfl⟩

lemma micros_nearest {n : Int} (h : n < 2 ^ 63) : (nearest n).micros = max (-2 ^ 63) n := by
  change (Signed.clamp n : Bigint).val = _
  unfold Signed.clamp
  split
  · dsimp only
    omega
  · rw [if_pos (by omega)]
    dsimp only
    omega

lemma shift_eq_ok {t u : Timestamp} {d : Interval} {size : Bigint} (hd : d.micros? = some size) :
    t.shift d = .ok u ↔ u.micros = t.micros + size.val := by
  unfold shift
  simp only [hd, bind_eq_ok, orRefuse_eq_ok, Option.some_inj, exists_eq_left', ofMicros?_eq_some]

def Fits (n : Int) : Prop := -2 ^ 63 ≤ n ∧ n < 2 ^ 63

instance (n : Int) : Decidable (Fits n) := instDecidableAnd

lemma fits_micros (t : Timestamp) : Fits t.micros := ⟨t.ticks.lower, t.ticks.upper⟩

lemma micros_nearest_of_fits {n : Int} (h : Fits n) : (nearest n).micros = n := by
  rw [micros_nearest h.2]
  exact Int.max_eq_right h.1

lemma nearest_micros (t : Timestamp) : nearest t.micros = t :=
  congrArg Timestamp.mk (Signed.clamp_val t.ticks)

lemma micros?_ofMicros (n : Int) : (Interval.ofMicros n).micros? = Signed.ofInt? n :=
  congrArg Signed.ofInt? (Int.mul_tdiv_cancel n (by decide))

/-- A shift by whole microseconds is refused if these, or the timestamp that they lead to, do not
fit. -/
lemma shift_ofMicros_eq_ok {t u : Timestamp} {n : Int} :
    t.shift (.ofMicros n) = .ok u ↔ Fits n ∧ u.micros = t.micros + n := by
  have hwhole := micros?_ofMicros n
  cases hsize : (Interval.ofMicros n).micros? with
  | none =>
    have hfits : ¬Fits n := Signed.ofInt?_eq_none.mp (hwhole.symm.trans hsize)
    unfold shift
    rw [hsize]
    exact iff_of_false refuse_ne_ok fun h => hfits h.1
  | some size =>
    obtain rfl := Signed.ofInt?_eq_some.mp (hwhole.symm.trans hsize)
    rw [shift_eq_ok hsize]
    exact (and_iff_right ⟨size.lower, size.upper⟩).symm

lemma orAbort_ofMicros_eq_ok {n : Int} {t : Timestamp} :
    orAbort (ofMicros? n) = .ok t ↔ t.micros = n := by
  rw [orAbort_eq_ok, ofMicros?_eq_some]

lemma orAbort_ofMicros_eq_aborted {n : Int} :
    orAbort (ofMicros? n) = .error .aborted ↔ ¬Fits n := by
  rw [orAbort_eq_aborted]
  unfold ofMicros?
  rw [Option.map_eq_none_iff]
  exact Signed.ofInt?_eq_none

lemma microsTo_eq_ok {a b : Timestamp} {n : Bigint} :
    a.microsTo b = .ok n ↔ n.val = b.micros - a.micros := by
  unfold microsTo
  rw [orAbort_eq_ok, Signed.ofInt?_eq_some]
  exact eq_comm

lemma exists_microsTo {a b : Timestamp} (h : Fits (b.micros - a.micros)) :
    ∃ n, a.microsTo b = .ok n ∧ n.val = b.micros - a.micros :=
  ⟨⟨_, h.1, h.2⟩, microsTo_eq_ok.mpr rfl, rfl⟩

lemma microsTo_eq_aborted {a b : Timestamp} :
    a.microsTo b = .error .aborted ↔ ¬Fits (b.micros - a.micros) := by
  unfold microsTo
  rw [orAbort_eq_aborted]
  exact Signed.ofInt?_eq_none

lemma distanceTo_eq_ok {a b : Timestamp} {x : Float} :
    a.distanceTo b = .ok x ↔
      Fits (b.micros - a.micros) ∧ Binary64.ofInt (b.micros - a.micros) = x := by
  unfold distanceTo
  simp only [bind_eq_ok, pure_eq_ok]
  constructor
  · rintro ⟨n, hn, rfl⟩
    rw [← microsTo_eq_ok.mp hn]
    exact ⟨⟨n.lower, n.upper⟩, rfl⟩
  · rintro ⟨hfits, rfl⟩
    obtain ⟨n, hn, hval⟩ := exists_microsTo hfits
    exact ⟨n, hn, by rw [hval]⟩

lemma distanceTo_of_fits {a b : Timestamp} (h : Fits (b.micros - a.micros)) :
    a.distanceTo b = .ok (Binary64.ofInt (b.micros - a.micros)) :=
  distanceTo_eq_ok.mpr ⟨h, rfl⟩

lemma distanceTo_eq_aborted {a b : Timestamp} :
    a.distanceTo b = .error .aborted ↔ ¬Fits (b.micros - a.micros) := by
  exact (bind_eq_aborted_iff fun _ _ => Completes.ok _).trans microsTo_eq_aborted

lemma lerp_of_not_fits {a b : Timestamp} (h : ¬Fits (b.micros - a.micros)) (r : Float) :
    a.lerp b r = .error .aborted := by
  unfold lerp
  exact bind_of_error (distanceTo_eq_aborted.mpr h)

/-- The quotient of the two ways of which `ratio` is one, as long as both are told. -/
def quotient (t start stop : Timestamp) : Float :=
  if stop.micros = start.micros then 0.0
  else Binary64.ofInt (t.micros - start.micros) / Binary64.ofInt (stop.micros - start.micros)

lemma ratio_eq_ok {t a b : Timestamp} {r : Float} :
    t.ratio a b = .ok r ↔ (b.micros ≠ a.micros → Fits (t.micros - a.micros) ∧
      Fits (b.micros - a.micros)) ∧ t.quotient a b = r := by
  unfold ratio quotient
  split
  · rename_i h
    rw [pure_eq_ok]
    exact (and_iff_right fun hne => absurd h hne).symm
  · rename_i h
    simp only [bind_eq_ok, pure_eq_ok, distanceTo_eq_ok]
    constructor
    · rintro ⟨x, ⟨hx, rfl⟩, y, ⟨hy, rfl⟩, rfl⟩
      exact ⟨fun _ => ⟨hx, hy⟩, rfl⟩
    · rintro ⟨hfits, rfl⟩
      exact ⟨_, ⟨(hfits h).1, rfl⟩, _, ⟨(hfits h).2, rfl⟩, rfl⟩

/-- Between two timestamps the quotient is told if the way from the one to the other is. -/
lemma ratio_of_mem {t a b : Timestamp} (hat : a ≤ t) (htb : t ≤ b)
    (h : Fits (b.micros - a.micros)) : t.ratio a b = .ok (t.quotient a b) := by
  have hat : a.micros ≤ t.micros := hat
  have htb : t.micros ≤ b.micros := htb
  refine ratio_eq_ok.mpr ⟨fun _ => ⟨?_, h⟩, rfl⟩
  unfold Fits at h ⊢
  omega

lemma unrefused_ratio (t a b : Timestamp) : Unrefused (t.ratio a b) := by
  have hdistance : ∀ c d : Timestamp, Unrefused (c.distanceTo d) := fun _ _ =>
    (Unrefused.orAbort _).bind fun _ _ => Unrefused.ok _
  unfold ratio
  split
  · exact Unrefused.ok _
  · exact (hdistance a t).bind fun _ _ => (hdistance a b).bind fun _ _ => Unrefused.ok _

lemma unrefused_lerp (a b : Timestamp) (r : Float) : Unrefused (a.lerp b r) :=
  ((Unrefused.orAbort _).bind fun _ _ => Unrefused.ok _).bind fun _ _ => Unrefused.orAbort _

lemma ratio_eq_aborted {t a b : Timestamp} (hat : a < t) (htb : t ≤ b) :
    t.ratio a b = .error .aborted ↔ ¬Fits (b.micros - a.micros) := by
  have hlt : a.micros < t.micros := hat
  have hle : t.micros ≤ b.micros := htb
  constructor
  · intro h hfits
    rw [ratio_of_mem (Int.le_of_lt hlt) htb hfits] at h
    cases h
  · intro h
    unfold ratio
    rw [if_neg (by omega), bind_eq_aborted, distanceTo_eq_aborted]
    by_cases hfits : Fits (t.micros - a.micros)
    · refine Or.inr ⟨_, distanceTo_of_fits hfits, ?_⟩
      rw [bind_eq_aborted, distanceTo_eq_aborted]
      exact Or.inl h
    · exact Or.inl hfits

def later (d : Int) (t : Timestamp) : Timestamp := nearest (t.micros + d)

lemma later_zero (t : Timestamp) : later 0 t = t := by
  unfold later
  rw [Int.add_zero, nearest_micros]

end TemporalAlgebra.Timestamp
