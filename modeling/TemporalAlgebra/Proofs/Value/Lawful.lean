import TemporalAlgebra.Proofs.Number.Fraction
import TemporalAlgebra.Proofs.Outcome
import TemporalAlgebra.Value.Compound

/-!
# Laws of values

Equality of values need not hold of a value itself: a NaN is not equal to itself. For every type of
values it is symmetric and transitive, and values that go together are never driven apart by
interpolation. Truth values, integers and texts only change by steps, and those that are equal are
the same.
-/
namespace TemporalAlgebra

/-- What temporal values rely on of the values they are made of. -/
class LawfulValue (V : Type) [TemporalValue V] : Prop where
  beq_symm : ∀ {x y : V}, (x == y) = true → (y == x) = true
  beq_trans : ∀ {x y z : V}, (x == y) = true → (y == z) = true → (x == z) = true
  compatible_self : ∀ x : V, TemporalValue.compatible x x = .ok ()
  compatible_symm : ∀ {x y : V},
    TemporalValue.compatible x y = .ok () → TemporalValue.compatible y x = .ok ()
  compatible_trans : ∀ {x y z : V}, TemporalValue.compatible x y = .ok () →
    TemporalValue.compatible y z = .ok () → TemporalValue.compatible x z = .ok ()
  compatible_interpolate : ∀ {x y : V} (r : Float), TemporalValue.compatible x y = .ok () →
    TemporalValue.compatible x (TemporalValue.interpolate x y r) = .ok ()
  /-- A value next to another one is so in each of its forms. -/
  collinear_congr : ∀ {x y z : V} {r : Float}, (y == z) = true →
    TemporalValue.collinear x y x r = TemporalValue.collinear x z x r
  beq_self_of_collinear : ∀ {x y : V} {r : Float}, TemporalValue.compatible x y = .ok () →
    TemporalValue.collinear x y x r = true → (x == x) = true
  /-- A value is located on the way. -/
  locate_fraction : ∀ {x y z : V} {r : Float}, TemporalValue.continuous V = true →
    TemporalValue.locate x y z = some r → Binary64.Fraction r

/-- Values that only change by steps, of which equal ones are the same and any two go together. -/
class StepValue (V : Type) [TemporalValue V] : Prop extends LawfulBEq V where
  continuous_eq_false : TemporalValue.continuous V = false
  compatible_eq_ok : ∀ x y : V, TemporalValue.compatible x y = .ok ()
  collinear_eq : ∀ (x y z : V) (r : Float),
    TemporalValue.collinear x y z r = (x == y && y == z)

instance : StepValue Bool where
  eq_of_beq := eq_of_beq
  rfl := BEq.rfl
  continuous_eq_false := rfl
  compatible_eq_ok _ _ := rfl
  collinear_eq _ _ _ _ := rfl

instance : StepValue Integer where
  eq_of_beq := of_decide_eq_true
  rfl := decide_eq_true rfl
  continuous_eq_false := rfl
  compatible_eq_ok _ _ := rfl
  collinear_eq _ _ _ _ := rfl

instance : StepValue String where
  eq_of_beq := eq_of_beq
  rfl := BEq.rfl
  continuous_eq_false := rfl
  compatible_eq_ok _ _ := rfl
  collinear_eq _ _ _ _ := rfl

/-- Values that change by steps obey the laws of values. -/
instance {V : Type} [TemporalValue V] [StepValue V] : LawfulValue V where
  beq_symm h := by rw [eq_of_beq h]; exact BEq.rfl
  beq_trans h h' := by rw [eq_of_beq h]; exact h'
  compatible_self x := StepValue.compatible_eq_ok x x
  compatible_symm _ := StepValue.compatible_eq_ok _ _
  compatible_trans _ _ := StepValue.compatible_eq_ok _ _
  compatible_interpolate _ _ := StepValue.compatible_eq_ok _ _
  collinear_congr h := by rw [eq_of_beq h]
  beq_self_of_collinear _ _ := BEq.rfl
  locate_fraction hc _ := by
    rw [StepValue.continuous_eq_false] at hc
    exact absurd hc Bool.false_ne_true

/-- The same value or an equal one. A NaN is the same as itself, though not equal. -/
def Alike {V : Type} [BEq V] (x y : V) : Prop := x = y ∨ (x == y) = true

section

variable {V : Type} [TemporalValue V] {x y z : V}

lemma Alike.refl (x : V) : Alike x x := Or.inl rfl

lemma Alike.of_beq (h : (x == y) = true) : Alike x y := Or.inr h

lemma Alike.beq (h : Alike x y) (hx : (x == x) = true) : (x == y) = true := by
  rcases h with rfl | h
  · exact hx
  · exact h

lemma Alike.eq [LawfulBEq V] (h : Alike x y) : x = y := h.elim id eq_of_beq

variable [LawfulValue V]

lemma beq_self_right (h : (x == y) = true) : (y == y) = true :=
  LawfulValue.beq_trans (LawfulValue.beq_symm h) h

lemma Alike.symm (h : Alike x y) : Alike y x := h.imp Eq.symm LawfulValue.beq_symm

lemma Alike.trans (h : Alike x y) (h' : Alike y z) : Alike x z := by
  rcases h with rfl | h
  · exact h'
  · rcases h' with rfl | h'
    · exact Or.inr h
    · exact Or.inr (LawfulValue.beq_trans h h')

end

open Binary64

lemma nearlyEqual_congr {x y : Float} (h : (x == y) = true) (e : Float) :
    nearlyEqual x e = nearlyEqual y e := by
  unfold nearlyEqual
  rw [abs_eq (shape_sub_left ((beq_iff x y).mp h).1 e)]

/-- On the way from a NaN to itself there are only NaNs. -/
lemma nan_along {x : Float} (h : shape x = .notANumber) (r : Float) :
    shape (x + (x - x) * r) = .notANumber := nan_add_left h _

lemma beq_self_of_nearlyEqual {x y r : Float}
    (h : nearlyEqual y (lerp x x r) = true) : (x == x) = true := by
  rw [beq_self_iff]
  intro hn
  unfold nearlyEqual at h
  exact not_le_of_nan (nan_abs (nan_sub_right (nan_along hn r) y)) _ (of_decide_eq_true h)

lemma fraction_of_locateNumber {start stop x r : Float} (h : locateNumber start stop x = some r) :
    Fraction r := by
  unfold locateNumber at h
  split at h
  · cases h
  · dsimp only at h
    generalize (if start < stop then (start, stop) else (stop, start)) = ends at h
    split at h
    · cases h
    · rw [← Option.some.inj h]
      exact fraction_clamp _

instance : LawfulValue Float where
  beq_symm := Binary64.beq_symm
  beq_trans := Binary64.beq_trans
  compatible_self _ := rfl
  compatible_symm _ := rfl
  compatible_trans _ _ := rfl
  compatible_interpolate _ _ := rfl
  collinear_congr h := nearlyEqual_congr h _
  beq_self_of_collinear _ h := beq_self_of_nearlyEqual h
  locate_fraction _ h := fraction_of_locateNumber h

namespace Pair

lemma beq_iff (p q : Pair) : (p == q) = true ↔ (p.a == q.a) = true ∧ (p.b == q.b) = true := by
  change (p.a == q.a && p.b == q.b) = true ↔ _
  rw [Bool.and_eq_true]

end Pair

instance : LawfulValue Pair where
  beq_symm h := by
    obtain ⟨ha, hb⟩ := (Pair.beq_iff _ _).mp h
    exact (Pair.beq_iff _ _).mpr ⟨Binary64.beq_symm ha, Binary64.beq_symm hb⟩
  beq_trans h h' := by
    obtain ⟨ha, hb⟩ := (Pair.beq_iff _ _).mp h
    obtain ⟨ha', hb'⟩ := (Pair.beq_iff _ _).mp h'
    exact (Pair.beq_iff _ _).mpr ⟨Binary64.beq_trans ha ha', Binary64.beq_trans hb hb'⟩
  compatible_self _ := rfl
  compatible_symm _ := rfl
  compatible_trans _ _ := rfl
  compatible_interpolate _ _ := rfl
  collinear_congr {x y z r} h := by
    obtain ⟨ha, hb⟩ := (Pair.beq_iff _ _).mp h
    change (nearlyEqual y.a (x.lerp x r).a && nearlyEqual y.b (x.lerp x r).b) =
      (nearlyEqual z.a (x.lerp x r).a && nearlyEqual z.b (x.lerp x r).b)
    rw [nearlyEqual_congr ha, nearlyEqual_congr hb]
  beq_self_of_collinear {x y r} _ h := by
    change (nearlyEqual y.a (x.lerp x r).a && nearlyEqual y.b (x.lerp x r).b) = true at h
    rw [Bool.and_eq_true] at h
    exact (Pair.beq_iff _ _).mpr ⟨beq_self_of_nearlyEqual h.1, beq_self_of_nearlyEqual h.2⟩
  locate_fraction _ h := nomatch h

namespace Point

lemma beq_iff (p q : Point) : (p == q) = true ↔
    (p.x == q.x) = true ∧ (p.y == q.y) = true ∧ (p.z == q.z) = true ∧ p.srid = q.srid := by
  change (p.x == q.x && (p.y == q.y && (p.z == q.z && p.srid == q.srid))) = true ↔ _
  rw [Bool.and_eq_true, Bool.and_eq_true, Bool.and_eq_true]
  exact and_congr_right fun _ => and_congr_right fun _ => and_congr_right fun _ => beq_iff_eq

lemma elevation_symm {a b : Option Float} (h : (a == b) = true) : (b == a) = true := by
  cases a <;> cases b
  · rfl
  · exact h
  · exact h
  · exact Binary64.beq_symm h

lemma elevation_trans {a b c : Option Float} (h : (a == b) = true) (h' : (b == c) = true) :
    (a == c) = true := by
  cases b with
  | none =>
    cases a with
    | none => exact h'
    | some x => exact absurd h Bool.false_ne_true
  | some y =>
    cases a with
    | none => exact absurd h Bool.false_ne_true
    | some x =>
      cases c with
      | none => exact h'
      | some z => exact Binary64.beq_trans h h'

lemma compatible_iff (p q : Point) :
    compatible p q = .ok () ↔ p.srid = q.srid ∧ p.hasZ = q.hasZ := by
  unfold compatible
  simp

/-- Equal points are at one distance from any other. -/
lemma distance_congr {p q : Point} (h : (p == q) = true) (o : Point) :
    o.distance p = o.distance q := by
  obtain ⟨hx, hy, hz, -⟩ := (beq_iff p q).mp h
  have hplane : hypot (o.x - p.x) (o.y - p.y) = hypot (o.x - q.x) (o.y - q.y) :=
    hypot_eq (shape_sub_right ((Binary64.beq_iff _ _).mp hx).1 _)
      (shape_sub_right ((Binary64.beq_iff _ _).mp hy).1 _)
  unfold distance
  rw [hplane]
  cases o.z with
  | none => rfl
  | some z =>
    cases hp : p.z with
    | none =>
      cases hq : q.z with
      | none => rfl
      | some b =>
        rw [hp, hq] at hz
        simp at hz
    | some a =>
      cases hq : q.z with
      | none =>
        rw [hp, hq] at hz
        simp at hz
      | some b =>
        rw [hp, hq] at hz
        exact hypot_eq (Same.refl _) (shape_sub_right ((Binary64.beq_iff _ _).mp hz).1 _)

lemma lerp_hasZ {p q : Point} (h : p.hasZ = q.hasZ) (r : Float) :
    (p.lerp q r).hasZ = p.hasZ := by
  unfold hasZ at h
  unfold hasZ lerp
  cases hp : p.z <;> cases hq : q.z <;> simp_all

/-- A point near which there is any has no coordinate that is a NaN. -/
lemma beq_self_of_distance {p q : Point} {r : Float} (hz : p.hasZ = q.hasZ)
    (h : (p.lerp p r).distance q ≤ tolerance) : (p == p) = true := by
  have hbound : ¬infinity ≤ tolerance := by decide +kernel
  have hplane : ¬(shape p.x = .notANumber ∨ shape p.y = .notANumber) →
      (p.x == p.x) = true ∧ (p.y == p.y) = true := by
    intro hn
    rw [not_or] at hn
    exact ⟨(beq_self_iff _).mpr hn.1, (beq_self_iff _).mpr hn.2⟩
  have hfar : (shape p.x = .notANumber ∨ shape p.y = .notANumber) →
      shape ((p.lerp p r).x - q.x) = .notANumber ∨ shape ((p.lerp p r).y - q.y) = .notANumber :=
    Or.imp (fun hx => nan_sub_left (nan_along hx r) _) fun hy => nan_sub_left (nan_along hy r) _
  rw [beq_iff]
  unfold hasZ at hz
  unfold distance at h
  cases hp : p.z with
  | none =>
    have hlerp : (p.lerp p r).z = none := by simp [lerp, hp]
    simp only [hlerp] at h
    obtain ⟨hx, hy⟩ := hplane fun hn => not_hypot_le_of_nan (hfar hn) hbound h
    exact ⟨hx, hy, rfl, rfl⟩
  | some z =>
    cases hq : q.z with
    | none => simp [hp, hq] at hz
    | some w =>
      have hlerp : (p.lerp p r).z = some (z + (z - z) * r) := by simp [lerp, hp]
      simp only [hlerp, hq] at h
      have hplanar : ∀ hn : shape p.x = .notANumber ∨ shape p.y = .notANumber,
          hypot ((p.lerp p r).x - q.x) ((p.lerp p r).y - q.y) = infinity ∨
            shape (hypot ((p.lerp p r).x - q.x) ((p.lerp p r).y - q.y)) = .notANumber :=
        fun hn => hypot_of_nan (hfar hn)
      obtain ⟨hx, hy⟩ := hplane fun hn => by
        rcases hplanar hn with hi | hi
        · rw [hi, hypot_infinity] at h
          exact hbound h
        · exact not_hypot_le_of_nan (Or.inl hi) hbound h
      refine ⟨hx, hy, ?_, rfl⟩
      refine (beq_self_iff z).mpr fun hn => ?_
      exact not_hypot_le_of_nan (Or.inr (nan_sub_left (nan_along hn r) w)) hbound h

lemma fraction_of_locate {start stop p : Point} {r : Float} (h : locate start stop p = some r) :
    Fraction r := by
  unfold locate at h
  dsimp only at h
  split at h
  · cases h
  · split at h
    · split at h
      · rw [← Option.some.inj h]
        exact fraction_clamp _
      · cases h
    · cases h

end Point

instance : LawfulValue Point where
  beq_symm h := by
    obtain ⟨hx, hy, hz, hs⟩ := (Point.beq_iff _ _).mp h
    exact (Point.beq_iff _ _).mpr
      ⟨Binary64.beq_symm hx, Binary64.beq_symm hy, Point.elevation_symm hz, hs.symm⟩
  beq_trans h h' := by
    obtain ⟨hx, hy, hz, hs⟩ := (Point.beq_iff _ _).mp h
    obtain ⟨hx', hy', hz', hs'⟩ := (Point.beq_iff _ _).mp h'
    exact (Point.beq_iff _ _).mpr ⟨Binary64.beq_trans hx hx', Binary64.beq_trans hy hy',
      Point.elevation_trans hz hz', hs.trans hs'⟩
  compatible_self _ := (Point.compatible_iff _ _).mpr ⟨rfl, rfl⟩
  compatible_symm h := by
    obtain ⟨hs, hz⟩ := (Point.compatible_iff _ _).mp h
    exact (Point.compatible_iff _ _).mpr ⟨hs.symm, hz.symm⟩
  compatible_trans h h' := by
    obtain ⟨hs, hz⟩ := (Point.compatible_iff _ _).mp h
    obtain ⟨hs', hz'⟩ := (Point.compatible_iff _ _).mp h'
    exact (Point.compatible_iff _ _).mpr ⟨hs.trans hs', hz.trans hz'⟩
  compatible_interpolate r h := by
    obtain ⟨-, hz⟩ := (Point.compatible_iff _ _).mp h
    exact (Point.compatible_iff _ _).mpr ⟨rfl, (Point.lerp_hasZ hz r).symm⟩
  collinear_congr h := by
    change decide _ = decide _
    rw [Point.distance_congr h]
  beq_self_of_collinear hc h :=
    Point.beq_self_of_distance ((Point.compatible_iff _ _).mp hc).2 (of_decide_eq_true h)
  locate_fraction _ h := Point.fraction_of_locate h

end TemporalAlgebra
