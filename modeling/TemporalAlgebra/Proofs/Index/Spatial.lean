import TemporalAlgebra.Proofs.Index.Searching

/-!
# Searching boxes of space and time

The index of boxes of space and time looks for boxes with the number of the reference system that
the query has, whatever dimensions the boxes have in common. The predicate of the boxes compares
these numbers only where both boxes are in space, and does not compare a box on the sphere with one
in the plane.
-/
namespace TemporalAlgebra

open Indexable

namespace STBox

def IsFinite (b : STBox) : Prop :=
  ∀ s ∈ b.space, s.x.IsFinite ∧ s.y.IsFinite ∧ ∀ z ∈ s.z, z.IsFinite

def SharesWith (a b : STBox) : Prop := (a.hasX ∧ b.hasX) ∨ (a.hasT ∧ b.hasT)

/-- Whether boxes lie on the same surface and, unless they are both in space, have the same number
of a reference system. -/
def ComparableWith (a b : STBox) : Prop :=
  a.geodetic = b.geodetic ∧ (a.srid = b.srid ∨ a.hasX ∧ b.hasX)

lemma overlaps_eq_ok_true {a b : STBox} : a.overlaps b = .ok true ↔
    (a.hasX ∧ b.hasX → a.srid = b.srid) ∧ a.geodetic = b.geodetic ∧ a.SharesWith b ∧
      a.meets b = true := by
  unfold overlaps requireCommon requireSystem SharesWith
  simp only [check_bind_eq_ok, require_eq_ok, pure_eq_ok, Bool.not_eq_true', Bool.and_eq_false_iff,
    bne_eq_false_iff_eq, beq_iff_eq, Bool.or_eq_true, Bool.and_eq_true]
  constructor
  · rintro ⟨⟨⟨hsrid, hsurface⟩, hshare⟩, hmeets⟩
    refine ⟨fun hspace => ?_, hsurface, hshare, hmeets⟩
    simp [hspace] at hsrid
    exact hsrid
  · rintro ⟨hsrid, hsurface, hshare, hmeets⟩
    refine ⟨⟨⟨?_, hsurface⟩, hshare⟩, hmeets⟩
    by_cases ha : a.hasX = true
    · by_cases hb : b.hasX = true
      · exact Or.inr (hsrid ⟨ha, hb⟩)
      · exact Or.inl (Or.inr (by simpa using hb))
    · exact Or.inl (Or.inl (by simpa using ha))

lemma ComparableWith.overlaps_iff {a b : STBox} (h : a.ComparableWith b) (hshare : a.SharesWith b) :
    a.overlaps b = .ok true ↔ a.srid = b.srid ∧ a.meets b = true := by
  rw [overlaps_eq_ok_true]
  constructor
  · rintro ⟨hsrid, -, -, hmeets⟩
    exact ⟨h.2.elim id hsrid, hmeets⟩
  · rintro ⟨hsrid, hmeets⟩
    exact ⟨fun _ => hsrid, h.1, hshare, hmeets⟩

end STBox

lemma isBounded_of_isFinite_space {b : STBox} (h : b.IsFinite) : isBounded b = true := by
  have htime : BoundedAxis (b.period.map ofSpan) := boundedAxis_ofSpan b.period
  have hx : BoundedAxis (b.space.map Space.x) := by
    intro e he
    obtain ⟨s, hs, rfl⟩ := Option.map_eq_some_iff.mp he
    exact (h s hs).1
  have hy : BoundedAxis (b.space.map Space.y) := by
    intro e he
    obtain ⟨s, hs, rfl⟩ := Option.map_eq_some_iff.mp he
    exact (h s hs).2.1
  have hz : BoundedAxis b.z := by
    intro e he
    obtain ⟨s, hs, hz⟩ := Option.bind_eq_some_iff.mp he
    exact (h s hs).2.2 e hz
  rw [isBounded_iff]
  simp [axes, hx, hy, hz, htime]

namespace BoxIndex

/-- The index of boxes of space and time finds the boxes that meet a query on the extents in common
and have its number of a reference system. So it agrees with the predicate of boxes where all boxes
that meet the query are comparable with it. -/
theorem spatial_search_iff {index : BoxIndex STBox} {items : List (STBox × Bigint)}
    (h : Built index items) {locate : Locator STBox} (hlocate : Exact locate) {query : STBox}
    (hquery : query.IsFinite) (hshare : ∀ item ∈ items, item.1.SharesWith query) (id : Bigint) :
    (id ∈ searchBy locate index query ↔
      ∃ box, (box, id) ∈ items ∧ box.srid = query.srid ∧ box.meets query = true) ∧
    ((∀ box, (box, id) ∈ items → box.meets query = true → box.ComparableWith query) →
      (id ∈ searchBy locate index query ↔
        ∃ box, (box, id) ∈ items ∧ box.overlaps query = .ok true)) := by
  have hfound : id ∈ searchBy locate index query ↔
      ∃ box, (box, id) ∈ items ∧ box.srid = query.srid ∧ box.meets query = true := by
    rw [h.holds.mem_search_iff hlocate (isBounded_of_isFinite_space hquery)]
    simp only [overlaps, Bool.and_eq_true, beq_iff_eq]
  refine ⟨hfound, fun hcomparable => ?_⟩
  rw [hfound]
  refine exists_congr fun box => and_congr_right fun hmem => ?_
  constructor
  · rintro ⟨hsrid, hmeets⟩
    exact ((hcomparable box hmem hmeets).overlaps_iff (hshare _ hmem)).mpr ⟨hsrid, hmeets⟩
  · intro hover
    have hmeets := (STBox.overlaps_eq_ok_true.mp hover).2.2.2
    exact ((hcomparable box hmem hmeets).overlaps_iff (hshare _ hmem)).mp hover

/-- The unit square of reference system 4326 for the first ten microseconds of 2000. -/
def square : STBox :=
  ⟨some ⟨⟨0.0, 1.0⟩, ⟨0.0, 1.0⟩, none⟩, some ⟨.nearest 0, .nearest 10, true, true⟩, .clamp 4326,
    false⟩

def neighbour : STBox :=
  { square with space := some ⟨⟨2.0, 3.0⟩, ⟨0.0, 1.0⟩, none⟩ }

def moment : STBox := .ofPeriod (Period.singleton (.nearest 5))

/-- The left half of the squares at any time. -/
def leftHalf : STBox := ⟨some ⟨⟨0.5, 1.5⟩, ⟨0.0, 1.0⟩, none⟩, none, .clamp 4326, false⟩

lemma isFinite_leftHalf : leftHalf.IsFinite := by
  intro s hs
  obtain rfl := Option.some.inj hs
  exact ⟨⟨by decide, by decide⟩, ⟨by decide, by decide⟩, fun _ h => nomatch h⟩

/-- Of two squares, that one is found which meets a query in space. -/
theorem square_found : ∃ index : BoxIndex STBox,
    ofList [(square, .clamp 1), (neighbour, .clamp 2)] = .ok index ∧ leftHalf.IsFinite ∧
      square.SharesWith leftHalf ∧ square.ComparableWith leftHalf ∧
      ∀ id : Bigint, id ∈ index.search leftHalf ↔ id = .clamp 1 := by
  have hload : ofList [(square, .clamp 1), (neighbour, .clamp 2)] = .ok
      ⟨[⟨square, .clamp 1⟩, ⟨neighbour, .clamp 2⟩], some [true, true, false, true]⟩ := rfl
  refine ⟨_, hload, isFinite_leftHalf, Or.inl ⟨rfl, rfl⟩, ⟨rfl, Or.inl rfl⟩, fun id => ?_⟩
  have hshare : ∀ item ∈ [(square, (.clamp 1 : Bigint)), (neighbour, .clamp 2)],
      item.1.SharesWith leftHalf := by
    simp only [List.forall_mem_cons, List.not_mem_nil, false_implies, implies_true, and_true]
    exact ⟨Or.inl ⟨rfl, rfl⟩, Or.inl ⟨rfl, rfl⟩⟩
  refine (spatial_search_iff (.loaded hload) exact_scan isFinite_leftHalf hshare id).1.trans ?_
  constructor
  · rintro ⟨box, hmem, -, hmeets⟩
    simp only [List.mem_cons, Prod.mk.injEq, List.not_mem_nil, or_false] at hmem
    rcases hmem with ⟨rfl, rfl⟩ | ⟨rfl, rfl⟩
    · rfl
    · exact absurd hmeets (by decide)
  · rintro rfl
    exact ⟨square, by simp, rfl, by decide⟩

/-- A query in time only does not find a box in space that it overlaps, and a query in the plane
finds a box on the sphere that can not be compared with it. -/
theorem systems_compared_differently :
    (∃ index : BoxIndex STBox, ofList [(square, .clamp 1)] = .ok index ∧ moment.IsFinite ∧
      square.SharesWith moment ∧ square.overlaps moment = .ok true ∧
      (.clamp 1 : Bigint) ∉ index.search moment) ∧
    ∃ index : BoxIndex STBox, ofList [(square.withGeodetic true, .clamp 1)] = .ok index ∧
      leftHalf.IsFinite ∧ (square.withGeodetic true).SharesWith leftHalf ∧
      (square.withGeodetic true).overlaps leftHalf ≠ .ok true ∧
      (.clamp 1 : Bigint) ∈ index.search leftHalf := by
  have hspace : ofList [(square, (.clamp 1 : Bigint))] =
      .ok ⟨[⟨square, .clamp 1⟩], some [true, true, false, true]⟩ := rfl
  have hsphere : ofList [(square.withGeodetic true, (.clamp 1 : Bigint))] =
      .ok ⟨[⟨square.withGeodetic true, .clamp 1⟩], some [true, true, false, true]⟩ := rfl
  have hmoment : moment.IsFinite := fun _ h => nomatch h
  refine ⟨⟨_, hspace, hmoment, Or.inr ⟨rfl, rfl⟩, rfl, ?_⟩,
    _, hsphere, isFinite_leftHalf, Or.inl ⟨rfl, rfl⟩, fun h => ?_, ?_⟩
  · exact (mem_search (isBounded_of_isFinite_space hmoment)).not.mpr (by decide)
  · exact absurd (STBox.overlaps_eq_ok_true.mp h).2.1 (by decide)
  · exact (mem_search (isBounded_of_isFinite_space isFinite_leftHalf)).mpr (by decide)

end BoxIndex

end TemporalAlgebra
