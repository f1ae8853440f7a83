import TemporalAlgebra.Box.TBox
import TemporalAlgebra.Proofs.Box.Lawful
import TemporalAlgebra.Proofs.Outcome
import TemporalAlgebra.Proofs.Span.Relations
import TemporalAlgebra.Proofs.SpanSet.Operations

/-!
# The lattice of boxes

Boxes of values and time lie within each other as their extents do, where both have them. The union
of boxes with the same extents is the least box over both, and the common part of boxes that meet is
the greatest box within both. An extent that one of two boxes lacks puts no condition on the other,
so each law is one about two optional extents, and a box puts two of them together.
-/
namespace TemporalAlgebra

namespace Span

variable {α : Type} [SpanDomain α] [LawfulDomain α] {a b c i : Span α}

lemma contains_hull_iff :
    c.contains (a.hull b) = true ↔ c.contains a = true ∧ c.contains b = true := by
  simp only [contains_iff, lo_hull, hi_hull]
  omega

lemma contains_common_iff (h : a.intersection b = some i) :
    i.contains c = true ↔ a.contains c = true ∧ b.contains c = true := by
  obtain ⟨hlo, hhi, -⟩ := intersection_eq_some_iff.mp h
  simp only [contains_iff]
  omega

lemma intersection_comm (a b : Span α) : a.intersection b = b.intersection a := by
  refine Option.ext fun c => ?_
  rw [intersection_eq_some_iff, intersection_eq_some_iff, max_comm, min_comm]

end Span

namespace TemporalBox

variable {α : Type}

lemma whereBoth_iff {relation : α → α → Bool} {a b : Option α} :
    whereBoth relation a b = true ↔ ∀ s ∈ a, ∀ t ∈ b, relation s t = true := by
  cases a <;> cases b <;> simp [whereBoth]

lemma isSome_hullOfPresent (hull : α → α → α) (a b : Option α) :
    (hullOfPresent hull a b).isSome = (a.isSome || b.isSome) := by
  cases a <;> cases b <;> rfl

lemma forall_mem_hullOfPresent {hull : α → α → α} {P : α → Prop} {a b : Option α}
    (h : ∀ s t, P s → P t → P (hull s t)) (ha : ∀ s ∈ a, P s) (hb : ∀ s ∈ b, P s) :
    ∀ s ∈ hullOfPresent hull a b, P s := by
  cases a with
  | none => exact hb
  | some s =>
    cases b with
    | none => exact ha
    | some t =>
      rintro - ⟨⟩
      exact h s t (ha s rfl) (hb t rfl)

lemma isSome_common {common : α → α → Option α} {a b i : Option α}
    (h : commonWhereBoth common a b = some i) : i.isSome = (a.isSome && b.isSome) := by
  cases a <;> cases b <;> simp [commonWhereBoth] at h <;> grind

lemma exists_of_mem_common {common : α → α → Option α} {a b i : Option α} {s : α}
    (h : commonWhereBoth common a b = some i) (hs : s ∈ i) :
    ∃ x y, a = some x ∧ b = some y ∧ common x y = some s := by
  cases a <;> cases b <;> simp [commonWhereBoth] at h <;> grind

lemma commonWhereBoth_comm {common : α → α → Option α} (h : ∀ s t, common s t = common t s)
    (a b : Option α) : commonWhereBoth common a b = commonWhereBoth common b a := by
  cases a <;> cases b <;> simp [commonWhereBoth, h]

section

variable [SpanDomain α] [LawfulDomain α] {a b c i : Option (Span α)}

lemma whereBoth_contains_self (a : Option (Span α)) : whereBoth Span.contains a a = true := by
  cases a <;> simp [whereBoth]

lemma whereBoth_contains_hull_iff :
    whereBoth Span.contains c (hullOfPresent Span.hull a b) = true ↔
      whereBoth Span.contains c a = true ∧ whereBoth Span.contains c b = true := by
  cases c with
  | none => simp [whereBoth]
  | some s =>
    cases a <;> cases b <;>
      simp only [whereBoth, hullOfPresent, Span.contains_hull_iff, true_and, and_true]

lemma whereBoth_overlaps_iff (ha : ∀ s ∈ a, s.Valid) (hb : ∀ s ∈ b, s.Valid) :
    whereBoth Span.overlaps a b = true ↔
      (commonWhereBoth Span.intersection a b).isSome = true := by
  cases a with
  | none => simp [whereBoth, commonWhereBoth]
  | some s =>
    cases b with
    | none => simp [whereBoth, commonWhereBoth]
    | some t =>
      simpa [whereBoth, commonWhereBoth] using (ha s rfl).overlaps_iff_intersection (hb t rfl)

lemma whereBoth_common_contains (h : commonWhereBoth Span.intersection a b = some i)
    (ha : whereBoth Span.contains a c = true) (hb : whereBoth Span.contains b c = true) :
    whereBoth Span.contains i c = true := by
  rw [whereBoth_iff] at *
  intro s hs t ht
  obtain ⟨x, y, hx, hy, hxy⟩ := exists_of_mem_common h hs
  exact (Span.contains_common_iff hxy).mpr ⟨ha x hx t ht, hb y hy t ht⟩

lemma whereBoth_contains_common (h : commonWhereBoth Span.intersection a b = some i) :
    whereBoth Span.contains a i = true ∧ whereBoth Span.contains b i = true := by
  cases i with
  | none => cases a <;> cases b <;> exact ⟨rfl, rfl⟩
  | some s =>
    obtain ⟨x, y, rfl, rfl, hxy⟩ := exists_of_mem_common h rfl
    exact (Span.contains_common_iff hxy).mp ((Span.contains_iff s s).mpr ⟨le_refl _, le_refl _⟩)

lemma valid_of_mem_common (ha : ∀ s ∈ a, s.Valid) (hb : ∀ s ∈ b, s.Valid)
    (h : commonWhereBoth Span.intersection a b = some i) : ∀ s ∈ i, s.Valid := by
  intro s hs
  obtain ⟨x, y, hx, hy, hxy⟩ := exists_of_mem_common h hs
  exact (ha x hx).intersection (hb y hy) hxy

end

end TemporalBox

namespace TBox

/-- A box of valid extents, of which it has at least one. -/
structure Valid (b : TBox) : Prop where
  span : ∀ s ∈ b.span, s.Valid
  period : ∀ p ∈ b.period, p.Valid
  extent : b.hasX = true ∨ b.hasT = true

def SameAs (a b : TBox) : Prop := a.hasX = b.hasX ∧ a.hasT = b.hasT

def SharesWith (a b : TBox) : Prop :=
  a.hasX = true ∧ b.hasX = true ∨ a.hasT = true ∧ b.hasT = true

/-- In each extent that both boxes have, every place of `b` is one of `a`. -/
def Encloses (a b : TBox) : Prop :=
  (∀ s ∈ a.span, ∀ t ∈ b.span, ∀ n, t.Covers n → s.Covers n) ∧
    ∀ p ∈ a.period, ∀ q ∈ b.period, ∀ n, q.Covers n → p.Covers n

/-- In each extent that both boxes have there is a place in both. -/
def Touches (a b : TBox) : Prop :=
  (∀ s ∈ a.span, ∀ t ∈ b.span, ∃ n, s.Covers n ∧ t.Covers n) ∧
    ∀ p ∈ a.period, ∀ q ∈ b.period, ∃ n, p.Covers n ∧ q.Covers n

variable {a b c d i u : TBox}

lemma Valid.sharesWith (h : a.Valid) (hx : a.hasX = true → b.hasX = true)
    (ht : a.hasT = true → b.hasT = true) : a.SharesWith b :=
  h.extent.imp (fun h => ⟨h, hx h⟩) fun h => ⟨h, ht h⟩

lemma SharesWith.symm (h : a.SharesWith b) : b.SharesWith a := h.imp And.symm And.symm

lemma requireSame_eq_ok : a.requireSame b = .ok () ↔ a.SameAs b := by
  simp [requireSame, SameAs]

lemma requireSame_of_not (h : ¬a.SameAs b) :
    a.requireSame b = refuse (.invalidArg "The boxes must have the same dimensions") := by
  unfold SameAs at h
  simp [requireSame, require, h]

lemma requireCommon_eq_ok : a.requireCommon b = .ok () ↔ a.SharesWith b := by
  simp [requireCommon, SharesWith]

lemma requireCommon_of_not (h : ¬a.SharesWith b) :
    a.requireCommon b = refuse (.invalidArg "The boxes must share at least one dimension") := by
  unfold SharesWith at h
  simp [requireCommon, require, not_or.mp h]

lemma union_eq_ok : a.union b = .ok u ↔ a.SameAs b ∧ a.hull b = u := by
  unfold union
  rw [check_bind_eq_ok, requireSame_eq_ok, pure_eq_ok]

lemma contains_eq_ok_true : a.contains b = .ok true ↔
    a.SharesWith b ∧ TemporalBox.whereBoth Span.contains a.span b.span = true ∧
      TemporalBox.whereBoth Span.contains a.period b.period = true := by
  unfold contains onCommon
  rw [check_bind_eq_ok, requireCommon_eq_ok, pure_eq_ok, Bool.and_eq_true]

lemma overlaps_eq_ok_true : a.overlaps b = .ok true ↔
    a.SharesWith b ∧ TemporalBox.whereBoth Span.overlaps a.span b.span = true ∧
      TemporalBox.whereBoth Span.overlaps a.period b.period = true := by
  unfold overlaps meets onCommon
  rw [check_bind_eq_ok, requireCommon_eq_ok, pure_eq_ok, Bool.and_eq_true]

lemma contains_iff_encloses (hb : b.Valid) :
    a.contains b = .ok true ↔ a.SharesWith b ∧ a.Encloses b := by
  rw [contains_eq_ok_true, TemporalBox.whereBoth_iff, TemporalBox.whereBoth_iff]
  refine and_congr_right fun _ => and_congr ?_ ?_
  · exact forall₄_congr fun _ _ _ ht => (hb.span _ ht).contains_iff_covers
  · exact forall₄_congr fun _ _ _ hq => (hb.period _ hq).contains_iff_covers

lemma meets_iff_touches (ha : a.Valid) (hb : b.Valid) : a.meets b = true ↔ a.Touches b := by
  unfold meets onCommon
  rw [Bool.and_eq_true, TemporalBox.whereBoth_iff, TemporalBox.whereBoth_iff]
  refine and_congr ?_ ?_
  · exact forall₄_congr fun _ hs _ ht => (ha.span _ hs).overlaps_iff_covers (hb.span _ ht)
  · exact forall₄_congr fun _ hp _ hq => (ha.period _ hp).overlaps_iff_covers (hb.period _ hq)

lemma overlaps_iff_touches (ha : a.Valid) (hb : b.Valid) :
    a.overlaps b = .ok true ↔ a.SharesWith b ∧ a.Touches b := by
  rw [overlaps_eq_ok_true, ← meets_iff_touches ha hb]
  unfold meets onCommon
  rw [Bool.and_eq_true]

lemma intersection_eq_ok_some : a.intersection b = .ok (some i) ↔
    a.SharesWith b ∧ TemporalBox.commonWhereBoth Span.intersection a.span b.span = some i.span ∧
      TemporalBox.commonWhereBoth Span.intersection a.period b.period = some i.period := by
  unfold intersection
  rw [check_bind_eq_ok, requireCommon_eq_ok]
  refine and_congr_right fun _ => ?_
  cases TemporalBox.commonWhereBoth Span.intersection a.span b.span with
  | none => simp
  | some s =>
    cases TemporalBox.commonWhereBoth Span.intersection a.period b.period with
    | none => simp
    | some p =>
      cases i
      simp

/-- Boxes over two boxes lie over the union. -/
structure IsLeastOver (u a b : TBox) : Prop where
  valid : u.Valid
  left : u.contains a = .ok true
  right : u.contains b = .ok true
  least : ∀ c : TBox, c.Valid → c.contains a = .ok true → c.contains b = .ok true →
    c.contains u = .ok true

/-- The common part has the extents in common, and boxes within two boxes lie within it, if they
have these extents too. -/
structure IsGreatestWithin (i a b : TBox) : Prop where
  valid : i.Valid
  hasX : i.hasX = (a.hasX && b.hasX)
  hasT : i.hasT = (a.hasT && b.hasT)
  left : i.contained a = .ok true
  right : i.contained b = .ok true
  greatest : ∀ d : TBox, d.Valid → (i.hasX = true → d.hasX = true) →
    (i.hasT = true → d.hasT = true) → d.contained a = .ok true → d.contained b = .ok true →
    d.contained i = .ok true

lemma SameAs.hasX_hull (h : a.SameAs b) : (a.hull b).hasX = a.hasX := by
  unfold hasX hull
  rw [TemporalBox.isSome_hullOfPresent]
  exact (congrArg (a.hasX || ·) h.1.symm).trans (Bool.or_self _)

lemma SameAs.hasT_hull (h : a.SameAs b) : (a.hull b).hasT = a.hasT := by
  unfold hasT hull
  rw [TemporalBox.isSome_hullOfPresent]
  exact (congrArg (a.hasT || ·) h.2.symm).trans (Bool.or_self _)

lemma SameAs.valid_hull (h : a.SameAs b) (ha : a.Valid) (hb : b.Valid) : (a.hull b).Valid where
  span := TemporalBox.forall_mem_hullOfPresent (fun _ _ hs ht => hs.hull ht) ha.span hb.span
  period := TemporalBox.forall_mem_hullOfPresent (fun _ _ hs ht => hs.hull ht) ha.period hb.period
  extent := by
    rw [h.hasX_hull, h.hasT_hull]
    exact ha.extent

lemma SameAs.sharesWith_hull (h : a.SameAs b) : c.SharesWith (a.hull b) ↔ c.SharesWith a := by
  unfold SharesWith
  rw [h.hasX_hull, h.hasT_hull]

lemma SameAs.contains_hull (h : a.SameAs b) :
    c.contains (a.hull b) = .ok true ↔ c.contains a = .ok true ∧ c.contains b = .ok true := by
  have hshare : c.SharesWith a ↔ c.SharesWith b := by
    unfold SharesWith
    rw [h.1, h.2]
  simp only [contains_eq_ok_true, h.sharesWith_hull, ← hshare]
  unfold hull
  rw [TemporalBox.whereBoth_contains_hull_iff, TemporalBox.whereBoth_contains_hull_iff]
  tauto

lemma Valid.contains_self (h : a.Valid) : a.contains a = .ok true :=
  contains_eq_ok_true.mpr ⟨h.sharesWith id id, TemporalBox.whereBoth_contains_self _,
    TemporalBox.whereBoth_contains_self _⟩

lemma SameAs.isLeastOver (h : a.SameAs b) (ha : a.Valid) (hb : b.Valid) :
    (a.hull b).IsLeastOver a b := by
  have hvalid := h.valid_hull ha hb
  obtain ⟨hleft, hright⟩ := h.contains_hull.mp hvalid.contains_self
  exact ⟨hvalid, hleft, hright, fun c _ hca hcb => h.contains_hull.mpr ⟨hca, hcb⟩⟩

lemma overlaps_iff_exists_intersection (ha : a.Valid) (hb : b.Valid) :
    a.overlaps b = .ok true ↔ ∃ i, a.intersection b = .ok (some i) := by
  simp only [overlaps_eq_ok_true, intersection_eq_ok_some,
    TemporalBox.whereBoth_overlaps_iff ha.span hb.span,
    TemporalBox.whereBoth_overlaps_iff ha.period hb.period, Option.isSome_iff_exists]
  constructor
  · rintro ⟨hshare, ⟨s, hs⟩, p, hp⟩
    exact ⟨⟨s, p⟩, hshare, hs, hp⟩
  · rintro ⟨i, hshare, hs, hp⟩
    exact ⟨hshare, ⟨i.span, hs⟩, i.period, hp⟩

lemma isGreatestWithin (ha : a.Valid) (hb : b.Valid) (h : a.intersection b = .ok (some i)) :
    i.IsGreatestWithin a b := by
  obtain ⟨hshare, hspan, hperiod⟩ := intersection_eq_ok_some.mp h
  have hx : i.hasX = (a.hasX && b.hasX) := TemporalBox.isSome_common hspan
  have ht : i.hasT = (a.hasT && b.hasT) := TemporalBox.isSome_common hperiod
  have hvalid : i.Valid := by
    refine ⟨TemporalBox.valid_of_mem_common ha.span hb.span hspan,
      TemporalBox.valid_of_mem_common ha.period hb.period hperiod, ?_⟩
    rw [hx, ht, Bool.and_eq_true, Bool.and_eq_true]
    exact hshare
  obtain ⟨hspanA, hspanB⟩ := TemporalBox.whereBoth_contains_common hspan
  obtain ⟨hperiodA, hperiodB⟩ := TemporalBox.whereBoth_contains_common hperiod
  have hleft : i.SharesWith a :=
    hvalid.sharesWith (by simp +contextual [hx]) (by simp +contextual [ht])
  have hright : i.SharesWith b :=
    hvalid.sharesWith (by simp +contextual [hx]) (by simp +contextual [ht])
  refine ⟨hvalid, hx, ht, contains_eq_ok_true.mpr ⟨hleft.symm, hspanA, hperiodA⟩,
    contains_eq_ok_true.mpr ⟨hright.symm, hspanB, hperiodB⟩, ?_⟩
  intro d hd hdx hdt hda hdb
  obtain ⟨-, hdspanA, hdperiodA⟩ := contains_eq_ok_true.mp hda
  obtain ⟨-, hdspanB, hdperiodB⟩ := contains_eq_ok_true.mp hdb
  exact contains_eq_ok_true.mpr ⟨hvalid.sharesWith hdx hdt,
    TemporalBox.whereBoth_common_contains hspan hdspanA hdspanB,
    TemporalBox.whereBoth_common_contains hperiod hdperiodA hdperiodB⟩

lemma union_comm (a b : TBox) : a.union b = b.union a := by
  have hhull : a.hull b = b.hull a := LawfulBox.hull_comm a b
  unfold union requireSame
  rw [hhull, BEq.comm (a := a.hasX), BEq.comm (a := a.hasT)]

lemma requireCommon_comm (a b : TBox) : a.requireCommon b = b.requireCommon a := by
  unfold requireCommon
  rw [Bool.and_comm a.hasX, Bool.and_comm a.hasT]

lemma intersection_comm (a b : TBox) : a.intersection b = b.intersection a := by
  unfold intersection
  rw [requireCommon_comm, TemporalBox.commonWhereBoth_comm Span.intersection_comm a.span,
    TemporalBox.commonWhereBoth_comm Span.intersection_comm a.period]

/-- An operation yields a value under a condition, and is refused for `cause` without it. -/
def RefusedUnless {α : Type} (condition : Prop) (cause : Error) (outcome : Result α) : Prop :=
  (condition → ∃ x, outcome = .ok x) ∧ (¬condition → outcome = refuse cause)

lemma union_refused (a b : TBox) :
    RefusedUnless (a.SameAs b) (.invalidArg "The boxes must have the same dimensions")
      (a.union b) := by
  refine ⟨fun h => ⟨_, union_eq_ok.mpr ⟨h, rfl⟩⟩, fun h => ?_⟩
  unfold union
  rw [requireSame_of_not h]
  rfl

lemma refused_of_requireCommon {α : Type} {f : Unit → Result α} (hf : ∃ x, f () = .ok x) :
    RefusedUnless (a.SharesWith b)
      (.invalidArg "The boxes must share at least one dimension") (a.requireCommon b >>= f) := by
  refine ⟨fun h => ?_, fun h => ?_⟩
  · rw [bind_of_ok (requireCommon_eq_ok.mpr h)]
    exact hf
  · rw [requireCommon_of_not h]
    rfl

lemma intersection_refused (a b : TBox) :
    RefusedUnless (a.SharesWith b) (.invalidArg "The boxes must share at least one dimension")
      (a.intersection b) := by
  refine refused_of_requireCommon ?_
  cases TemporalBox.commonWhereBoth Span.intersection a.span b.span with
  | none => exact ⟨none, rfl⟩
  | some s =>
    cases TemporalBox.commonWhereBoth Span.intersection a.period b.period with
    | none => exact ⟨none, rfl⟩
    | some p => exact ⟨some ⟨s, p⟩, rfl⟩

/-- The union of valid boxes with the same extents is the least box over both, and the common part
of valid boxes with an extent in common exists if they meet, and is the greatest box within both.
Both operations are commutative, and each operation is refused only for want of the extents that it
asks for. A box lies over another one, and boxes meet, as their extents in common do. -/
theorem boxes_form_a_lattice (ha : a.Valid) (hb : b.Valid) :
    (a.SameAs b → ∃ u, a.union b = .ok u ∧ u.IsLeastOver a b) ∧
      (a.SharesWith b →
        (a.overlaps b = .ok true ↔ ∃ i, a.intersection b = .ok (some i)) ∧
        ∀ i, a.intersection b = .ok (some i) → i.IsGreatestWithin a b) ∧
      a.union b = b.union a ∧ a.intersection b = b.intersection a ∧
      RefusedUnless (a.SameAs b) (.invalidArg "The boxes must have the same dimensions")
        (a.union b) ∧
      RefusedUnless (a.SharesWith b) (.invalidArg "The boxes must share at least one dimension")
        (a.intersection b) ∧
      RefusedUnless (a.SharesWith b) (.invalidArg "The boxes must share at least one dimension")
        (a.overlaps b) ∧
      RefusedUnless (a.SharesWith b) (.invalidArg "The boxes must share at least one dimension")
        (a.contains b) ∧
      (a.contains b = .ok true ↔ a.SharesWith b ∧ a.Encloses b) ∧
      (a.overlaps b = .ok true ↔ a.SharesWith b ∧ a.Touches b) := by
  refine ⟨fun h => ⟨a.hull b, union_eq_ok.mpr ⟨h, rfl⟩, h.isLeastOver ha hb⟩, fun _ => ?_,
    union_comm a b, intersection_comm a b, union_refused a b, intersection_refused a b,
    refused_of_requireCommon ⟨_, rfl⟩, refused_of_requireCommon ⟨_, rfl⟩,
    contains_iff_encloses hb, overlaps_iff_touches ha hb⟩
  exact ⟨overlaps_iff_exists_intersection ha hb, fun i => isGreatestWithin ha hb⟩

section

open SpanSet

def low : TBox := ⟨some ⟨1.0, 3.0, true, false⟩, some early⟩

def high : TBox := ⟨some ⟨2.0, 5.0, true, true⟩, some late⟩

def timeless : TBox := ⟨some ⟨2.0, 5.0, true, true⟩, none⟩

lemma low_valid : low.Valid := by
  refine ⟨?_, ?_, Or.inl rfl⟩
  · rintro - ⟨⟩
    exact ⟨by decide, fun h => absurd h Bool.false_ne_true⟩
  · rintro - ⟨⟩
    exact early_valid

lemma high_valid : high.Valid := by
  refine ⟨?_, ?_, Or.inl rfl⟩
  · rintro - ⟨⟩
    exact ⟨by decide, fun h => absurd h Bool.false_ne_true⟩
  · rintro - ⟨⟩
    exact late_valid

lemma timeless_valid : timeless.Valid := ⟨high_valid.span, by rintro - ⟨⟩, Or.inl rfl⟩

/-- Boxes at different times have a union and no common part. A box without an extent in time has a
common part with them that is without it too, and no union. -/
theorem low_joins_high_and_meets_timeless :
    (∃ u, low.union high = .ok u ∧ u.IsLeastOver low high) ∧ ¬low.overlaps high = .ok true ∧
      (∀ i, low.intersection high ≠ .ok (some i)) ∧
      (∃ i, low.intersection timeless = .ok (some i) ∧ i.IsGreatestWithin low timeless ∧
        i.hasT = false) ∧
      low.union timeless = refuse (.invalidArg "The boxes must have the same dimensions") := by
  obtain ⟨hunion, hcommon, -⟩ := boxes_form_a_lattice low_valid high_valid
  obtain ⟨-, hcommon', -, -, hrefused, -⟩ := boxes_form_a_lattice low_valid timeless_valid
  obtain ⟨hmeets, -⟩ := hcommon (Or.inl ⟨rfl, rfl⟩)
  obtain ⟨hmeets', hgreatest⟩ := hcommon' (Or.inl ⟨rfl, rfl⟩)
  have hapart : ¬low.overlaps high = .ok true := by
    rintro h
    exact absurd (overlaps_eq_ok_true.mp h).2.2 (by decide)
  obtain ⟨i, hi⟩ := hmeets'.mp (overlaps_eq_ok_true.mpr ⟨Or.inl ⟨rfl, rfl⟩, by decide, by decide⟩)
  refine ⟨hunion ⟨by decide, by decide⟩, hapart, fun i hi => hapart (hmeets.mpr ⟨i, hi⟩),
    ⟨i, hi, hgreatest i hi, (hgreatest i hi).hasT⟩, hrefused.2 ?_⟩
  rintro ⟨-, h⟩
  exact absurd h (by decide)

end

end TBox

end TemporalAlgebra
