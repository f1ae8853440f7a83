import TemporalAlgebra.Proofs.Span.Scaling
import TemporalAlgebra.Proofs.SpanSet.NormalForm

/-!
# Scaled bounds are exact but for one

Every number is taken to the integer nearest to it or refused, and scaled spans and span sets have
the bounds that were computed. There is one exception, among the integers of 64 bits: for `2 ^ 63`,
which is the greatest element as it is read back from a number, the greatest element is taken.
-/
namespace TemporalAlgebra

open LawfulDomain SpanDomain ConvertingDomain

variable {α : Type} [SpanDomain α] [LawfulDomain α]

namespace SpanSet

def scaledBound (s : SpanSet α) (factor : Float) (x : α) : Float :=
  native s.lower + (native x - native s.lower) * factor

def scaledSpan (s : SpanSet α) (factor : Float) (a : Span α) : Result (Span α) := do
  let lower ← ofNative (s.scaledBound factor a.lower)
  let upper ← ofNative (s.scaledBound factor a.upper)
  Span.new lower upper a.lowerInc a.upperInc

variable [SuccessorDomain α] [ConvertingDomain α] {s t : SpanSet α} {factor : Float}

lemma stretches_of_scaledSpan {a b : Span α} (ha : a.Valid) (h : s.scaledSpan factor a = .ok b) :
    Span.Stretches (PastEnd (bits α)) (s.scaledBound factor) a b := by
  unfold scaledSpan at h
  obtain ⟨lower, hlower, hrest⟩ := bind_eq_ok.mp h
  obtain ⟨upper, hupper, hnew⟩ := bind_eq_ok.mp hrest
  obtain rfl := ha.bounds_of_new hnew
  exact ⟨ofNative_eq_ok_iff.mp hlower, ofNative_eq_ok_iff.mp hupper, rfl, rfl⟩

/-- A scaled set is the union of the spans with the bounds that are reached. -/
lemma WellFormed.scale_spec (hs : s.WellFormed) (h : s.scale factor = .ok t) :
    ∃ moved, List.Forall₂ (Span.Stretches (PastEnd (bits α)) (s.scaledBound factor)) s.spans moved ∧
      ofSpans? moved = some t := by
  obtain ⟨-, hscale⟩ := check_bind_eq_ok.mp h
  obtain ⟨first, hfirst, hmore⟩ := bind_eq_ok.mp hscale
  obtain ⟨rest, hrest, ht⟩ := bind_eq_ok.mp hmore
  obtain rfl := pure_eq_ok.mp ht
  have hmoved : List.Forall₂ (fun a b => s.scaledSpan factor a = .ok b) s.spans (first :: rest) :=
    .cons hfirst (mapM_eq_ok.mp hrest)
  refine ⟨first :: rest, ?_, ofSpans?_ofSpans first rest⟩
  exact ((List.forall₂_and_left _ _).mpr ⟨hs.normal.valid, hmoved⟩).imp fun _ _ hab =>
    stretches_of_scaledSpan hab.1 hab.2

end SpanSet

/-- A number is converted to a domain of the integers from `-2 ^ bits` to `2 ^ bits - 1`, and spans
and span sets over it are scaled by that number: what is answered are the nearest integers, or the
greatest one for a number that `passes` lets through, and else the number is refused. -/
structure Converts (α : Type) [SpanDomain α] [LawfulDomain α] (bits : ℕ) (what : String)
    (passes : Float → Prop) (v : Float) : Prop where
  elements : ∀ n : ℤ, (∃ x : α, key x = n) ↔ -2 ^ bits ≤ n ∧ n < 2 ^ bits
  ok_iff : ∀ x : α, ofNative v = .ok x ↔ Reached passes v x
  refused_iff : (ofNative v : Result α) = refuse (outOfRange what) ↔ Missed bits passes v
  span : ∀ s t : Span α, s.Valid → s.scale v = .ok t →
    t.lower = s.lower ∧ t.lowerInc = s.lowerInc ∧ t.upperInc = s.upperInc ∧
      Reached passes (s.scaledUpper v) t.upper
  span_refused : ∀ s : Span α, Binary64.isFinite v = true → (0.0 : Float) < v →
    Missed bits passes (s.scaledUpper v) → s.scale v = refuse (outOfRange what)
  spanSet : ∀ s t : SpanSet α, s.WellFormed → s.scale v = .ok t →
    ∃ moved, List.Forall₂ (Span.Stretches passes (s.scaledBound v)) s.spans moved ∧
      SpanSet.ofSpans? moved = some t

lemma converts [SuccessorDomain α] [ConvertingDomain α] (v : Float) :
    Converts α (bits α) (what α) (PastEnd (bits α)) v := by
  constructor
  · intro n
    refine ⟨?_, fun h => exists_key_eq h.1 h.2⟩
    rintro ⟨x, rfl⟩
    exact key_bounds x
  · exact fun x => ofNative_eq_ok_iff
  · exact ofNative_eq_refuse_iff
  · exact fun s t hs h => hs.scale_spec h
  · exact fun s hfinite hpos h => Span.scale_refused hfinite hpos h
  · exact fun s t hs h => hs.scale_spec h

/-- The domains of 32 bits convert numbers exactly or refuse them. Those of 64 bits do so too, but
take the greatest element for a number whose nearest integer is `2 ^ 63`. -/
theorem conversion_spec (v : Float) :
    Converts Integer 31 "Integer" (fun _ => False) v ∧
      Converts Date 31 "Date" (fun _ => False) v ∧
      Converts Bigint 63 "Bigint" (NearestTo · (2 ^ 63)) v ∧
      Converts Timestamp 63 "Timestamp" (NearestTo · (2 ^ 63)) v := by
  have hsmall : PastEnd 31 = fun _ => False := by
    funext x
    simp [PastEnd]
  have hlarge : PastEnd 63 = (NearestTo · (2 ^ 63)) := by
    funext x
    simp [PastEnd]
  rw [← hsmall, ← hlarge]
  exact ⟨converts v, converts v, converts v, converts v⟩

def fewIntegers : Span Integer := ⟨.clamp 1, .clamp 5, true, false⟩

/-- A span is scaled by two and a half, and by a factor that leads out of the domain. -/
theorem fewIntegers_scaled :
    (∃ t, fewIntegers.scale 2.5 = .ok t ∧ NearestTo (fewIntegers.scaledUpper 2.5) t.upper.val) ∧
      fewIntegers.scale 1e9 = refuse (outOfRange "Integer") ∧
      (ofNative (2 / 0) : Result Bigint) = refuse (outOfRange "Bigint") := by
  have hvalid : fewIntegers.Valid := (Span.valid_iff_of_discrete rfl).mpr (by decide)
  refine ⟨?_, ?_, ?_⟩
  · obtain ⟨hintegers, -⟩ := conversion_spec 2.5
    have hscale : fewIntegers.scale 2.5 = .ok ⟨.clamp 1, .clamp 11, true, false⟩ := rfl
    exact ⟨_, hscale,
      ((hintegers.span fewIntegers _ hvalid hscale).2.2.2).resolve_right fun h => h.1⟩
  · obtain ⟨hintegers, -⟩ := conversion_spec 1e9
    refine hintegers.span_refused fewIntegers (by decide +kernel) (by decide +kernel) ?_
    exact Or.inr ⟨4000000001, nearestTo_iff.mpr (by decide +kernel), id, by decide⟩
  · obtain ⟨-, -, hbigints, -⟩ := conversion_spec (2 / 0)
    exact hbigints.refused_iff.mpr (Or.inl (by decide +kernel))

def lowerHalf : Span Bigint := ⟨.clamp 0, .clamp 4611686018427387904, true, false⟩

lemma lowerHalf_scale : lowerHalf.scale 2.0 = .ok ⟨.clamp 0, Signed.maximum, true, false⟩ := by
  rfl

/-- The upper bound of a doubled span is computed to be `2 ^ 63`. That is no element, and the one
before it is taken. -/
theorem lowerHalf_doubled_short :
    lowerHalf.Valid ∧ NearestTo (lowerHalf.scaledUpper 2.0) (2 ^ 63) ∧
      (¬∃ x : Bigint, key x = 2 ^ 63) ∧
      ofNative (lowerHalf.scaledUpper 2.0) = .ok (Signed.maximum : Bigint) ∧
      lowerHalf.scale 2.0 = .ok ⟨.clamp 0, Signed.maximum, true, false⟩ := by
  refine ⟨(Span.valid_iff_of_discrete rfl).mpr (by decide), nearestTo_iff.mpr (by decide +kernel),
    ?_, by decide +kernel, lowerHalf_scale⟩
  rintro ⟨x, hx⟩
  have hupper : x.val < 2 ^ 63 := x.upper
  change x.val = 2 ^ 63 at hx
  omega

end TemporalAlgebra
