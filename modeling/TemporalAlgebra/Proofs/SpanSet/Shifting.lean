import TemporalAlgebra.Proofs.Span.Shifting
import TemporalAlgebra.Proofs.SpanSet.Predicates
import TemporalAlgebra.Proofs.ValueSet

/-!
# Shifting is translation

A shifted span set is sorted and joined anew, a shifted value set is sorted anew. Spans that are
apart stay so when they all move by the same steps, and rising values still rise. So the new set is
made of the moved parts, it is there unless one of them leaves the domain, and a shift by as many
steps back leads to the old set.
-/
namespace TemporalAlgebra

open LawfulDomain ShiftDomain

variable {α : Type} [SpanDomain α] [LawfulDomain α] {n : Int} {d : SpanDomain.Delta α}

namespace Span

variable {as bs : List (Span α)}

lemma anyCovers_iff_of_translates (h : List.Forall₂ (Translates n) as bs) (m : Int) :
    AnyCovers bs (m + 3 * n) ↔ AnyCovers as m := by
  induction h with
  | nil => exact iff_of_false (anyCovers_nil _) (anyCovers_nil _)
  | cons hab _ ih => rw [anyCovers_cons, anyCovers_cons, hab.covers_iff, ih]

lemma NormalForm.of_translates (ha : NormalForm as) (h : List.Forall₂ (Translates n) as bs) :
    NormalForm bs := by
  induction h with
  | nil => exact .nil
  | @cons a b as bs hab hrest ih =>
    have hbs := ih ha.tail
    refine ⟨List.forall_mem_cons.mpr ⟨hab.valid ha.head, hbs.valid⟩,
      List.pairwise_cons.mpr ⟨fun y hy => ?_, hbs.apart⟩⟩
    -- the first place of `y` comes from one that lies beyond `a`
    have hy : AnyCovers bs (y.lo - 3 * n + 3 * n) := by
      rw [Int.sub_add_cancel]
      exact ⟨y, hy, le_rfl, (hbs.valid y hy).lo_le_hi⟩
    have hbeyond := ha.lt_of_covers ((anyCovers_iff_of_translates hrest _).mp hy)
    have hhi := hab.hi
    omega

lemma forall₂_shift_iff [SuccessorDomain α] [ShiftDomain α] (has : ∀ a ∈ as, a.Valid)
    (hn : n ∈ steps? d) :
    List.Forall₂ (fun a b => a.shift d = .ok b) as bs ↔ List.Forall₂ (Translates n) as bs := by
  constructor
  · intro h
    exact ((List.forall₂_and_left as bs).mpr ⟨has, h⟩).imp fun _ _ hab =>
      (hab.1.shift_eq_ok_iff hn).mp hab.2
  · intro h
    exact ((List.forall₂_and_left as bs).mpr ⟨has, h⟩).imp fun _ _ hab =>
      (hab.1.shift_eq_ok_iff hn).mpr hab.2

end Span

namespace SpanSet

/-- One set has as many spans as another one, and they are those of the other moved by some
steps. -/
structure Translates (n : Int) (s t : SpanSet α) : Prop where
  wellFormed : t.WellFormed
  spans : List.Forall₂ (Span.Translates n) s.spans t.spans

def bounds (s : SpanSet α) : List α := s.spans.flatMap Span.bounds

variable {s t : SpanSet α}

lemma Translates.symm (h : Translates n s t) (hs : s.WellFormed) : Translates (-n) t s :=
  ⟨hs, (h.spans.imp fun _ _ hab => hab.symm).flip⟩

lemma Translates.containsValue (h : Translates n s t) (hs : s.WellFormed) {v w : α}
    (hw : key w = key v + n) : t.containsValue w = s.containsValue v := by
  rw [Bool.eq_iff_iff, h.wellFormed.containsValue_iff, hs.containsValue_iff, hw]
  have hplace : 3 * (key v + n) + 1 = 3 * key v + 1 + 3 * n := by omega
  rw [hplace]
  exact Span.anyCovers_iff_of_translates h.spans _

lemma WellFormed.exists_translates_iff (hs : s.WellFormed) :
    (∃ t, Translates n s t) ↔ ∀ v ∈ s.bounds, ∃ w : α, key w = key v + n := by
  have hspans : (∃ spans, List.Forall₂ (Span.Translates n) s.spans spans) ↔
      ∀ v ∈ s.bounds, ∃ w : α, key w = key v + n := by
    simp only [exists_forall₂_iff, Span.exists_translates_iff, bounds, List.mem_flatMap]
    exact ⟨fun h v ⟨x, hx, hv⟩ => h x hx v hv, fun h x hx v hv => h v ⟨x, hx, hv⟩⟩
  rw [← hspans]
  constructor
  · rintro ⟨t, ht⟩
    exact ⟨t.spans, ht.spans⟩
  · rintro ⟨spans, hmoved⟩
    obtain ⟨first, rest, -, -, rfl⟩ := List.forall₂_cons_left_iff.mp hmoved
    exact ⟨ofOrdered first rest, wellFormed_ofOrdered (hs.normal.of_translates hmoved), hmoved⟩

variable [SuccessorDomain α] [ShiftDomain α]

lemma WellFormed.shift_eq_ok_iff (hs : s.WellFormed) (hn : n ∈ steps? d) :
    s.shift d = .ok t ↔ Translates n s t := by
  unfold shift
  simp only [bind_eq_ok, mapM_eq_ok, pure_eq_ok]
  constructor
  · rintro ⟨first, hfirst, rest, hrest, rfl⟩
    have hmoved : List.Forall₂ (Span.Translates n) s.spans (first :: rest) :=
      (Span.forall₂_shift_iff hs.normal.valid hn).mp (.cons hfirst hrest)
    have hwell := wellFormed_ofOrdered (hs.normal.of_translates hmoved)
    have hsame : ofSpans first rest = ofOrdered first rest :=
      Option.some.inj ((ofSpans?_ofSpans first rest).symm.trans hwell.ofSpans?_eq)
    rw [hsame]
    exact ⟨hwell, hmoved⟩
  · rintro ⟨hwell, hmoved⟩
    obtain ⟨hfirst, hrest⟩ :=
      List.forall₂_cons.mp ((Span.forall₂_shift_iff hs.normal.valid hn).mpr hmoved)
    refine ⟨t.first, hfirst, t.rest, hrest, ?_⟩
    exact Option.some.inj ((ofSpans?_ofSpans _ _).symm.trans hwell.ofSpans?_eq)

omit [SuccessorDomain α] in
lemma shift_ne_ok (hd : steps? d = none) : s.shift d ≠ .ok t := by
  unfold shift
  intro h
  obtain ⟨first, hfirst, -⟩ := bind_eq_ok.mp h
  exact Span.shift_ne_ok hd hfirst

end SpanSet

namespace ValueSet

def Translates (n : Int) (s t : ValueSet α) : Prop :=
  List.Forall₂ (fun a b => key b = key a + n) s.values t.values

variable {s t : ValueSet α}

lemma Translates.symm (h : Translates n s t) : Translates (-n) t s :=
  (h.imp fun a b (hab : key b = key a + n) => show key a = key b + -n by omega).flip

lemma pairwise_lt_of_moved {as bs : List α}
    (h : List.Forall₂ (fun a b => key b = key a + n) as bs)
    (ha : as.Pairwise fun a b => key a < key b) : bs.Pairwise fun a b => key a < key b := by
  induction h with
  | nil => exact .nil
  | @cons a b as bs hab hrest ih =>
    refine List.pairwise_cons.mpr ⟨fun y hy => ?_, ih ha.tail⟩
    obtain ⟨x, hx, hxy⟩ := exists_of_mem_right hrest hy
    have hlt := List.rel_of_pairwise_cons ha hx
    omega

lemma Translates.ascending (h : Translates n s t) (hs : s.Ascending) : t.Ascending :=
  pairwise_lt_of_moved h hs

lemma Translates.contains (h : Translates n s t) (hs : s.Ascending) {v w : α}
    (hw : key w = key v + n) : t.contains w = s.contains v := by
  rw [Bool.eq_iff_iff, (h.ascending hs).contains_iff, hs.contains_iff]
  constructor
  · rintro ⟨y, hy, hyw⟩
    obtain ⟨x, hx, hxy⟩ := exists_of_mem_right h hy
    exact ⟨x, hx, by omega⟩
  · rintro ⟨x, hx, hxv⟩
    obtain ⟨y, hy, hxy⟩ := exists_of_mem_left h hx
    exact ⟨y, hy, by omega⟩

lemma exists_translates_iff :
    (∃ t, Translates n s t) ↔ ∀ v ∈ s.values, ∃ w : α, key w = key v + n := by
  rw [← exists_forall₂_iff]
  constructor
  · rintro ⟨t, ht⟩
    exact ⟨t.values, ht⟩
  · rintro ⟨values, hmoved⟩
    obtain ⟨first, rest, -, -, rfl⟩ := List.forall₂_cons_left_iff.mp hmoved
    exact ⟨⟨first, rest⟩, hmoved⟩

variable [ShiftDomain α]

lemma Ascending.shift_eq_ok_iff [SuccessorDomain α] (hs : s.Ascending) (hn : n ∈ steps? d) :
    s.shift d = .ok t ↔ Translates n s t := by
  unfold shift new
  simp only [bind_eq_ok, mapM_eq_ok, reported_eq_ok, addDelta_eq_ok_iff_of_mem hn]
  constructor
  · rintro ⟨values, hmoved, hmake⟩
    obtain ⟨first, rest, -, -, rfl⟩ := List.forall₂_cons_left_iff.mp hmoved
    have hrising : (ValueSet.mk first rest).Ascending := pairwise_lt_of_moved hmoved hs
    obtain rfl := Except.ok.inj (hrising.make_eq.symm.trans hmake)
    exact hmoved
  · intro hmoved
    exact ⟨t.values, hmoved, (hmoved.ascending hs).make_eq⟩

lemma shift_ne_ok (hd : steps? d = none) : s.shift d ≠ .ok t := by
  unfold shift
  intro h
  obtain ⟨values, hvalues, -⟩ := bind_eq_ok.mp h
  obtain ⟨w, -, hw⟩ := mem_mapM_of_mem hvalues (List.mem_cons_self : s.first ∈ s.values)
  exact addDelta_ne_ok hd hw

end ValueSet

/-- A delta moves `x` by `n` steps. The shift ends with a result if all bounds can move so far. The
result is `x` moved, and contains a value if `x` contains the value that comes to it. What shifts it
by as many steps back leads to `x` again. -/
structure ShiftsExactly {X : Type} (shift : X → SpanDomain.Delta α → Result X)
    (bounds : X → List α) (contains : X → α → Bool) (Translates : Int → X → X → Prop)
    (d : SpanDomain.Delta α) (n : Int) (back : SpanDomain.Delta α → Prop) (x : X) : Prop where
  succeeds_iff : (∃ y, shift x d = .ok y) ↔ ∀ v ∈ bounds x, ∃ w : α, key w = key v + n
  translates : ∀ y, shift x d = .ok y → Translates n x y
  contains_eq : ∀ y, shift x d = .ok y → ∀ v w : α, key w = key v + n →
    contains y w = contains x v
  returns : ∀ y e, shift x d = .ok y → back e → shift y e = .ok x

lemma ShiftsExactly.of_shift_iff [ShiftDomain α] {X : Type} {Good : X → Prop}
    {shift : X → SpanDomain.Delta α → Result X} {bounds : X → List α} {contains : X → α → Bool}
    {Translates : Int → X → X → Prop} {back : SpanDomain.Delta α → Prop}
    (hshift : ∀ {x y m e}, Good x → m ∈ steps? e → (shift x e = .ok y ↔ Translates m x y))
    (hgood : ∀ {x y m}, Translates m x y → Good x → Good y)
    (hsymm : ∀ {x y m}, Translates m x y → Good x → Translates (-m) y x)
    (hexists : ∀ {x m}, Good x →
      ((∃ y, Translates m x y) ↔ ∀ v ∈ bounds x, ∃ w : α, key w = key v + m))
    (hcontains : ∀ {x y m v w}, Translates m x y → Good x → key w = key v + m →
      contains y w = contains x v)
    (hn : n ∈ steps? d) (hback : ∀ e, back e → -n ∈ steps? e) {x : X} (hx : Good x) :
    ShiftsExactly shift bounds contains Translates d n back x := by
  constructor
  · rw [← hexists hx]
    exact exists_congr fun _ => hshift hx hn
  · intro y hy
    exact (hshift hx hn).mp hy
  · intro y hy v w hw
    exact hcontains ((hshift hx hn).mp hy) hx hw
  · intro y e hy he
    have hmoved := (hshift hx hn).mp hy
    apply (hshift (hgood hmoved hx) (hback e he)).mpr
    exact hsymm hmoved hx

/-- A delta moves every span and every set by `n` steps; some deltas move back. -/
structure Translation (d : SpanDomain.Delta α) (n : Int) (back : SpanDomain.Delta α → Prop) :
    Prop where
  span : ∀ s : Span α, s.Valid →
    ShiftsExactly Span.shift Span.bounds Span.containsValue Span.Translates d n back s
  spanSet : ∀ s : SpanSet α, s.WellFormed →
    ShiftsExactly SpanSet.shift SpanSet.bounds SpanSet.containsValue SpanSet.Translates d n back s
  valueSet : ∀ s : ValueSet α, s.Ascending →
    ShiftsExactly ValueSet.shift ValueSet.values ValueSet.contains ValueSet.Translates d n back s

lemma Translation.of_steps [SuccessorDomain α] [ShiftDomain α]
    {back : SpanDomain.Delta α → Prop} (hn : n ∈ steps? d) (hback : ∀ e, back e → -n ∈ steps? e) :
    Translation d n back := by
  constructor
  · intro s hs
    exact .of_shift_iff Span.Valid.shift_eq_ok_iff Span.Translates.valid (fun h _ => h.symm)
      (fun _ => Span.exists_translates_iff) (fun h _ => h.containsValue) hn hback hs
  · intro s hs
    exact .of_shift_iff SpanSet.WellFormed.shift_eq_ok_iff (fun h _ => h.wellFormed)
      SpanSet.Translates.symm SpanSet.WellFormed.exists_translates_iff
      (fun h hx => h.containsValue hx) hn hback hs
  · intro s hs
    exact .of_shift_iff ValueSet.Ascending.shift_eq_ok_iff ValueSet.Translates.ascending
      (fun h _ => h.symm) (fun _ => ValueSet.exists_translates_iff)
      (fun h hx => h.contains hx) hn hback hs

/-- No span and no set is shifted by a delta. -/
structure Refused (d : SpanDomain.Delta α) : Prop where
  span : ∀ s t : Span α, s.shift d ≠ .ok t
  spanSet : ∀ s t : SpanSet α, s.shift d ≠ .ok t
  valueSet : ∀ s t : ValueSet α, s.shift d ≠ .ok t

lemma Refused.of_steps [ShiftDomain α] (hd : steps? d = none) : Refused d :=
  ⟨fun _ _ => Span.shift_ne_ok hd, fun _ _ => SpanSet.shift_ne_ok hd,
    fun _ _ => ValueSet.shift_ne_ok hd⟩

/-- Shifting is an exact translation that can be undone. Integers and dates move by the delta,
timestamps by a whole number of microseconds that fits in 64 bits; a longer one moves no
timestamp. -/
theorem shifting_is_translation :
    (∀ d : Integer, Translation (α := Integer) d d.val fun e : Integer => e.val = -d.val) ∧
      (∀ d : Bigint, Translation (α := Bigint) d d.val fun e : Bigint => e.val = -d.val) ∧
      (∀ d : Integer, Translation (α := Date) d d.val fun e : Integer => e.val = -d.val) ∧
      (∀ n : Int, Timestamp.Fits n → Translation (α := Timestamp) (Interval.ofMicros n) n
        fun e : Interval => Timestamp.Fits (-n) ∧ e = .ofMicros (-n)) ∧
      ∀ n : Int, ¬Timestamp.Fits n → Refused (α := Timestamp) (Interval.ofMicros n) := by
  refine ⟨fun d => ?_, fun d => ?_, fun d => ?_, fun n hn => ?_, fun n hn => ?_⟩
  · exact .of_steps rfl fun e he => congrArg some he
  · exact .of_steps rfl fun e he => congrArg some he
  · exact .of_steps rfl fun e he => congrArg some he
  · apply Translation.of_steps
    · exact Timestamp.steps?_ofMicros.mpr ⟨hn, rfl⟩
    · rintro e ⟨hfits, rfl⟩
      exact Timestamp.steps?_ofMicros.mpr ⟨hfits, rfl⟩
  · apply Refused.of_steps
    apply Option.eq_none_iff_forall_not_mem.mpr
    intro m hm
    exact hn (Timestamp.steps?_ofMicros.mp hm).1

def distant : Period := Period.singleton (.nearest (-8335547913600000000))

def nearTop : Span Integer := ⟨.clamp 2147483645, .clamp 2147483646, true, false⟩

lemma nearTop_valid : nearTop.Valid :=
  (Span.valid_iff_of_discrete rfl).mpr (by decide)

def twoDates : ValueSet Date := ⟨.nearest 1, [.nearest 4]⟩

theorem shifts_end_at_the_top :
    (∃ t, nearTop.shift (Signed.clamp 1 : Integer) = .ok t ∧
        t.containsValue (.clamp 2147483646) = true ∧
        t.shift (Signed.clamp (-1) : Integer) = .ok nearTop) ∧
      (¬∃ t, nearTop.shift (Signed.clamp 2 : Integer) = .ok t) ∧
      (∃ t, twoDates.shift (Signed.clamp 30 : Integer) = .ok t ∧ t.contains (.nearest 34) = true) ∧
      (∃ t, SpanSet.gapped.shift (Interval.ofMicros (-5)) = .ok t ∧
        ¬t.containsValue (.nearest (-3)) = true ∧
        t.shift (Interval.ofMicros 5) = .ok SpanSet.gapped) ∧
      ∀ t, distant.shift (Interval.ofMicros 9223372036855000000) ≠ .ok t := by
  obtain ⟨hintegers, -, hdates, htimes, hlong⟩ := shifting_is_translation
  refine ⟨?_, ?_, ?_, ?_, ?_⟩
  · have hone := (hintegers (.clamp 1)).span nearTop nearTop_valid
    obtain ⟨t, ht⟩ := hone.succeeds_iff.mpr (List.forall_mem_cons.mpr
      ⟨⟨.clamp 2147483646, by decide⟩,
        List.forall_mem_singleton.mpr ⟨.clamp 2147483647, by decide⟩⟩)
    refine ⟨t, ht, ?_, hone.returns t _ ht (by decide)⟩
    rw [hone.contains_eq t ht (.clamp 2147483645) _ (by decide)]
    decide
  · intro hshift
    have htwo := (hintegers (.clamp 2)).span nearTop nearTop_valid
    obtain ⟨w, hw⟩ := htwo.succeeds_iff.mp hshift nearTop.upper (by decide)
    have hupper : w.val < 2 ^ 31 := w.upper
    change w.val = 2147483646 + 2 at hw
    omega
  · have hrising : twoDates.Ascending := List.pairwise_pair.mpr (by decide)
    have hmonth := (hdates (.clamp 30)).valueSet twoDates hrising
    obtain ⟨t, ht⟩ := hmonth.succeeds_iff.mpr (List.forall_mem_cons.mpr
      ⟨⟨.nearest 31, by decide⟩, List.forall_mem_singleton.mpr ⟨.nearest 34, by decide⟩⟩)
    refine ⟨t, ht, ?_⟩
    rw [hmonth.contains_eq t ht (.nearest 4) _ (by decide)]
    decide
  · have hback := (htimes (-5) (by decide)).spanSet SpanSet.gapped SpanSet.gapped_wellFormed
    have hfits : ∀ v ∈ SpanSet.gapped.bounds, Timestamp.Fits (v.micros + -5) := by decide
    obtain ⟨t, ht⟩ := hback.succeeds_iff.mpr fun v hv =>
      ⟨.nearest (v.micros + -5), Timestamp.micros_nearest_of_fits (hfits v hv)⟩
    refine ⟨t, ht, ?_, hback.returns t _ ht ⟨by decide, rfl⟩⟩
    rw [hback.contains_eq t ht (.nearest 2) _ (by decide)]
    decide
  · exact (hlong 9223372036855000000 (by decide)).span distant

/-- A whole number of microseconds that leads from the first years of the calendar to a timestamp,
but is itself too long. -/
theorem long_shift_is_refused :
    distant.Valid ∧ ¬((∃ t, distant.shift (Interval.ofMicros 9223372036855000000) = .ok t) ↔
      ∀ v ∈ distant.bounds, ∃ w : Timestamp, w.micros = v.micros + 9223372036855000000) := by
  refine ⟨Period.singleton_valid _, fun h => ?_⟩
  have hfits : ∀ v ∈ distant.bounds, Timestamp.Fits (v.micros + 9223372036855000000) := by decide
  obtain ⟨t, ht⟩ := h.mpr fun v hv =>
    ⟨.nearest (v.micros + 9223372036855000000), Timestamp.micros_nearest_of_fits (hfits v hv)⟩
  have htoolong : steps? (α := Timestamp) (Interval.ofMicros 9223372036855000000) = none := rfl
  exact Span.shift_ne_ok htoolong ht

end TemporalAlgebra
